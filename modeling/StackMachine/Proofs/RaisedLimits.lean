import Mathlib.Order.UpperLower.Basic
import StackMachine.Proofs.Stopping

/-!
# Raised limits

A run looks at the capacity of its stack only when it pushes, and at its limit only to see whether
it may go on.  More slots change nothing for a run that did not overflow, so a program overflows on
all stacks below some capacity and on none from there on.  A higher limit changes nothing for a run
that faulted or halted, and lets one that was stopped go on from where it was.
-/

namespace StackMachine

/-! ## More slots -/

def View.withCapacity (v : View) (capacity : Nat) : View := { v with capacity }

/-- What an instruction does on a stack it does also on a larger one, unless the first is full. -/
theorem Effect.withCapacity {v : View} {i : Instr} {r : Except Fault View} {capacity : Nat}
    (h : Effect v i r) (hle : v.capacity ≤ capacity) (hroom : r ≠ .error .stackOverflow) :
    Effect (v.withCapacity capacity) i (r.map (·.withCapacity capacity)) :=
  h.adapt (fun _ => capacity) id id hle (fun hfull => absurd hfull hroom) (fun _ _ => rfl)

/-- The second state has at least the slots of the first and otherwise looks the same. -/
structure State.Widened (s t : State) : Prop where
  capacity_le : s.stack.capacity ≤ t.stack.capacity
  view_eq : t.view = s.view.withCapacity t.stack.capacity

namespace State.Widened

variable {s t : State}

theorem pointer (h : s.Widened t) : t.pointer = s.pointer :=
  congrArg View.pointer h.view_eq

theorem program (h : s.Widened t) : t.program = s.program :=
  congrArg View.program h.view_eq

theorem agrees (h : s.Widened t) : s.Agrees t where
  halted := (congrArg View.halted h.view_eq).symm
  executed := (congrArg View.executed h.view_eq).symm
  output := (congrArg View.output h.view_eq).symm

theorem counted (h : s.Widened t) : s.counted.Widened t.counted where
  capacity_le := h.capacity_le
  view_eq := congrArg (fun v : View => { v with executed := v.executed + 1 }) h.view_eq

theorem fetch?_eq (h : s.Widened t) :
    t.program.fetch? t.pointer = s.program.fetch? s.pointer := by
  rw [h.program, h.pointer]

theorem effect (h : s.Widened t) {i : Instr} {r : Except Fault View} (heffect : Effect s.view i r)
    (hroom : r ≠ .error .stackOverflow) :
    Effect t.view i (r.map (·.withCapacity t.stack.capacity)) := by
  rw [h.view_eq]
  exact heffect.withCapacity h.capacity_le hroom

theorem cycle_eq_error (h : s.Widened t) {fault : Fault} (hcycle : Step.cycle s = .error fault)
    (hroom : fault ≠ .stackOverflow) : Step.cycle t = .error fault := by
  rw [Step.cycle_eq_error_iff] at hcycle ⊢
  rw [h.fetch?_eq]
  rcases hcycle with hfetch | ⟨i, hfetch, hdispatch⟩
  · exact .inl hfetch
  · have heffect := h.counted.effect (Step.effect_of_dispatch_error hdispatch)
      (by simpa using hroom)
    exact .inr ⟨i, hfetch, Step.dispatch_of_effect_error heffect⟩

theorem exists_cycle_eq_ok (h : s.Widened t) {i : Instr} {s' : State}
    (hcycle : Step.cycle s = .ok (i, s')) :
    ∃ t', Step.cycle t = .ok (i, t') ∧ s'.Widened t' := by
  have heffect := h.counted.effect (Step.effect_of_cycle_ok hcycle) nofun
  obtain ⟨t', hdispatch, hview⟩ := Step.dispatch_of_effect_ok heffect
  have hfetch := h.fetch?_eq.trans (Step.cycle_eq_ok_iff.1 hcycle).1
  have hcycle' := Step.cycle_eq_ok_iff.2 ⟨hfetch, hdispatch⟩
  have hcapacity := Step.capacity_of_cycle hcycle'
  refine ⟨t', hcycle', ?_, ?_⟩
  · rw [hcapacity, Step.capacity_of_cycle hcycle]
    exact h.capacity_le
  · rw [hcapacity]
    exact hview

end State.Widened

theorem lockstep_widened (limits : Limits) :
    Lockstep limits (· = .stackOverflow) State.Widened where
  fault h hcycle := or_iff_not_imp_left.2 (h.cycle_eq_error hcycle)
  cycle h hcycle := by
    obtain ⟨t', hcycle', h'⟩ := h.exists_cycle_eq_ok hcycle
    exact ⟨_, t', hcycle', h'.agrees, fun _ => h'⟩

namespace Limits

variable {limits : Limits} {program : Program} {capacity : UInt64}

theorem start_widened (program : Program) (hle : limits.stackCapacity ≤ capacity) :
    (limits.start program).Widened ({ limits with stackCapacity := capacity }.start program) := by
  have hcapacity : ∀ l : Limits, (l.start program).stack.capacity = l.stackCapacity.toNat :=
    fun l => Stack.capacity_empty _
  constructor
  · rw [hcapacity, hcapacity]
    exact UInt64.le_iff_toNat_le.1 hle
  · simp [View.withCapacity, State.view, start, State.initial, State.start]

theorem execute_of_raised_capacity (hle : limits.stackCapacity ≤ capacity)
    (hmax : capacity.toNat ≤ 2 ^ 20)
    (hroom : limits.execute program ≠ .error .stackOverflow) :
    { limits with stackCapacity := capacity }.execute program = limits.execute program := by
  have hvalid : limits.validate = .ok () :=
    limits.validate_eq_ok_iff.2 (Nat.le_trans (UInt64.le_iff_toNat_le.1 hle) hmax)
  have hvalid' : { limits with stackCapacity := capacity }.validate = .ok () :=
    (validate_eq_ok_iff _).2 hmax
  have hwidened := start_widened program hle
  have hsame := (lockstep_widened limits).result_eq (course_execute hvalid program)
    (course_execute hvalid' program) rfl hwidened hwidened.agrees
  apply hsame.resolve_left
  rintro ⟨fault, rfl, hoverflow⟩
  exact hroom hoverflow

end Limits

/-- A run that does not overflow has the same result on every larger stack, so the capacities at
which a program overflows are all those below some bound. -/
theorem raised_capacity_keeps_result (limits : Limits) (program : Program) :
    (∀ capacity, limits.stackCapacity ≤ capacity → capacity.toNat ≤ 2 ^ 20 →
      limits.execute program ≠ .error .stackOverflow →
      { limits with stackCapacity := capacity }.execute program = limits.execute program) ∧
    IsLowerSet {capacity : UInt64 |
      { limits with stackCapacity := capacity }.execute program = .error .stackOverflow} := by
  refine ⟨fun capacity => Limits.execute_of_raised_capacity, ?_⟩
  intro capacity smaller hle hoverflow
  have hoverflow : { limits with stackCapacity := capacity }.execute program =
    .error .stackOverflow := hoverflow
  have hmax := (Limits.validate_eq_ok_iff _).1
    (Limits.valid_of_execute_ne (by rw [hoverflow]; nofun))
  by_contra hroom
  have hsame : { limits with stackCapacity := capacity }.execute program =
      { limits with stackCapacity := smaller }.execute program :=
    Limits.execute_of_raised_capacity hle hmax hroom
  exact hroom (hsame.symm.trans hoverflow)

/-- Two pushes and an addition on stacks of one slot and of two. -/
theorem addition_needs_two_slots :
    let limits : Limits := { stackCapacity := 2, executionLimit := 5 }
    let program : Program := ⟨#[.push 3, .push 4, .add, .print, .halt], .empty⟩
    limits.stackCapacity ≤ 1048576 ∧
      limits.execute program =
        .ok { output := .ofValues [7], status := .halted, executed := 5 } ∧
      { limits with stackCapacity := 1048576 }.execute program = limits.execute program ∧
      { limits with stackCapacity := 1 }.execute program = .error .stackOverflow ∧
      { limits with stackCapacity := 0 }.execute program = .error .stackOverflow := by
  intro limits program
  have hexecute : limits.execute program =
      .ok { output := .ofValues [7], status := .halted, executed := 5 } := by decide
  have hone : { limits with stackCapacity := 1 }.execute program = .error .stackOverflow := by
    decide
  have hzero : (0 : UInt64) ≤ 1 := by decide
  obtain ⟨hkeeps, hlower⟩ := raised_capacity_keeps_result limits program
  refine ⟨by decide, hexecute, ?_, hone, hlower hzero hone⟩
  exact hkeeps 1048576 (by decide) (by decide) (by rw [hexecute]; nofun)

/-! ## More cycles -/

namespace Limits

variable {limits : Limits} {program : Program} {limit : Count} {k : Nat}

/-- A fault or a halt ends a run in the same cycle whatever the limit. -/
theorem Ending.of_not_limitExceeded {limits' : Limits} {s : State} {r : Except Fault Completion}
    (h : limits.Ending s k r) (hr : ∀ c, r = .ok c → c.status ≠ .limitExceeded) :
    limits'.Ending s k r := by
  cases h with
  | fault hafter hcycle => exact .fault hafter hcycle
  | halt hafter hhalted => exact .halt hafter hhalted
  | limit => exact absurd rfl (hr _ rfl)

/-- A run stops no earlier under a higher limit. -/
theorem Stops.le_of_raised {k' : Nat} (hle : limits.executionLimit ≤ limit)
    (hk : k ≤ limits.executionLimit.toNat + 1) (hstops : limits.Stops program k)
    (hstops' : { limits with executionLimit := limit }.Stops program k') : k ≤ k' := by
  have hending := hstops'.ending
  generalize { limits with executionLimit := limit }.execute program = r at hending
  cases hending with
  | fault hafter hcycle => exact hstops.first _ _ (.fault hafter hcycle)
  | halt hafter hhalted => exact hstops.first _ _ (.halt hafter hhalted)
  | limit => exact Nat.le_trans hk (Nat.succ_le_succ (UInt64.le_iff_toNat_le.1 hle))

theorem execute_of_raised_limit (hle : limits.executionLimit ≤ limit)
    (hlimit : limit.toNat < 2 ^ 64 - 1)
    (hr : ∀ c, limits.execute program = .ok c → c.status ≠ .limitExceeded) :
    { limits with executionLimit := limit }.execute program = limits.execute program := by
  have hle' := UInt64.le_iff_toNat_le.1 hle
  cases hvalid : limits.validate with
  | error fault =>
      have hvalid' : { limits with executionLimit := limit }.validate = .error fault := hvalid
      rw [execute_of_invalid hvalid', execute_of_invalid hvalid]
  | ok =>
      have hvalid' : { limits with executionLimit := limit }.validate = .ok () := hvalid
      obtain ⟨k, hk, hstops⟩ := exists_stops hvalid (by omega) program
      obtain ⟨k', -, hstops'⟩ := exists_stops hvalid' hlimit program
      obtain rfl : k' = k := by
        apply Nat.le_antisymm
        · exact hstops'.first k _ (hstops.ending.of_not_limitExceeded hr)
        · exact hstops.le_of_raised hle hk hstops'
      rw [hstops'.ending.eq_map_after, hstops.ending.eq_map_after]
      rfl

theorem Stops.exists_after {c : Completion} (hstops : limits.Stops program k)
    (hexecute : limits.execute program = .ok c) :
    ∃ t, (limits.start program).after k = .ok t ∧ c.output = t.output := by
  have hending := hstops.ending
  rw [hexecute] at hending
  cases hending with
  | halt hafter => exact ⟨_, hafter, rfl⟩
  | limit hafter => exact ⟨_, hafter, rfl⟩

/-- The cycle in which a run stops under a higher limit comes after all those that it makes under a
limit that stops it. -/
theorem Stops.gt_of_limitExceeded {c c' : Completion} (hlt : limits.executionLimit < limit)
    (hexecute : limits.execute program = .ok c) (hstatus : c.status = .limitExceeded)
    (hstops : { limits with executionLimit := limit }.Stops program k)
    (hexecute' : { limits with executionLimit := limit }.execute program = .ok c') :
    limits.executionLimit.toNat + 1 < k := by
  have hending := hstops.ending
  rw [hexecute'] at hending
  have hlt' := UInt64.lt_iff_toNat_lt.1 hlt
  cases hending with
  | @halt k t hafter hhalted =>
      by_contra hearly
      obtain ⟨u, hu, hunhalted⟩ :=
        exists_after_of_limitExceeded hexecute hstatus (Nat.le_of_not_lt hearly)
      cases hu.symm.trans hafter
      simp [hhalted] at hunhalted
  | limit => exact Nat.succ_lt_succ hlt'

theorem extends_of_raised_limit {c c' : Completion} (hlt : limits.executionLimit < limit)
    (hlimit : limit.toNat < 2 ^ 64 - 1) (hexecute : limits.execute program = .ok c)
    (hstatus : c.status = .limitExceeded)
    (hexecute' : { limits with executionLimit := limit }.execute program = .ok c') :
    limits.executionLimit.toNat + 1 < c'.executed.toNat ∧
      c.output.records.toList <+: c'.output.records.toList := by
  have hlt' := UInt64.lt_iff_toNat_lt.1 hlt
  obtain ⟨k, hk, hstops⟩ := exists_stops (valid_of_execute hexecute) (by omega) program
  obtain ⟨k', hk', hstops'⟩ := exists_stops (valid_of_execute hexecute') hlimit program
  have hlonger := hstops'.gt_of_limitExceeded hlt hexecute hstatus hexecute'
  obtain ⟨t, ht, hout⟩ := hstops.exists_after hexecute
  obtain ⟨t', ht', hout'⟩ := hstops'.exists_after hexecute'
  have hsmall : k' < 2 ^ 64 := by
    change k' ≤ limit.toNat + 1 at hk'
    omega
  constructor
  · rw [hstops'.toNat_executed_eq hexecute' hsmall]
    exact hlonger
  · rw [hout, hout']
    exact State.output_after ht ht' (by omega)

end Limits

/-- Under a higher limit a run that faulted or halted has the same result, and one that was stopped
by the limit faults or executes more instructions and adds to its output. -/
theorem raised_limit_extends_run (limits : Limits) (program : Program) (limit : Count)
    (hle : limits.executionLimit ≤ limit) (hlimit : limit.toNat < 2 ^ 64 - 1) :
    (∀ fault, limits.execute program = .error fault →
      { limits with executionLimit := limit }.execute program = .error fault) ∧
    (∀ c, limits.execute program = .ok c → c.status = .halted →
      { limits with executionLimit := limit }.execute program = .ok c) ∧
    ∀ c, limits.executionLimit < limit → limits.execute program = .ok c →
      c.status = .limitExceeded →
      (∃ fault, { limits with executionLimit := limit }.execute program = .error fault) ∨
      ∃ c', { limits with executionLimit := limit }.execute program = .ok c' ∧
        limits.executionLimit.toNat + 1 < c'.executed.toNat ∧
        c.output.records.toList <+: c'.output.records.toList := by
  refine ⟨?_, ?_, ?_⟩
  · intro fault hexecute
    rw [← hexecute]
    exact Limits.execute_of_raised_limit hle hlimit (by simp [hexecute])
  · intro c hexecute hhalted
    rw [← hexecute]
    exact Limits.execute_of_raised_limit hle hlimit (by simp [hexecute, hhalted])
  · intro c hlt hexecute hstatus
    cases hexecute' : { limits with executionLimit := limit }.execute program with
    | error fault => exact .inl ⟨fault, rfl⟩
    | ok c' =>
        exact .inr ⟨c', rfl, Limits.extends_of_raised_limit hlt hlimit hexecute hstatus hexecute'⟩

/-- A loop that prints, stopped after two cycles and after seven, and a fault in the cycle after
a limit of one. -/
theorem raised_limit_prints_more :
    let limits : Limits := { stackCapacity := 1, executionLimit := 1 }
    let faulty : Program := ⟨#[.push 7, .add], .empty⟩
    let loop : Program := ⟨#[.push 7, .print, .jump "top"], Labels.empty.insert "top" 0⟩
    let once : Completion := { output := .ofValues [7], status := .limitExceeded, executed := 2 }
    let twice : Completion :=
      { output := .ofValues [7, 7], status := .limitExceeded, executed := 7 }
    (limits.execute faulty = .error .stackUnderflow ∧
      { limits with executionLimit := 6 }.execute faulty = .error .stackUnderflow) ∧
    limits.execute loop = .ok once ∧ { limits with executionLimit := 6 }.execute loop = .ok twice ∧
      limits.executionLimit.toNat + 1 < twice.executed.toNat ∧
      once.output.records.toList <+: twice.output.records.toList := by
  intro limits faulty loop once twice
  have hfault : limits.execute faulty = .error .stackUnderflow := by decide
  have hloop : limits.execute loop = .ok once := by decide
  have hraised : { limits with executionLimit := 6 }.execute loop = .ok twice := by decide
  have hsame := (raised_limit_extends_run limits faulty 6 (by decide) (by decide)).1 _ hfault
  have hmore := (raised_limit_extends_run limits loop 6 (by decide) (by decide)).2.2 _
    (by decide) hloop rfl
  refine ⟨⟨hfault, hsame⟩, hloop, hraised, ?_⟩
  rw [hraised] at hmore
  rcases hmore with ⟨fault, hfault⟩ | ⟨c', hc', hextends⟩
  · cases hfault
  · cases hc'
    exact hextends

end StackMachine
