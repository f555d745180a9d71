import StackMachine.Journal
import StackMachine.Proofs.ListMachine

/-!
# Cycles and the course of a run

What one cycle does, the state after any number of cycles, and the course of a run as a relation
between a state, the events and the result.  Facts about whole runs are inductions over the course,
with the cases of a run: a fault, a stop, one more cycle, and cycles spent.
-/

namespace StackMachine

/-- The state with one more instruction counted, in which the fetched instruction is executed. -/
def State.counted (s : State) : State := { s with executed := s.executed + 1 }

namespace Step

variable {s t : State} {i : Instr}

theorem cycle_of_fetch?_eq_none (h : s.program.fetch? s.pointer = none) :
    cycle s = .error .illegalInstructionAccess := by
  apply bind_of_error
  unfold fetch
  rw [h]

theorem cycle_of_fetch?_eq_some (h : s.program.fetch? s.pointer = some i) :
    cycle s = (dispatch i s.counted).map fun r => (i, r.2) := by
  have hfetch : fetch s = .ok (i, s.counted) := by
    unfold fetch
    rw [h]
    rfl
  rw [cycle, bind_of_ok hfetch]
  change (dispatch i s.counted >>= fun r => .ok (i, r.2)) = _
  cases dispatch i s.counted <;> rfl

theorem cycle_eq_ok_iff :
    cycle s = .ok (i, t) ↔
      s.program.fetch? s.pointer = some i ∧ dispatch i s.counted = .ok ((), t) := by
  cases hfetch : s.program.fetch? s.pointer with
  | none => simp [cycle_of_fetch?_eq_none hfetch]
  | some j =>
      rw [cycle_of_fetch?_eq_some hfetch]
      constructor
      · intro h
        cases hdispatch : dispatch j s.counted with
        | error fault => rw [hdispatch] at h; cases h
        | ok r =>
            rw [hdispatch] at h
            cases h
            exact ⟨rfl, hdispatch⟩
      · rintro ⟨hij, hdispatch⟩
        cases hij
        rw [hdispatch]
        rfl

theorem cycle_eq_error_iff {fault : Fault} :
    cycle s = .error fault ↔
      (s.program.fetch? s.pointer = none ∧ fault = .illegalInstructionAccess) ∨
      ∃ i, s.program.fetch? s.pointer = some i ∧ dispatch i s.counted = .error fault := by
  cases hfetch : s.program.fetch? s.pointer with
  | none => simp [cycle_of_fetch?_eq_none hfetch, eq_comm]
  | some j =>
      rw [cycle_of_fetch?_eq_some hfetch]
      cases hdispatch : dispatch j s.counted <;> simp [Except.map, hdispatch]

theorem effect_of_cycle_ok (h : cycle s = .ok (i, t)) : Effect s.counted.view i (.ok t.view) :=
  effect_of_dispatch_ok (cycle_eq_ok_iff.1 h).2

theorem exists_cycle_of_effect_ok {v : View} (hfetch : s.program.fetch? s.pointer = some i)
    (h : Effect s.counted.view i (.ok v)) : ∃ t, cycle s = .ok (i, t) ∧ t.view = v := by
  obtain ⟨t, hdispatch, hview⟩ := dispatch_of_effect_ok h
  exact ⟨t, cycle_eq_ok_iff.2 ⟨hfetch, hdispatch⟩, hview⟩

theorem cycle_eq_error_iff_effect {fault : Fault} :
    cycle s = .error fault ↔
      (s.program.fetch? s.pointer = none ∧ fault = .illegalInstructionAccess) ∨
      ∃ i, s.program.fetch? s.pointer = some i ∧ Effect s.counted.view i (.error fault) := by
  have heffect : ∀ i, dispatch i s.counted = .error fault ↔
      Effect s.counted.view i (.error fault) :=
    fun _ => ⟨effect_of_dispatch_error, dispatch_of_effect_error⟩
  simp only [cycle_eq_error_iff, heffect]

theorem program_of_cycle (h : cycle s = .ok (i, t)) : t.program = s.program :=
  (effect_of_cycle_ok h).program_eq

theorem executed_of_cycle (h : cycle s = .ok (i, t)) : t.executed = s.executed + 1 :=
  (effect_of_cycle_ok h).executed_eq

theorem halted_of_cycle (h : cycle s = .ok (i, t)) :
    t.halted = true ↔ s.halted = true ∨ i = .halt :=
  (effect_of_cycle_ok h).halted_iff

theorem eq_halt_iff_of_cycle (h : cycle s = .ok (i, t)) (hunhalted : s.halted = false) :
    i = .halt ↔ t.halted = true := by
  simp [halted_of_cycle h, hunhalted]

theorem successor?_of_cycle (h : cycle s = .ok (i, t)) :
    s.program.labels.successor? i s.pointer = some t.pointer :=
  (effect_of_cycle_ok h).successor?_eq

theorem capacity_of_cycle (h : cycle s = .ok (i, t)) : t.stack.capacity = s.stack.capacity :=
  (effect_of_cycle_ok h).capacity_eq

theorem depth_of_cycle (h : cycle s = .ok (i, t)) :
    (t.stack.depth : Int) = s.stack.depth + i.netEffect := by
  rw [← Stack.length_toList, ← Stack.length_toList]
  exact (effect_of_cycle_ok h).length_live_eq

theorem records_of_cycle (h : cycle s = .ok (i, t)) :
    t.output.size = s.output.size + if i = .print then 1 else 0 :=
  (effect_of_cycle_ok h).records_eq

theorem output_of_cycle (h : cycle s = .ok (i, t)) :
    s.output.records.toList <+: t.output.records.toList :=
  (effect_of_cycle_ok h).records_extend

theorem cycle_of_halt (h : s.program.fetch? s.pointer = some .halt) :
    cycle s = .ok (.halt, { s.counted with halted := true }) :=
  cycle_eq_ok_iff.2 ⟨h, rfl⟩

end Step

/-! ## The state after a number of cycles -/

namespace State

/-- The state after a number of cycles, unless one of them faults. -/
def after (s : State) : Nat → Except Fault State
  | 0 => .ok s
  | n + 1 =>
    match s.after n with
    | .error fault => .error fault
    | .ok t => (Step.cycle t).map (·.2)

variable {s t u : State} {i : Instr}

@[simp] theorem after_zero (s : State) : s.after 0 = .ok s := rfl

theorem after_succ {n : Nat} (h : s.after n = .ok t) :
    s.after (n + 1) = (Step.cycle t).map (·.2) := by
  rw [after, h]

theorem after_succ_of_cycle {n : Nat} (h : s.after n = .ok t) (hcycle : Step.cycle t = .ok (i, u)) :
    s.after (n + 1) = .ok u := by
  rw [after_succ h, hcycle]
  rfl

theorem after_succ_of_fault {n : Nat} {fault : Fault} (h : s.after n = .ok t)
    (hcycle : Step.cycle t = .error fault) : s.after (n + 1) = .error fault := by
  rw [after_succ h, hcycle]
  rfl

theorem exists_cycle_of_after_succ {n : Nat} (h : s.after (n + 1) = .ok u) :
    ∃ t i, s.after n = .ok t ∧ Step.cycle t = .ok (i, u) := by
  cases ht : s.after n with
  | error fault =>
      rw [after, ht] at h
      cases h
  | ok t =>
      rw [after_succ ht] at h
      cases hcycle : Step.cycle t with
      | error fault => rw [hcycle] at h; cases h
      | ok r =>
          rw [hcycle] at h
          cases h
          exact ⟨t, r.1, rfl, hcycle⟩

/-- The first cycle can be taken off instead of the last. -/
theorem after_succ_eq_after (hcycle : Step.cycle s = .ok (i, t)) (n : Nat) :
    s.after (n + 1) = t.after n := by
  induction n with
  | zero => exact after_succ_of_cycle (after_zero s) hcycle
  | succ n ih => rw [after, ih, after]

theorem program_after {n : Nat} (h : s.after n = .ok t) : t.program = s.program := by
  induction n generalizing t with
  | zero => cases h; rfl
  | succ n ih =>
      obtain ⟨u, i, hu, hcycle⟩ := exists_cycle_of_after_succ h
      rw [Step.program_of_cycle hcycle, ih hu]

theorem capacity_after {n : Nat} (h : s.after n = .ok t) :
    t.stack.capacity = s.stack.capacity := by
  induction n generalizing t with
  | zero => cases h; rfl
  | succ n ih =>
      obtain ⟨u, i, hu, hcycle⟩ := exists_cycle_of_after_succ h
      rw [Step.capacity_of_cycle hcycle, ih hu]

theorem exists_after_of_le {m n : Nat} (h : s.after n = .ok t) (hle : m ≤ n) :
    ∃ u, s.after m = .ok u := by
  induction n generalizing t with
  | zero =>
      obtain rfl : m = 0 := by omega
      exact ⟨t, h⟩
  | succ n ih =>
      rcases Nat.lt_or_eq_of_le hle with hlt | rfl
      · obtain ⟨u, i, hu, -⟩ := exists_cycle_of_after_succ h
        exact ih hu (by omega)
      · exact ⟨t, h⟩

/-- Output is only ever added to. -/
theorem output_after {m n : Nat} (hm : s.after m = .ok t) (hn : s.after n = .ok u) (hle : m ≤ n) :
    t.output.records.toList <+: u.output.records.toList := by
  induction hle generalizing u with
  | refl =>
      cases hm.symm.trans hn
      exact List.prefix_rfl
  | step _ ih =>
      obtain ⟨v, i, hv, hcycle⟩ := exists_cycle_of_after_succ hn
      exact (ih hv).trans (Step.output_of_cycle hcycle)

theorem executed_after {n : Nat} (h : s.after n = .ok t) :
    t.executed = s.executed + UInt64.ofNat n := by
  induction n generalizing t with
  | zero => cases h; simp
  | succ n ih =>
      obtain ⟨u, i, hu, hcycle⟩ := exists_cycle_of_after_succ h
      rw [Step.executed_of_cycle hcycle, ih hu, UInt64.ofNat_add, UInt64.add_assoc]
      rfl

end State

/-! ## The course of a run -/

/-- A run from a state with a number of cycles to spend, the events it tells of and its result. -/
inductive Course (limits : Limits) : Nat → State → List Event → Except Fault Completion → Prop
  | spent {s : State} : Course limits 0 s [] (.ok (s.completion .running))
  | fault {n : Nat} {s : State} {fault : Fault} (hcycle : Step.cycle s = .error fault) :
      Course limits (n + 1) s [.failed fault s.pointer] (.error fault)
  | stop {n : Nat} {s t : State} {i : Instr} {status : Status}
      (hcycle : Step.cycle s = .ok (i, t)) (hstatus : t.status limits = status)
      (hstop : status ≠ .running) :
      Course limits (n + 1) s
        [.dispatched s.pointer i t.stack.depth, .finished status t.executed t.output.size]
        (.ok (t.completion status))
  | next {n : Nat} {s t : State} {i : Instr} {events : List Event}
      {result : Except Fault Completion} (hcycle : Step.cycle s = .ok (i, t))
      (hstatus : t.status limits = .running) (hrest : Course limits n t events result) :
      Course limits (n + 1) s (.dispatched s.pointer i t.stack.depth :: events) result

namespace Course

variable {limits : Limits} {n : Nat} {s t : State} {i : Instr} {events : List Event}
  {result : Except Fault Completion}

theorem of_fault {fault : Fault} (h : Course limits (n + 1) s events result)
    (hcycle : Step.cycle s = .error fault) :
    events = [.failed fault s.pointer] ∧ result = .error fault := by
  cases h with
  | fault hfault =>
      obtain rfl := Except.error.inj (hfault.symm.trans hcycle)
      exact ⟨rfl, rfl⟩
  | stop hok | next hok => cases hok.symm.trans hcycle

theorem of_ok (h : Course limits (n + 1) s events result) (hcycle : Step.cycle s = .ok (i, t)) :
    (t.status limits ≠ .running ∧
      events = [.dispatched s.pointer i t.stack.depth,
        .finished (t.status limits) t.executed t.output.size] ∧
      result = .ok (t.completion (t.status limits))) ∨
    (t.status limits = .running ∧
      ∃ rest, events = .dispatched s.pointer i t.stack.depth :: rest ∧
        Course limits n t rest result) := by
  cases h with
  | fault hfault => cases hfault.symm.trans hcycle
  | stop hok hstatus hstop =>
      obtain ⟨rfl, rfl⟩ := Prod.mk.inj (Except.ok.inj (hok.symm.trans hcycle))
      subst hstatus
      exact .inl ⟨hstop, rfl, rfl⟩
  | next hok hstatus hrest =>
      obtain ⟨rfl, rfl⟩ := Prod.mk.inj (Except.ok.inj (hok.symm.trans hcycle))
      exact .inr ⟨hstatus, _, rfl, hrest⟩

end Course

/-! ## Two runs in step -/

/-- Two states that a run would end in with the same completion. -/
structure State.Agrees (s t : State) : Prop where
  halted : s.halted = t.halted
  executed : s.executed = t.executed
  output : s.output = t.output

theorem State.Agrees.completion_eq {s t : State} (h : s.Agrees t) (status : Status) :
    s.completion status = t.completion status := by
  unfold State.completion
  rw [h.output, h.executed]

theorem State.Agrees.status_eq {s t : State} {limits limits' : Limits} (h : s.Agrees t)
    (hlimit : limits.executionLimit = limits'.executionLimit) :
    s.status limits = t.status limits' := by
  unfold State.status
  rw [h.halted, h.executed, hlimit]

/-- Related states take their cycles together, as long as the run of the first of them goes on
under the limits and has no fault that excuses the second. -/
structure Lockstep (limits : Limits) (excuse : Fault → Prop) (R : State → State → Prop) :
    Prop where
  fault : ∀ {s t fault}, R s t → Step.cycle s = .error fault →
    excuse fault ∨ Step.cycle t = .error fault
  cycle : ∀ {s t i s'}, R s t → Step.cycle s = .ok (i, s') →
    ∃ j t', Step.cycle t = .ok (j, t') ∧ s'.Agrees t' ∧ (s'.status limits = .running → R s' t')

/-- Runs in step have the same result, unless the first has a fault that excuses the second. -/
theorem Lockstep.result_eq {limits limits' : Limits} {excuse : Fault → Prop}
    {R : State → State → Prop} {n : Nat} {s t : State} {es fs : List Event}
    {r r' : Except Fault Completion} (h : Lockstep limits excuse R) (hs : Course limits n s es r)
    (ht : Course limits' n t fs r') (hlimit : limits.executionLimit = limits'.executionLimit)
    (hrelated : R s t) (hagrees : s.Agrees t) :
    (∃ fault, excuse fault ∧ r = .error fault) ∨ r' = r := by
  induction n generalizing s t es fs with
  | zero =>
      cases hs
      cases ht
      rw [hagrees.completion_eq]
      exact .inr rfl
  | succ n ih =>
      cases hcycle : Step.cycle s with
      | error fault =>
          obtain ⟨-, rfl⟩ := hs.of_fault hcycle
          rcases h.fault hrelated hcycle with hexcuse | hcycle'
          · exact .inl ⟨fault, hexcuse, rfl⟩
          · exact .inr (ht.of_fault hcycle').2
      | ok p =>
          obtain ⟨i, s'⟩ := p
          obtain ⟨j, t', hcycle', hagrees', hrelated'⟩ := h.cycle hrelated hcycle
          have hstatus := hagrees'.status_eq hlimit
          rcases hs.of_ok hcycle with ⟨hstop, -, rfl⟩ | ⟨hgo, es', -, hs'⟩ <;>
            rcases ht.of_ok hcycle' with ⟨hstop', -, rfl⟩ | ⟨hgo', fs', -, ht'⟩
          · rw [hstatus, hagrees'.completion_eq]
            exact .inr rfl
          · exact absurd (hstatus.trans hgo') hstop
          · exact absurd (hstatus.symm.trans hgo) hstop'
          · exact ih hs' ht' (hrelated' hgo) hagrees'

/-! ## The cycles that events tell of -/

/-- The cycle that an event tells of. -/
def Event.visit? : Event → Option (Address × Option Nat)
  | dispatched pointer _ depth => some (pointer, some depth)
  | failed _ pointer => some (pointer, none)
  | _ => none

/-- Where each cycle that the events tell of began, and the depth it left unless it failed. -/
def Event.visits (events : List Event) : List (Address × Option Nat) := events.filterMap visit?

@[simp] theorem Event.visits_dispatched (pointer : Address) (i : Instr) (depth : Nat)
    (events : List Event) :
    visits (.dispatched pointer i depth :: events) = (pointer, some depth) :: visits events := rfl

@[simp] theorem Event.visits_failed (fault : Fault) (pointer : Address) :
    visits [.failed fault pointer] = [(pointer, none)] := rfl

@[simp] theorem Event.visits_finished (status : Status) (executed : Count) (records : Nat) :
    visits [.finished status executed records] = [] := rfl

theorem Course.exists_visits_eq_cons {limits : Limits} {n : Nat} {s : State} {events : List Event}
    {result : Except Fault Completion} (h : Course limits (n + 1) s events result) :
    ∃ depth rest, Event.visits events = (s.pointer, depth) :: rest := by
  cases h <;> exact ⟨_, _, rfl⟩

namespace Limits

variable (limits : Limits)

/-- The state in which a run begins. -/
def start (program : Program) : State := .initial program limits.stackCapacity.toNat

theorem course (n : Nat) (s : State) :
    Course limits n s (limits.journalFrom n s) (limits.runFrom n s) := by
  induction n generalizing s with
  | zero => exact .spent
  | succ n ih =>
      rw [journalFrom, runFrom]
      cases hcycle : Step.cycle s with
      | error fault => exact .fault hcycle
      | ok r =>
          obtain ⟨i, t⟩ := r
          dsimp only
          cases hstatus : t.status limits with
          | running => exact .next hcycle hstatus (ih t)
          | halted | limitExceeded | errored =>
              exact .stop hcycle hstatus nofun

/-- A state, the limits and a number of cycles leave a run one result. -/
theorem runFrom_eq_of_course {limits : Limits} {n : Nat} {s : State} {events : List Event}
    {result : Except Fault Completion} (h : Course limits n s events result) :
    limits.runFrom n s = result := by
  induction h with
  | spent => rfl
  | fault hcycle => rw [runFrom, hcycle]
  | @stop n s t i status hcycle hstatus hstop =>
      rw [runFrom, hcycle]
      dsimp only
      rw [hstatus]
      cases status with
      | running => exact absurd rfl hstop
      | halted | limitExceeded | errored => rfl
  | next hcycle hstatus _ ih =>
      rw [runFrom, hcycle]
      dsimp only
      rw [hstatus]
      exact ih

theorem execute_of_valid {limits : Limits} (hvalid : limits.validate = .ok ())
    (program : Program) :
    limits.execute program = limits.runFrom limits.cycles (limits.start program) := by
  rw [execute, hvalid]
  rfl

theorem course_execute {limits : Limits} (hvalid : limits.validate = .ok ()) (program : Program) :
    Course limits limits.cycles (limits.start program)
      (limits.journal program) (limits.execute program) := by
  rw [execute_of_valid hvalid, journal, hvalid]
  exact limits.course limits.cycles (limits.start program)

/-- The cycles of a run from the start. -/
def visits (program : Program) : List (Address × Option Nat) :=
  Event.visits (limits.journal program)

theorem eq_invalidConfig {limits : Limits} {fault : Fault}
    (hvalid : limits.validate = .error fault) : fault = .invalidConfig := by
  unfold validate at hvalid
  split at hvalid
  · exact (Except.error.inj hvalid).symm
  · cases hvalid

theorem execute_of_invalid {limits : Limits} {fault : Fault}
    (hvalid : limits.validate = .error fault) (program : Program) :
    limits.execute program = .error fault := by
  rw [execute, hvalid]
  rfl

theorem valid_of_execute {limits : Limits} {program : Program} {c : Completion}
    (hexecute : limits.execute program = .ok c) : limits.validate = .ok () := by
  cases hvalid : limits.validate with
  | ok => rfl
  | error fault => cases (execute_of_invalid hvalid program).symm.trans hexecute

theorem valid_of_execute_ne {limits : Limits} {program : Program}
    (hexecute : limits.execute program ≠ .error .invalidConfig) : limits.validate = .ok () := by
  cases hvalid : limits.validate with
  | ok => rfl
  | error fault =>
      obtain rfl := eq_invalidConfig hvalid
      exact absurd (execute_of_invalid hvalid program) hexecute

theorem visits_of_invalid {limits : Limits} {fault : Fault}
    (hvalid : limits.validate = .error fault) (program : Program) : limits.visits program = [] := by
  rw [visits, journal, hvalid]
  rfl

theorem validate_eq_ok_iff : limits.validate = .ok () ↔ limits.stackCapacity.toNat ≤ 2 ^ 20 := by
  have hmax : (maxStackCapacity : UInt64).toNat = 2 ^ 20 := rfl
  rw [← hmax, ← UInt64.le_iff_toNat_le, ← UInt64.not_lt]
  unfold validate
  split <;> simp_all

end Limits

end StackMachine
