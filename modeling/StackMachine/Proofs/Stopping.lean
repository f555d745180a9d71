import StackMachine.Proofs.Cycles

/-!
# When a run stops

A run ends in the first cycle that faults, halts or is one more than the limit, and it ends there
with exactly that outcome.  Under any limit but the largest there is such a cycle, so every run
ends, and the counter is then the number of its cycles.  Its visits are these cycles, each with the
pointer of the state before it and the depth of the state after it.
-/

namespace StackMachine

namespace State

variable {s : State} {limits : Limits}

theorem status_eq_halted_iff : s.status limits = .halted ↔ s.halted = true := by
  unfold status
  split
  · simp_all
  · split <;> simp_all

theorem status_eq_limitExceeded_iff :
    s.status limits = .limitExceeded ↔
      s.halted = false ∧ limits.executionLimit.toNat < s.executed.toNat := by
  rw [← UInt64.lt_iff_toNat_lt]
  unfold status
  split
  · simp_all
  · split <;> simp_all

theorem status_eq_running_iff :
    s.status limits = .running ↔
      s.halted = false ∧ s.executed.toNat ≤ limits.executionLimit.toNat := by
  rw [← UInt64.le_iff_toNat_le, ← UInt64.not_lt]
  unfold status
  split
  · simp_all
  · split <;> simp_all

theorem status_ne_errored : s.status limits ≠ .errored := by
  unfold status
  split
  · nofun
  · split <;> nofun

end State

theorem Step.ne_halt_of_running {s t : State} {i : Instr} {limits : Limits}
    (hcycle : cycle s = .ok (i, t)) (hstatus : t.status limits = .running) : i ≠ .halt := by
  intro hi
  have hhalted := (halted_of_cycle hcycle).2 (.inr hi)
  simp [(State.status_eq_running_iff.1 hstatus).1] at hhalted

namespace Limits

/-- The run from a state is still going after `n` cycles. -/
def Going (limits : Limits) (s : State) (n : Nat) : Prop :=
  ∀ j ≤ n, ∃ t, s.after j = .ok t ∧ (0 < j → t.status limits = .running)

/-- The cycle that begins in a state ends the run. -/
inductive Closes (limits : Limits) (s : State) : Except Fault Completion → Prop
  | fault {fault : Fault} (hcycle : Step.cycle s = .error fault) : Closes limits s (.error fault)
  | stop {i : Instr} {t : State} {status : Status} (hcycle : Step.cycle s = .ok (i, t))
      (hstatus : t.status limits = status) (hstop : status ≠ .running) :
      Closes limits s (.ok (t.completion status))

/-- How the `k`-th cycle from a state ends a run.  A fault comes before a halt and a halt before
the limit, also in the one cycle that is allowed beyond it. -/
inductive Ending (limits : Limits) (s : State) : Nat → Except Fault Completion → Prop
  | fault {k : Nat} {t : State} {fault : Fault} (hafter : s.after k = .ok t)
      (hcycle : Step.cycle t = .error fault) : Ending limits s (k + 1) (.error fault)
  | halt {k : Nat} {t : State} (hafter : s.after (k + 1) = .ok t) (hhalted : t.halted = true) :
      Ending limits s (k + 1)
        (.ok { output := t.output, status := .halted, executed := .ofNat (k + 1) })
  | limit {t : State} (hafter : s.after (limits.executionLimit.toNat + 1) = .ok t)
      (hhalted : t.halted = false) :
      Ending limits s (limits.executionLimit.toNat + 1)
        (.ok { output := t.output, status := .limitExceeded,
               executed := .ofNat (limits.executionLimit.toNat + 1) })

variable {limits : Limits} {s t : State} {program : Program}

theorem going_zero (limits : Limits) (s : State) : limits.Going s 0 := by
  intro j hj
  obtain rfl : j = 0 := by omega
  exact ⟨s, rfl, fun h => absurd h (Nat.lt_irrefl 0)⟩

theorem Going.of_cycle {i : Instr} {n : Nat} (hcycle : Step.cycle s = .ok (i, t))
    (hstatus : t.status limits = .running) (hgoing : limits.Going t n) :
    limits.Going s (n + 1) := by
  intro j hj
  cases j with
  | zero => exact going_zero limits s 0 (Nat.le_refl 0)
  | succ j =>
      obtain ⟨u, hu, hrunning⟩ := hgoing j (by omega)
      refine ⟨u, (State.after_succ_eq_after hcycle j).trans hu, fun _ => ?_⟩
      cases j with
      | zero =>
          cases hu
          exact hstatus
      | succ j => exact hrunning (Nat.succ_pos j)

theorem Going.after_cycle {i : Instr} {n : Nat} (hgoing : limits.Going s (n + 1))
    (hcycle : Step.cycle s = .ok (i, t)) : limits.Going t n := by
  intro j hj
  obtain ⟨u, hu, hrunning⟩ := hgoing (j + 1) (by omega)
  rw [State.after_succ_eq_after hcycle] at hu
  exact ⟨u, hu, fun _ => hrunning (Nat.succ_pos j)⟩

/-- A run that goes on has made its first cycle and was not stopped after it. -/
theorem Going.exists_cycle {n : Nat} (hgoing : limits.Going s (n + 1)) :
    ∃ i t, Step.cycle s = .ok (i, t) ∧ t.status limits = .running := by
  obtain ⟨t, ht, hrunning⟩ := hgoing 1 (by omega)
  obtain ⟨u, i, hu, hcycle⟩ := State.exists_cycle_of_after_succ ht
  cases hu
  exact ⟨i, t, hcycle, hrunning Nat.one_pos⟩

theorem Going.mono {m n : Nat} (hle : m ≤ n) (hgoing : limits.Going s n) : limits.Going s m :=
  fun j hj => hgoing j (Nat.le_trans hj hle)

end Limits

/-- A run either has a last cycle or spends all the cycles it was given. -/
theorem Course.closes_or_spent {limits : Limits} {n : Nat} {s : State} {events : List Event}
    {result : Except Fault Completion} (h : Course limits n s events result) :
    (∃ k t, k < n ∧ limits.Going s k ∧ s.after k = .ok t ∧
      (Event.visits events).length = k + 1 ∧ limits.Closes t result) ∨
    (limits.Going s n ∧ ∃ t, s.after n = .ok t ∧ result = .ok (t.completion .running)) := by
  induction h with
  | spent => exact .inr ⟨Limits.going_zero limits _, _, rfl, rfl⟩
  | fault hcycle =>
      exact .inl ⟨0, _, Nat.succ_pos _, Limits.going_zero limits _, rfl, rfl, .fault hcycle⟩
  | stop hcycle hstatus hstop =>
      exact .inl ⟨0, _, Nat.succ_pos _, Limits.going_zero limits _, rfl, rfl,
        .stop hcycle hstatus hstop⟩
  | next hcycle hstatus hrest ih =>
      rcases ih with ⟨k, t, hk, hgoing, ht, hvisits, hcloses⟩ | ⟨hgoing, t, ht, hresult⟩
      · refine .inl ⟨k + 1, t, Nat.succ_lt_succ hk, hgoing.of_cycle hcycle hstatus, ?_, ?_, hcloses⟩
        · rw [State.after_succ_eq_after hcycle, ht]
        · simp [hvisits]
      · refine .inr ⟨hgoing.of_cycle hcycle hstatus, t, ?_, hresult⟩
        rw [State.after_succ_eq_after hcycle, ht]

/-! ## The cycles of a run are visited in their order -/

/-- Where the cycle after `k` others begins and the depth it leaves, unless it fails. -/
def State.visit? (s : State) (k : Nat) : Option (Address × Option Nat) :=
  (s.after k).toOption.map fun t =>
    (t.pointer, (s.after (k + 1)).toOption.map fun u => u.stack.depth)

theorem State.visit?_zero_of_fault {s : State} {fault : Fault}
    (hcycle : Step.cycle s = .error fault) : s.visit? 0 = some (s.pointer, none) := by
  rw [visit?, after_succ_of_fault (after_zero s) hcycle]
  rfl

theorem State.visit?_zero_of_cycle {s t : State} {i : Instr} (hcycle : Step.cycle s = .ok (i, t)) :
    s.visit? 0 = some (s.pointer, some t.stack.depth) := by
  rw [visit?, after_succ_of_cycle (after_zero s) hcycle]
  rfl

theorem State.visit?_succ {s t : State} {i : Instr} (hcycle : Step.cycle s = .ok (i, t)) (k : Nat) :
    s.visit? (k + 1) = t.visit? k := by
  rw [visit?, after_succ_eq_after hcycle, after_succ_eq_after hcycle, visit?]

/-- A run has a visit for each cycle before which it is still going, and for no other. -/
theorem Course.getElem?_visits_eq_some_iff {limits : Limits} {n : Nat} {s : State}
    {events : List Event} {result : Except Fault Completion}
    (h : Course limits n s events result) (k : Nat) (visit : Address × Option Nat) :
    (Event.visits events)[k]? = some visit ↔
      k < n ∧ limits.Going s k ∧ s.visit? k = some visit := by
  induction h generalizing k with
  | spent => simp [Event.visits]
  | @fault n s fault hcycle =>
      cases k with
      | zero => simp [State.visit?_zero_of_fault hcycle, Limits.going_zero]
      | succ k =>
          have hend : ¬limits.Going s (k + 1) := by
            intro hgoing
            obtain ⟨i, t, hok, -⟩ := hgoing.exists_cycle
            cases hok.symm.trans hcycle
          simp [hend]
  | @stop n s t i status hcycle hstatus hstop =>
      cases k with
      | zero => simp [State.visit?_zero_of_cycle hcycle, Limits.going_zero]
      | succ k =>
          have hend : ¬limits.Going s (k + 1) := by
            intro hgoing
            obtain ⟨j, u, hok, hrunning⟩ := hgoing.exists_cycle
            cases hok.symm.trans hcycle
            exact hstop (hstatus.symm.trans hrunning)
          simp [hend]
  | @next n s t i events result hcycle hstatus _ ih =>
      cases k with
      | zero => simp [State.visit?_zero_of_cycle hcycle, Limits.going_zero]
      | succ k =>
          have hgoing : limits.Going s (k + 1) ↔ limits.Going t k :=
            ⟨fun h => h.after_cycle hcycle, fun h => h.of_cycle hcycle hstatus⟩
          rw [Event.visits_dispatched, List.getElem?_cons_succ, ih, State.visit?_succ hcycle,
            hgoing, Nat.succ_lt_succ_iff]

namespace Limits

variable {limits : Limits} {program : Program} {k : Nat}

/-- The visits of a run are its cycles: there is one for each cycle that the run comes to, in their
order, with the pointer before the cycle and the depth after it. -/
def VisitsEachCycle (limits : Limits) (program : Program) : Prop :=
  ∀ (k : Nat) visit, (limits.visits program)[k]? = some visit ↔
    limits.validate = .ok () ∧ k ≤ limits.executionLimit.toNat ∧
      limits.Going (limits.start program) k ∧ (limits.start program).visit? k = some visit

theorem visitsEachCycle (limits : Limits) (program : Program) :
    limits.VisitsEachCycle program := by
  intro k visit
  cases hvalid : limits.validate with
  | error fault => simp [visits_of_invalid hvalid]
  | ok =>
      rw [visits, (course_execute hvalid program).getElem?_visits_eq_some_iff, cycles,
        Nat.lt_succ_iff]
      simp

/-! ## The cycle in which a run ends -/

/-- A run from the start that is in its `k`-th cycle when it ends. -/
structure Stops (limits : Limits) (program : Program) (k : Nat) : Prop where
  ending : limits.Ending (limits.start program) k (limits.execute program)
  first : ∀ j r, limits.Ending (limits.start program) j r → k ≤ j
  visited : (limits.visits program).length = k
  unhalted : ∀ j < k, ∃ t, (limits.start program).after j = .ok t ∧ t.halted = false
  halted_iff : (∃ c, limits.execute program = .ok c ∧ c.status = .halted) ↔
    ∃ t, (limits.start program).after (k - 1) = .ok t ∧ program.fetch? t.pointer = some .halt
  earlier : ∀ j < k - 1, ∀ t, (limits.start program).after j = .ok t →
    program.fetch? t.pointer ≠ some .halt

theorem executed_after_start {n : Nat} {t : State} (h : (limits.start program).after n = .ok t) :
    t.executed = UInt64.ofNat n := by
  rw [State.executed_after h]
  exact UInt64.zero_add _

theorem toNat_executed_after_start {n : Nat} {t : State}
    (h : (limits.start program).after n = .ok t) (hn : n < 2 ^ 64) : t.executed.toNat = n := by
  rw [executed_after_start h]
  exact UInt64.toNat_ofNat_of_lt' hn

theorem program_after_start {n : Nat} {t : State} (h : (limits.start program).after n = .ok t) :
    t.program = program :=
  State.program_after h

theorem capacity_after_start {n : Nat} {t : State} (h : (limits.start program).after n = .ok t) :
    t.stack.capacity = limits.stackCapacity.toNat :=
  (State.capacity_after h).trans (Stack.capacity_empty _)

theorem Going.unhalted {n j : Nat} (hgoing : limits.Going (limits.start program) n) (hj : j ≤ n) :
    ∃ t, (limits.start program).after j = .ok t ∧ t.halted = false := by
  obtain ⟨t, ht, hrunning⟩ := hgoing j hj
  refine ⟨t, ht, ?_⟩
  cases j with
  | zero =>
      cases ht
      rfl
  | succ j => exact (State.status_eq_running_iff.1 (hrunning (Nat.succ_pos j))).1

/-- No cycle up to `n` ends a run that is still going after it. -/
theorem Going.lt_of_ending {n j : Nat} {r : Except Fault Completion}
    (hgoing : limits.Going (limits.start program) n) (hn : n ≤ limits.executionLimit.toNat)
    (h : limits.Ending (limits.start program) j r) : n < j := by
  apply Nat.lt_of_not_le
  intro hj
  obtain ⟨t, ht, hunhalted⟩ := hgoing.unhalted hj
  cases h with
  | fault hafter hcycle =>
      rw [State.after_succ_of_fault hafter hcycle] at ht
      cases ht
  | halt hafter hhalted =>
      rw [hafter] at ht
      cases ht
      simp [hhalted] at hunhalted
  | limit => omega

theorem Closes.ending {t : State} {r : Except Fault Completion} (hcloses : limits.Closes t r)
    (hk : k ≤ limits.executionLimit.toNat) (ht : (limits.start program).after k = .ok t) :
    limits.Ending (limits.start program) (k + 1) r := by
  cases hcloses with
  | fault hcycle => exact .fault ht hcycle
  | @stop i u status hcycle hstatus hstop =>
      have hu := State.after_succ_of_cycle ht hcycle
      have hexecuted := executed_after_start hu
      unfold State.completion
      rw [hexecuted]
      cases status with
      | running => exact absurd rfl hstop
      | errored => exact absurd hstatus State.status_ne_errored
      | halted => exact .halt hu (State.status_eq_halted_iff.1 hstatus)
      | limitExceeded =>
          obtain ⟨hunhalted, hlimit⟩ := State.status_eq_limitExceeded_iff.1 hstatus
          -- The counter may have wrapped, but then it is only smaller than the number of cycles.
          obtain rfl : k = limits.executionLimit.toNat := by
            rw [hexecuted, UInt64.toNat_ofNat'] at hlimit
            have hmod := Nat.mod_le (k + 1) (2 ^ 64)
            omega
          exact .limit hu hunhalted

theorem fetch?_ne_halt {n : Nat} {t : State}
    (hnext : ∃ u, (limits.start program).after (n + 1) = .ok u ∧ u.halted = false)
    (ht : (limits.start program).after n = .ok t) : program.fetch? t.pointer ≠ some .halt := by
  intro hfetch
  rw [← program_after_start ht] at hfetch
  obtain ⟨u, hu, hunhalted⟩ := hnext
  rw [State.after_succ_of_cycle ht (Step.cycle_of_halt hfetch)] at hu
  cases hu
  cases hunhalted

theorem Ending.halted_iff {r : Except Fault Completion}
    (hending : limits.Ending (limits.start program) k r)
    (hunhalted : ∀ j < k, ∃ t, (limits.start program).after j = .ok t ∧ t.halted = false) :
    (∃ c, r = .ok c ∧ c.status = .halted) ↔
      ∃ t, (limits.start program).after (k - 1) = .ok t ∧
        program.fetch? t.pointer = some .halt := by
  constructor
  · rintro ⟨c, rfl, hstatus⟩
    cases hending with
    | @halt k u hu hhalted =>
        obtain ⟨t, i, ht, hcycle⟩ := State.exists_cycle_of_after_succ hu
        obtain ⟨t', ht', hbefore⟩ := hunhalted k (Nat.lt_succ_self k)
        obtain rfl : t = t' := Except.ok.inj (ht.symm.trans ht')
        have hi : i = .halt := (Step.eq_halt_iff_of_cycle hcycle hbefore).2 hhalted
        refine ⟨t, ht, ?_⟩
        rw [← program_after_start ht, (Step.cycle_eq_ok_iff.1 hcycle).1, hi]
    | limit => cases hstatus
  · rintro ⟨t, ht, hfetch⟩
    rw [← program_after_start ht] at hfetch
    have hcycle := Step.cycle_of_halt hfetch
    cases hending with
    | fault hafter hfault =>
        obtain rfl := Except.ok.inj (hafter.symm.trans ht)
        rw [hcycle] at hfault
        cases hfault
    | halt => exact ⟨_, rfl, rfl⟩
    | limit hafter hhalted =>
        rw [State.after_succ_of_cycle (n := limits.executionLimit.toNat) ht hcycle] at hafter
        cases hafter
        cases hhalted

theorem stops_or_spent (hvalid : limits.validate = .ok ()) (program : Program) :
    (∃ k ≤ limits.executionLimit.toNat + 1, limits.Stops program k) ∨
    (limits.Going (limits.start program) (limits.executionLimit.toNat + 1) ∧
      ∃ t, (limits.start program).after (limits.executionLimit.toNat + 1) = .ok t ∧
        limits.execute program = .ok (t.completion .running)) := by
  rcases (course_execute hvalid program).closes_or_spent with
    ⟨k, t, hk, hgoing, ht, hvisits, hcloses⟩ | hspent
  · have hle : k ≤ limits.executionLimit.toNat := Nat.le_of_lt_succ hk
    have hending := hcloses.ending hle ht
    have hunhalted : ∀ j < k + 1, ∃ t, (limits.start program).after j = .ok t ∧ t.halted = false :=
      fun j hj => hgoing.unhalted (Nat.le_of_lt_succ hj)
    refine .inl ⟨k + 1, Nat.succ_le_succ hle, ?_⟩
    exact {
      ending := hending
      first := fun j r h => hgoing.lt_of_ending hle h
      visited := hvisits
      unhalted := hunhalted
      halted_iff := hending.halted_iff hunhalted
      earlier := fun j hj t ht =>
        fetch?_ne_halt (hunhalted (j + 1) (Nat.succ_lt_succ hj)) ht }
  · exact .inr hspent

/-- Under any limit but the largest a run stops by the cycle after the limit. -/
theorem exists_stops (hvalid : limits.validate = .ok ())
    (hlimit : limits.executionLimit.toNat < 2 ^ 64 - 1) (program : Program) :
    ∃ k ≤ limits.executionLimit.toNat + 1, limits.Stops program k := by
  rcases stops_or_spent hvalid program with hstops | ⟨hgoing, -⟩
  · exact hstops
  · obtain ⟨t, ht, hrunning⟩ := hgoing _ (Nat.le_refl _)
    have hle := (State.status_eq_running_iff.1 (hrunning (Nat.succ_pos _))).2
    have hexact := toNat_executed_after_start ht (by omega)
    omega

theorem Ending.eq_map_after {s : State} {r : Except Fault Completion} (h : limits.Ending s k r) :
    r = (s.after k).map fun t =>
      { output := t.output, status := if t.halted then .halted else .limitExceeded,
        executed := .ofNat k } := by
  cases h with
  | fault hafter hcycle =>
      rw [State.after_succ_of_fault hafter hcycle]
      rfl
  | halt hafter hhalted =>
      rw [hafter]
      simp [Except.map, hhalted]
  | limit hafter hhalted =>
      rw [hafter]
      simp [Except.map, hhalted]

theorem Stops.executed_eq {c : Completion} (hstops : limits.Stops program k)
    (hexecute : limits.execute program = .ok c) : c.executed = UInt64.ofNat k := by
  have hending := hstops.ending
  rw [hexecute] at hending
  cases hending <;> rfl

theorem Stops.toNat_executed_eq {c : Completion} (hstops : limits.Stops program k)
    (hexecute : limits.execute program = .ok c) (hk : k < 2 ^ 64) : c.executed.toNat = k := by
  rw [hstops.executed_eq hexecute]
  exact UInt64.toNat_ofNat_of_lt' hk

theorem Stops.halted_or_limitExceeded {c : Completion} (hstops : limits.Stops program k)
    (hexecute : limits.execute program = .ok c) :
    c.status = .halted ∨ c.status = .limitExceeded ∧ k = limits.executionLimit.toNat + 1 := by
  have hending := hstops.ending
  rw [hexecute] at hending
  cases hending with
  | halt => exact .inl rfl
  | limit => exact .inr ⟨rfl, rfl⟩

theorem exists_after_of_limitExceeded {c : Completion} {j : Nat}
    (hexecute : limits.execute program = .ok c) (hstatus : c.status = .limitExceeded)
    (hj : j ≤ limits.executionLimit.toNat + 1) :
    ∃ t, (limits.start program).after j = .ok t ∧ t.halted = false := by
  rcases stops_or_spent (valid_of_execute hexecute) program with ⟨k, -, hstops⟩ | ⟨-, t, -, hspent⟩
  · have hending := hstops.ending
    rw [hexecute] at hending
    cases hending with
    | halt => cases hstatus
    | limit hafter hhalted =>
        rcases Nat.lt_or_eq_of_le hj with hlt | rfl
        · exact hstops.unhalted j hlt
        · exact ⟨_, hafter, hhalted⟩
  · rw [hexecute] at hspent
    cases hspent
    cases hstatus

theorem status_ne_limitExceeded {s : State} (hlimit : limits.executionLimit.toNat = 2 ^ 64 - 1) :
    s.status limits ≠ .limitExceeded := by
  intro hstatus
  have hlt := (State.status_eq_limitExceeded_iff.1 hstatus).2
  have hbound := s.executed.toNat_lt
  omega

theorem halted_or_going {c : Completion} (hlimit : limits.executionLimit.toNat = 2 ^ 64 - 1)
    (hexecute : limits.execute program = .ok c) :
    c.status = .halted ∨ (c.status = .running ∧
      ∀ j ≤ 2 ^ 64, ∃ t, (limits.start program).after j = .ok t ∧ t.halted = false) := by
  rcases (course_execute (valid_of_execute hexecute) program).closes_or_spent with
    ⟨k, t, -, -, -, -, hcloses⟩ | ⟨hgoing, t, -, hspent⟩
  · rw [hexecute] at hcloses
    cases hcloses with
    | @stop i u status hcycle hstatus hstop =>
        cases status with
        | halted => exact .inl rfl
        | running => exact absurd rfl hstop
        | limitExceeded => exact absurd hstatus (status_ne_limitExceeded hlimit)
        | errored => exact absurd hstatus State.status_ne_errored
  · rw [hexecute] at hspent
    cases hspent
    have hcycles : limits.cycles = 2 ^ 64 := by
      unfold cycles
      omega
    exact .inr ⟨rfl, fun j hj => hgoing.unhalted (hcycles ▸ hj)⟩

theorem execute_eq_of_first {r : Except Fault Completion} (hvalid : limits.validate = .ok ())
    (hk : k ≤ limits.executionLimit.toNat) (hending : limits.Ending (limits.start program) k r)
    (hfirst : ∀ j r', limits.Ending (limits.start program) j r' → k ≤ j) :
    limits.execute program = r := by
  rcases stops_or_spent hvalid program with ⟨k', -, hstops⟩ | ⟨hgoing, -⟩
  · have hle := hfirst k' _ hstops.ending
    obtain rfl : k = k' := Nat.le_antisymm hle (hstops.first k r hending)
    rw [hending.eq_map_after, hstops.ending.eq_map_after]
  · have hlt := (hgoing.mono (Nat.le_succ _)).lt_of_ending (Nat.le_refl _) hending
    omega

end Limits

/-- Exact stopping.  Under a limit `L` below the largest count a run stops in one of the cycles
`1` to `L + 1`: the first that faults, leaves a halted state or is the last allowed, and the
counter is exact in every state on the way.  Under the largest limit no state is beyond it, so only
a fault or a halt ends a run, and the first of these does; a run that is given up has had neither
in as many cycles as there are counts. -/
theorem execute_stops_exactly (limits : Limits) (program : Program)
    (hcapacity : limits.stackCapacity.toNat ≤ 2 ^ 20) :
    (limits.executionLimit.toNat < 2 ^ 64 - 1 →
      ∃ k ≤ limits.executionLimit.toNat + 1, limits.Stops program k ∧
        ∀ j ≤ limits.executionLimit.toNat + 1, ∀ t,
          (limits.start program).after j = .ok t → t.executed.toNat = j) ∧
    (limits.executionLimit.toNat = 2 ^ 64 - 1 →
      (∀ j t, (limits.start program).after j = .ok t → t.status limits ≠ .limitExceeded) ∧
      (∀ c, limits.execute program = .ok c → c.status = .halted ∨
        (c.status = .running ∧
          ∀ j ≤ 2 ^ 64, ∃ t, (limits.start program).after j = .ok t ∧ t.halted = false)) ∧
      ∀ k < 2 ^ 64, ∀ r, limits.Ending (limits.start program) k r →
        (∀ j r', limits.Ending (limits.start program) j r' → k ≤ j) →
        limits.execute program = r) := by
  have hvalid := limits.validate_eq_ok_iff.2 hcapacity
  constructor
  · intro hlimit
    obtain ⟨k, hk, hstops⟩ := Limits.exists_stops hvalid hlimit program
    refine ⟨k, hk, hstops, ?_⟩
    intro j hj t ht
    exact Limits.toNat_executed_after_start ht (by omega)
  · intro hlimit
    refine ⟨fun _ _ _ => Limits.status_ne_limitExceeded hlimit, ?_, ?_⟩
    · intro c hexecute
      exact Limits.halted_or_going hlimit hexecute
    · intro k hk r hending hfirst
      exact Limits.execute_eq_of_first hvalid (by omega) hending hfirst

/-- A halt in the one cycle beyond a limit of one. -/
theorem execute_stops_beyond_limit :
    let limits : Limits := { stackCapacity := 1, executionLimit := 1 }
    let program : Program := ⟨#[.push 7, .halt], .empty⟩
    limits.stackCapacity.toNat ≤ 2 ^ 20 ∧ limits.executionLimit.toNat < 2 ^ 64 - 1 ∧
      limits.Stops program 2 ∧
      limits.execute program = .ok { output := .empty, status := .halted, executed := 2 } := by
  intro limits program
  obtain ⟨k, -, hstops, -⟩ :=
    (execute_stops_exactly limits program (by decide)).1 (by decide)
  obtain rfl : 2 = k := hstops.visited
  exact ⟨by decide, by decide, hstops, by decide⟩

end StackMachine
