import StackMachine.Proofs.Stopping

/-!
# How deep a run can get

An instruction raises the depth by one at most, so a run is never deeper than the number of its
cycles, and only a run that has had as many cycles as there are slots can overflow.  A capacity
above the limit therefore rules overflow out.  A program that only pushes gets as deep as it can,
and shows that no other capacity does.
-/

namespace StackMachine

/-! ## The depth after a number of cycles -/

theorem Instr.netEffect_le_one (i : Instr) : i.netEffect ≤ 1 := by
  cases i <;> simp [netEffect]

theorem State.depth_after_le {s t : State} {n : Nat} (h : s.after n = .ok t) :
    t.stack.depth ≤ s.stack.depth + n := by
  induction n generalizing t with
  | zero =>
      cases h
      exact Nat.le_refl _
  | succ n ih =>
      obtain ⟨u, i, hu, hcycle⟩ := exists_cycle_of_after_succ h
      have hdepth := Step.depth_of_cycle hcycle
      have hone := i.netEffect_le_one
      have hle := ih hu
      omega

/-! ## Faults of a run -/

theorem Effect.length_live_of_overflow {v : View} {i : Instr}
    (h : Effect v i (.error .stackOverflow)) : v.live.length = v.capacity := by
  cases h with
  | pushFull hfull => exact hfull
  | dupFull _ hfull => exact hfull

theorem Effect.fault_ne_invalidConfig {v : View} {i : Instr} {fault : Fault}
    (h : Effect v i (.error fault)) : fault ≠ .invalidConfig := by
  cases h <;> nofun

theorem Step.depth_of_overflow {s : State} (h : cycle s = .error .stackOverflow) :
    s.stack.depth = s.stack.capacity := by
  rcases cycle_eq_error_iff_effect.1 h with ⟨-, hfault⟩ | ⟨i, -, heffect⟩
  · cases hfault
  · rw [← Stack.length_toList]
    exact heffect.length_live_of_overflow

theorem Step.fault_ne_invalidConfig {s : State} {fault : Fault} (h : cycle s = .error fault) :
    fault ≠ .invalidConfig := by
  rcases cycle_eq_error_iff_effect.1 h with ⟨-, rfl⟩ | ⟨i, -, heffect⟩
  · nofun
  · exact heffect.fault_ne_invalidConfig

namespace Limits

variable {limits : Limits} {program : Program} {fault : Fault} {k : Nat} {t : State}

/-- A run that fails does so in one of the cycles it may have. -/
theorem exists_cycle_eq_error (hvalid : limits.validate = .ok ())
    (hexecute : limits.execute program = .error fault) :
    ∃ k ≤ limits.executionLimit.toNat, ∃ t, (limits.start program).after k = .ok t ∧
      Step.cycle t = .error fault := by
  rcases (course_execute hvalid program).closes_or_spent with
    ⟨k, t, hk, -, ht, -, hcloses⟩ | ⟨-, t, -, hspent⟩
  · rw [hexecute] at hcloses
    cases hcloses with
    | fault hcycle => exact ⟨k, Nat.le_of_lt_succ hk, t, ht, hcycle⟩
  · rw [hexecute] at hspent
    cases hspent

/-- A fault in a cycle that the run gets to is its result. -/
theorem execute_eq_error_of_going (hvalid : limits.validate = .ok ())
    (hgoing : limits.Going (limits.start program) k) (hk : k ≤ limits.executionLimit.toNat)
    (ht : (limits.start program).after k = .ok t) (hcycle : Step.cycle t = .error fault) :
    limits.execute program = .error fault := by
  -- The run ends no later than at the fault, and no earlier since it was going up to there.
  have hending : limits.Ending (limits.start program) (k + 1) (.error fault) := .fault ht hcycle
  rcases stops_or_spent hvalid program with ⟨k', -, hstops⟩ | ⟨-, u, hu, -⟩
  · have hle := hstops.first _ _ hending
    have hlt := hgoing.lt_of_ending hk hstops.ending
    obtain rfl : k' = k + 1 := by omega
    rw [hstops.ending.eq_map_after, hending.eq_map_after]
  · obtain ⟨u', hu'⟩ := State.exists_after_of_le hu (Nat.succ_le_succ hk)
    cases (State.after_succ_of_fault ht hcycle).symm.trans hu'

theorem depth_after_start_le_cycles (h : (limits.start program).after k = .ok t) :
    t.stack.depth ≤ k := by
  have hle := State.depth_after_le h
  rwa [show (limits.start program).stack.depth = 0 from rfl, Nat.zero_add] at hle

/-- A run overflows only if its limit allows a cycle for each slot and one more. -/
theorem capacity_le_limit_of_overflow (hexecute : limits.execute program = .error .stackOverflow) :
    limits.stackCapacity ≤ limits.executionLimit := by
  have hvalid := valid_of_execute_ne (by rw [hexecute]; nofun)
  obtain ⟨k, hk, t, ht, hcycle⟩ := exists_cycle_eq_error hvalid hexecute
  have hfull := Step.depth_of_overflow hcycle
  have hcapacity := capacity_after_start ht
  have hdepth := depth_after_start_le_cycles ht
  rw [UInt64.le_iff_toNat_le]
  omega

theorem execute_ne_invalidConfig (hvalid : limits.validate = .ok ()) (program : Program) :
    limits.execute program ≠ .error .invalidConfig := by
  intro hexecute
  obtain ⟨k, -, t, -, hcycle⟩ := exists_cycle_eq_error hvalid hexecute
  exact Step.fault_ne_invalidConfig hcycle rfl

end Limits

theorem execute_of_run_eq_error {program : Program} {fault : Fault}
    (h : run program = .error fault) : Limits.execute {} program = .error fault := by
  unfold run Limits.run at h
  cases hexecute : Limits.execute {} program with
  | error fault' =>
      rw [hexecute] at h
      exact congrArg Except.error (Except.error.inj h)
  | ok c => rw [hexecute] at h; cases h

/-! ## Programs that push -/

namespace Limits

variable {limits : Limits} {program : Program} {vs : List Word} {v : Word} {s : State}

/-- What there is to see of a run that has pushed some words and done nothing else. -/
def pushed (limits : Limits) (program : Program) (vs : List Word) : View :=
  { live := vs
    capacity := limits.stackCapacity.toNat
    pointer := .ofNat vs.length
    program
    halted := false
    executed := .ofNat vs.length
    output := .empty }

theorem fetch?_of_pushed (hview : s.view = limits.pushed program vs)
    (hle : vs.length ≤ limits.stackCapacity.toNat) :
    s.program.fetch? s.pointer = program.code[vs.length]? := by
  have hprogram : s.program = program := congrArg View.program hview
  have hpointer : s.pointer = .ofNat vs.length := congrArg View.pointer hview
  have hsmall : vs.length < 2 ^ 64 := Nat.lt_of_le_of_lt hle limits.stackCapacity.toNat_lt
  rw [hprogram, hpointer, Program.fetch?, UInt64.toNat_ofNat_of_lt' hsmall]

theorem counted_of_pushed (hview : s.view = limits.pushed program vs) :
    s.counted.view =
      { limits.pushed program vs with executed := .ofNat (vs.length + 1) } := by
  have hcounted := congrArg (fun v : View => { v with executed := v.executed + 1 }) hview
  rw [UInt64.ofNat_add]
  exact hcounted

theorem exists_cycle_of_pushed (hview : s.view = limits.pushed program vs)
    (hinstr : program.code[vs.length]? = some (.push v))
    (hroom : vs.length < limits.stackCapacity.toNat) :
    ∃ t, Step.cycle s = .ok (.push v, t) ∧ t.view = limits.pushed program (vs ++ [v]) := by
  have hfetch := (fetch?_of_pushed hview (Nat.le_of_lt hroom)).trans hinstr
  have heffect : Effect s.counted.view (.push v) (.ok (limits.pushed program (vs ++ [v]))) := by
    have hnext : limits.pushed program (vs ++ [v]) = View.next
        { limits.pushed program vs with executed := .ofNat (vs.length + 1) } (vs ++ [v]) := by
      simp [pushed, View.next, UInt64.ofNat_add]
    rw [counted_of_pushed hview, hnext]
    exact .push hroom
  exact Step.exists_cycle_of_effect_ok hfetch heffect

theorem cycle_of_pushed_full (hview : s.view = limits.pushed program vs)
    (hinstr : program.code[vs.length]? = some (.push v))
    (hfull : vs.length = limits.stackCapacity.toNat) :
    Step.cycle s = .error .stackOverflow := by
  have hfetch := (fetch?_of_pushed hview (Nat.le_of_eq hfull)).trans hinstr
  have heffect : Effect s.counted.view (.push v) (.error .stackOverflow) := by
    rw [counted_of_pushed hview]
    exact .pushFull hfull
  exact Step.cycle_eq_error_iff_effect.2 (.inr ⟨_, hfetch, heffect⟩)

theorem code_of_pushes (hpushes : vs.map .push <+: program.code.toList) {k : Nat}
    (hk : k < vs.length) : program.code[(vs.take k).length]? = some (.push vs[k]) := by
  obtain ⟨rest, hcode⟩ := hpushes
  rw [List.length_take_of_le (Nat.le_of_lt hk), ← Array.getElem?_toList, ← hcode,
    List.getElem?_append_left (by simpa using hk)]
  simp [hk]

/-- As long as there are slots for them, the words that a program begins with are pushed. -/
theorem exists_after_pushes (hpushes : vs.map .push <+: program.code.toList) {k : Nat}
    (hk : k ≤ vs.length) (hroom : k ≤ limits.stackCapacity.toNat) :
    ∃ t, (limits.start program).after k = .ok t ∧ t.view = limits.pushed program (vs.take k) := by
  induction k with
  | zero =>
      refine ⟨limits.start program, rfl, ?_⟩
      simp [pushed, State.view, start, State.initial, State.start]
  | succ k ih =>
      obtain ⟨t, ht, hview⟩ := ih (by omega) (by omega)
      have hlength : (vs.take k).length = k := List.length_take_of_le (by omega)
      obtain ⟨u, hcycle, hu⟩ :=
        exists_cycle_of_pushed hview (code_of_pushes hpushes hk) (by omega)
      refine ⟨u, State.after_succ_of_cycle ht hcycle, ?_⟩
      rw [hu, List.take_succ_eq_append_getElem hk]

theorem going_of_pushes (hpushes : vs.map .push <+: program.code.toList) {k : Nat}
    (hk : k ≤ vs.length) (hroom : k ≤ limits.stackCapacity.toNat)
    (hlimit : k ≤ limits.executionLimit.toNat) : limits.Going (limits.start program) k := by
  intro j hj
  obtain ⟨t, ht, hview⟩ := exists_after_pushes hpushes (Nat.le_trans hj hk) (Nat.le_trans hj hroom)
  refine ⟨t, ht, fun _ => State.status_eq_running_iff.2 ⟨congrArg View.halted hview, ?_⟩⟩
  have hsmall : j < 2 ^ 64 := by
    have hbound := limits.executionLimit.toNat_lt
    omega
  rw [toNat_executed_after_start ht hsmall]
  omega

/-- A program that begins with more pushes than there are slots overflows, if the limit lets it. -/
theorem overflow_of_pushes (hpushes : vs.map .push <+: program.code.toList)
    (hvalid : limits.validate = .ok ()) (hmany : limits.stackCapacity.toNat < vs.length)
    (hle : limits.stackCapacity ≤ limits.executionLimit) :
    limits.execute program = .error .stackOverflow := by
  have hlimit := UInt64.le_iff_toNat_le.1 hle
  have hgoing := going_of_pushes hpushes (Nat.le_of_lt hmany) (Nat.le_refl _) hlimit
  obtain ⟨t, ht, hview⟩ := exists_after_pushes hpushes (Nat.le_of_lt hmany) (Nat.le_refl _)
  have hlength : (vs.take limits.stackCapacity.toNat).length = limits.stackCapacity.toNat :=
    List.length_take_of_le (Nat.le_of_lt hmany)
  have hcycle := cycle_of_pushed_full hview (code_of_pushes hpushes hmany) hlength
  exact execute_eq_error_of_going hvalid hgoing hlimit ht hcycle

end Limits

/-- A run is never deeper than the number of its cycles, so no program overflows under a limit
below the capacity, such as the one that runs have by default.  Under every other limit some
program does. -/
theorem capacity_above_limit_rules_out_overflow (limits : Limits)
    (hcapacity : limits.stackCapacity.toNat ≤ 2 ^ 20) :
    (∀ program k t, (limits.start program).after k = .ok t → t.stack.depth ≤ k) ∧
    (limits.executionLimit < limits.stackCapacity →
      ∀ program, limits.execute program ≠ .error .stackOverflow) ∧
    (limits.stackCapacity ≤ limits.executionLimit →
      ∃ program, limits.execute program = .error .stackOverflow) ∧
    ∀ program, run program ≠ .error .stackOverflow ∧ run program ≠ .error .invalidConfig := by
  refine ⟨fun _ _ _ => Limits.depth_after_start_le_cycles, ?_, ?_, ?_⟩
  · intro hlimit program hoverflow
    exact UInt64.not_lt.2 (Limits.capacity_le_limit_of_overflow hoverflow) hlimit
  · intro hle
    let vs := List.replicate (limits.stackCapacity.toNat + 1) (0 : Word)
    let program : Program := ⟨(vs.map .push).toArray, .empty⟩
    have hpushes : vs.map .push <+: program.code.toList := List.prefix_rfl
    have hmany : limits.stackCapacity.toNat < vs.length := by simp [vs]
    have hvalid := limits.validate_eq_ok_iff.2 hcapacity
    exact ⟨program, Limits.overflow_of_pushes hpushes hvalid hmany hle⟩
  · intro program
    constructor
    · intro hoverflow
      exact absurd (Limits.capacity_le_limit_of_overflow (execute_of_run_eq_error hoverflow))
        (by decide)
    · intro hinvalid
      exact Limits.execute_ne_invalidConfig (by decide) program (execute_of_run_eq_error hinvalid)

/-- Three pushes on two slots, under limits of one and of two. -/
theorem two_slots_overflow_from_limit_two :
    let limits : Limits := { stackCapacity := 2, executionLimit := 1 }
    let raised : Limits := { stackCapacity := 2, executionLimit := 2 }
    let program : Program := ⟨#[.push 7, .push 7, .push 7], .empty⟩
    limits.stackCapacity.toNat ≤ 2 ^ 20 ∧ limits.executionLimit < limits.stackCapacity ∧
      (∀ p, limits.execute p ≠ .error .stackOverflow) ∧
      (∃ p, raised.execute p = .error .stackOverflow) ∧
      raised.execute program = .error .stackOverflow := by
  intro limits raised program
  have hbelow := (capacity_above_limit_rules_out_overflow limits (by decide)).2.1 (by decide)
  have habove := (capacity_above_limit_rules_out_overflow raised (by decide)).2.2.1 (by decide)
  exact ⟨by decide, by decide, hbelow, habove, by decide⟩

end StackMachine
