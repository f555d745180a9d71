import StackMachine.Proofs.DepthBound

/-!
# Programs without jumps

Without jumps the `k`-th cycle of a run executes the `k`-th instruction, until the first halt.  The
pointer, the fetch, the counter and the flag then tell nothing that the position in the program
does not tell, and a run is a fold over a prefix of its instructions.  It ends with the fault of
the fold, or else in one of three ways, by which of the first halt, the end of the program and the
limit comes first.
-/

namespace StackMachine

/-- The state after executing instructions one after the other, whatever the pointer says. -/
def State.dispatchAll (s : State) (is : List Instr) : Except Fault State :=
  is.foldlM (fun t i => (Step.dispatch i t).map (·.2)) s

namespace Program

/-- There are this many instructions in front, all of which fall through to the next. -/
def FallsThrough (program : Program) (n : Nat) : Prop :=
  ∀ k < n, ∃ i, program.code[k]? = some i ∧ i.transfersControl = false

/-- The index of the first halt, or the number of instructions if there is none. -/
def firstHalt (program : Program) : Nat := program.code.toList.idxOf .halt

end Program

/-- The run ends without a fault, with this status, count and output. -/
def Limits.Completes (limits : Limits) (program : Program) (status : Status) (count : Nat)
    (output : Output) : Prop :=
  ∃ c, limits.execute program = .ok c ∧
    c.status = status ∧ c.executed.toNat = count ∧ c.output = output

/-! ## Executing without counting -/

namespace State

variable {s t : State} {i : Instr} {is : List Instr}

theorem dispatchAll_append_of_ok (h : s.dispatchAll is = .ok t) (js : List Instr) :
    s.dispatchAll (is ++ js) = t.dispatchAll js := by
  unfold dispatchAll at h ⊢
  rw [List.foldlM_append, h]
  rfl

theorem dispatchAll_append_of_error {fault : Fault} (h : s.dispatchAll is = .error fault)
    (js : List Instr) : s.dispatchAll (is ++ js) = .error fault := by
  unfold dispatchAll at h ⊢
  rw [List.foldlM_append, h]
  rfl

theorem dispatchAll_singleton (s : State) (i : Instr) :
    s.dispatchAll [i] = (Step.dispatch i s).map (·.2) := by
  change (Step.dispatch i s).map (·.2) >>= pure = _
  rw [bind_pure]

theorem dispatchAll_cons_of_ok (h : Step.dispatch i s = .ok ((), t)) (is : List Instr) :
    s.dispatchAll (i :: is) = t.dispatchAll is := by
  have hfirst : s.dispatchAll [i] = .ok t := by
    rw [dispatchAll_singleton, h]
    rfl
  exact dispatchAll_append_of_ok hfirst is

end State

def View.recount (v : View) (executed : Count) : View := { v with executed }

/-- No instruction looks at the counter. -/
theorem Effect.recount {v : View} {i : Instr} {r : Except Fault View} (h : Effect v i r)
    (executed : Count) : Effect (v.recount executed) i (r.map (·.recount executed)) :=
  h.adapt id id (fun _ => executed) (Nat.le_refl _) (fun _ => rfl) (fun _ _ => rfl)

theorem Step.seen_dispatch_recount {s t : State} {executed : Count}
    (hview : t.view = s.view.recount executed) (i : Instr) :
    seen (dispatch i t) = (seen (dispatch i s)).map (·.recount executed) := by
  apply seen_dispatch_of_effect
  rw [hview]
  exact (effect_dispatch i s).recount executed

theorem exists_of_map_view {r : Except Fault State} {v : View} (h : r.map State.view = .ok v) :
    ∃ t, r = .ok t ∧ t.view = v := by
  cases r with
  | error fault => cases h
  | ok t => exact ⟨t, rfl, Except.ok.inj h⟩

theorem eq_error_of_map_view {r : Except Fault State} {fault : Fault}
    (h : r.map State.view = .error fault) : r = .error fault := by
  cases r with
  | error fault' => exact congrArg Except.error (Except.error.inj h)
  | ok t => cases h

/-! ## A run is a fold -/

/-- The fault of a number of cycles is the fault of one of them. -/
theorem State.exists_cycle_eq_error {s : State} {n : Nat} {fault : Fault}
    (h : s.after n = .error fault) :
    ∃ k < n, ∃ t, s.after k = .ok t ∧ Step.cycle t = .error fault := by
  induction n with
  | zero => cases h
  | succ n ih =>
      cases hafter : s.after n with
      | error fault' =>
          rw [after, hafter] at h
          cases h
          obtain ⟨k, hk, hcycle⟩ := ih hafter
          exact ⟨k, by omega, hcycle⟩
      | ok t =>
          rw [after_succ hafter] at h
          cases hcycle : Step.cycle t with
          | error fault' =>
              rw [hcycle] at h
              cases h
              exact ⟨n, Nat.lt_succ_self n, t, hafter, hcycle⟩
          | ok r => rw [hcycle] at h; cases h

theorem Program.FallsThrough.mono {program : Program} {m n : Nat} (hle : m ≤ n)
    (h : program.FallsThrough n) : program.FallsThrough m :=
  fun k hk => h k (by omega)

namespace Limits

variable {limits : Limits} {program : Program} {n : Nat} {s t : State} {fault : Fault}

/-- Where a run is after cycles that fell through. -/
theorem pointer_after_start (hfalls : program.FallsThrough n) (hn : n < 2 ^ 64)
    (h : (limits.start program).after n = .ok t) : t.pointer.toNat = n ∧ t.halted = false := by
  induction n generalizing t with
  | zero =>
      cases h
      exact ⟨rfl, rfl⟩
  | succ n ih =>
      obtain ⟨u, i, hu, hcycle⟩ := State.exists_cycle_of_after_succ h
      obtain ⟨hpointer, hhalted⟩ := ih (hfalls.mono (Nat.le_succ n)) (by omega) hu
      obtain ⟨j, hcode, hj⟩ := hfalls n (Nat.lt_succ_self n)
      have hfetch := (Step.cycle_eq_ok_iff.1 hcycle).1
      rw [program_after_start hu, Program.fetch?, hpointer, hcode] at hfetch
      obtain rfl := Option.some.inj hfetch
      constructor
      · have hnext := Step.successor?_of_cycle hcycle
        rw [Labels.successor?_of_falls_through _ _ hj, Option.some.injEq] at hnext
        rw [← hnext, UInt64.toNat_add, hpointer]
        exact Nat.mod_eq_of_lt hn
      · rw [Bool.eq_false_iff, ne_eq, Step.halted_of_cycle hcycle, hhalted]
        rintro (hfalse | rfl)
        · cases hfalse
        · cases hj

theorem fetch?_after_start (hfalls : program.FallsThrough n) (hn : n < 2 ^ 64)
    (h : (limits.start program).after n = .ok t) :
    t.program.fetch? t.pointer = program.code[n]? := by
  rw [program_after_start h, Program.fetch?, (pointer_after_start hfalls hn h).1]

/-- One more cycle does what one more instruction of the fold does. -/
theorem view_after_succ {i : Instr} {u : State} (hafter : s.after n = .ok u)
    (hfetch : u.program.fetch? u.pointer = some i)
    (hview : u.counted.view = t.view.recount (.ofNat (n + 1))) :
    (s.after (n + 1)).map State.view =
      ((Step.dispatch i t).map (·.2)).map fun w => w.view.recount (.ofNat (n + 1)) := by
  have hseen := Step.seen_dispatch_recount hview i
  rw [State.after_succ hafter, Step.cycle_of_fetch?_eq_some hfetch]
  cases hrun : Step.dispatch i u.counted <;> cases hfold : Step.dispatch i t <;>
    rw [hrun, hfold] at hseen <;> exact hseen

/-- The cycles of a run do what the fold does, and count. -/
theorem view_after_start (limits : Limits) (hfalls : program.FallsThrough n) (hn : n < 2 ^ 64) :
    ((limits.start program).after n).map State.view =
      ((limits.start program).dispatchAll (program.code.toList.take n)).map
        fun t => t.view.recount (.ofNat n) := by
  induction n with
  | zero => rfl
  | succ n ih =>
      have hfalls' := hfalls.mono (Nat.le_succ n)
      have hih := ih hfalls' (by omega)
      obtain ⟨i, hcode, -⟩ := hfalls n (Nat.lt_succ_self n)
      rw [List.take_add_one, Array.getElem?_toList, hcode, Option.toList_some]
      cases hfold : (limits.start program).dispatchAll (program.code.toList.take n) with
      | error fault =>
          rw [hfold] at hih
          rw [State.dispatchAll_append_of_error hfold, State.after, eq_error_of_map_view hih]
          rfl
      | ok t =>
          rw [hfold] at hih
          obtain ⟨u, hafter, hview⟩ := exists_of_map_view hih
          have hcounted : u.counted.view = t.view.recount (.ofNat (n + 1)) := by
            have hcount := congrArg (fun v : View => v.recount (v.executed + 1)) hview
            rw [UInt64.ofNat_add]
            exact hcount
          have hfetch := (fetch?_after_start hfalls' (by omega) hafter).trans hcode
          rw [State.dispatchAll_append_of_ok hfold, State.dispatchAll_singleton]
          exact view_after_succ hafter hfetch hcounted

theorem after_start_eq_error (hfalls : program.FallsThrough n) (hn : n < 2 ^ 64)
    (hfold : (limits.start program).dispatchAll (program.code.toList.take n) = .error fault) :
    (limits.start program).after n = .error fault := by
  have hview := view_after_start limits hfalls hn
  rw [hfold] at hview
  exact eq_error_of_map_view hview

theorem exists_after_start_eq_ok (hfalls : program.FallsThrough n) (hn : n < 2 ^ 64)
    (hfold : (limits.start program).dispatchAll (program.code.toList.take n) = .ok t) :
    ∃ u, (limits.start program).after n = .ok u ∧ u.output = t.output := by
  have hview := view_after_start limits hfalls hn
  rw [hfold] at hview
  obtain ⟨u, hafter, hu⟩ := exists_of_map_view hview
  exact ⟨u, hafter, congrArg View.output hu⟩

/-! ## How the run ends -/

/-- A run goes on through instructions that fall through, as far as the limit lets it. -/
theorem going_of_fallsThrough (hfalls : program.FallsThrough n)
    (hn : n ≤ limits.executionLimit.toNat) (h : (limits.start program).after n = .ok t) :
    limits.Going (limits.start program) n := by
  intro k hk
  have hsmall : k < 2 ^ 64 := by
    have hbound := limits.executionLimit.toNat_lt
    omega
  obtain ⟨u, hu⟩ := State.exists_after_of_le h hk
  refine ⟨u, hu, fun _ => State.status_eq_running_iff.2 ⟨?_, ?_⟩⟩
  · exact (pointer_after_start (hfalls.mono hk) hsmall hu).2
  · rw [toNat_executed_after_start hu hsmall]
    omega

theorem execute_of_fold_error (hvalid : limits.validate = .ok ()) (hfalls : program.FallsThrough n)
    (hlimit : limits.executionLimit.toNat < 2 ^ 64 - 1)
    (hn : n ≤ limits.executionLimit.toNat + 1)
    (hfold : (limits.start program).dispatchAll (program.code.toList.take n) = .error fault) :
    limits.execute program = .error fault := by
  have hafter := after_start_eq_error hfalls (by omega) hfold
  obtain ⟨k, hk, t, ht, hcycle⟩ := State.exists_cycle_eq_error hafter
  have hgoing := going_of_fallsThrough (hfalls.mono (Nat.le_of_lt hk)) (by omega) ht
  exact execute_eq_error_of_going hvalid hgoing (by omega) ht hcycle

/-- A completion in the cycle after which a run does not go on is its result. -/
theorem completes_of_going {status : Status} {output : Output} (hvalid : limits.validate = .ok ())
    (hlimit : limits.executionLimit.toNat < 2 ^ 64 - 1)
    (hgoing : limits.Going (limits.start program) n) (hn : n ≤ limits.executionLimit.toNat)
    (hending : limits.Ending (limits.start program) (n + 1)
      (.ok { output, status, executed := .ofNat (n + 1) })) :
    limits.Completes program status (n + 1) output := by
  obtain ⟨k, -, hstops⟩ := exists_stops hvalid hlimit program
  have hle := hstops.first _ _ hending
  have hlt := hgoing.lt_of_ending hn hstops.ending
  obtain rfl : k = n + 1 := by omega
  have hexecute := hstops.ending.eq_map_after.trans hending.eq_map_after.symm
  have hsmall : n + 1 < 2 ^ 64 := by omega
  exact ⟨_, hexecute, rfl, UInt64.toNat_ofNat_of_lt' hsmall, rfl⟩

theorem completes_of_limit (hvalid : limits.validate = .ok ())
    (hlimit : limits.executionLimit.toNat < 2 ^ 64 - 1)
    (hfalls : program.FallsThrough (limits.executionLimit.toNat + 1))
    (hfold : (limits.start program).dispatchAll
      (program.code.toList.take (limits.executionLimit.toNat + 1)) = .ok t) :
    limits.Completes program .limitExceeded (limits.executionLimit.toNat + 1) t.output := by
  obtain ⟨u, hu, houtput⟩ := exists_after_start_eq_ok hfalls (by omega) hfold
  obtain ⟨-, hhalted⟩ := pointer_after_start hfalls (by omega) hu
  obtain ⟨v, hv⟩ := State.exists_after_of_le hu (Nat.le_succ _)
  have hgoing := going_of_fallsThrough (hfalls.mono (Nat.le_succ _)) (Nat.le_refl _) hv
  rw [← houtput]
  exact completes_of_going hvalid hlimit hgoing (Nat.le_refl _) (.limit hu hhalted)

theorem completes_of_halt (hvalid : limits.validate = .ok ())
    (hlimit : limits.executionLimit.toNat < 2 ^ 64 - 1) (hfalls : program.FallsThrough n)
    (hn : n ≤ limits.executionLimit.toNat) (hhalt : program.code[n]? = some .halt)
    (hfold : (limits.start program).dispatchAll (program.code.toList.take n) = .ok t) :
    limits.Completes program .halted (n + 1) t.output := by
  obtain ⟨u, hu, houtput⟩ := exists_after_start_eq_ok hfalls (by omega) hfold
  have hfetch := (fetch?_after_start hfalls (by omega) hu).trans hhalt
  have hafter := State.after_succ_of_cycle hu (Step.cycle_of_halt hfetch)
  have hgoing := going_of_fallsThrough hfalls hn hu
  have hcompletes := completes_of_going hvalid hlimit hgoing hn (.halt hafter rfl)
  rw [← houtput]
  exact hcompletes

theorem execute_of_end (hvalid : limits.validate = .ok ()) (hfalls : program.FallsThrough n)
    (hn : n ≤ limits.executionLimit.toNat) (hend : n = program.size)
    (hfold : (limits.start program).dispatchAll (program.code.toList.take n) = .ok t) :
    limits.execute program = .error .illegalInstructionAccess := by
  have hsmall : n < 2 ^ 64 := Nat.lt_of_le_of_lt hn limits.executionLimit.toNat_lt
  obtain ⟨u, hu, -⟩ := exists_after_start_eq_ok hfalls hsmall hfold
  have hfetch : u.program.fetch? u.pointer = none := by
    rw [fetch?_after_start hfalls hsmall hu]
    exact Array.getElem?_eq_none (Nat.le_of_eq hend.symm)
  have hgoing := going_of_fallsThrough hfalls hn hu
  exact execute_eq_error_of_going hvalid hgoing hn hu (Step.cycle_of_fetch?_eq_none hfetch)

end Limits

namespace Program

variable {program : Program}

theorem firstHalt_le_size (program : Program) : program.firstHalt ≤ program.size :=
  List.idxOf_le_length

theorem getElem?_firstHalt (h : program.firstHalt < program.size) :
    program.code[program.firstHalt]? = some .halt := by
  rw [← Array.getElem?_toList, List.getElem?_eq_getElem h]
  exact congrArg some (List.getElem_idxOf h)

/-- Without jumps, all that stands before the first halt falls through. -/
theorem fallsThrough_firstHalt (hjumps : ∀ label, Instr.jump label ∉ program.code) :
    program.FallsThrough program.firstHalt := by
  intro k hk
  have hlt : k < program.code.size := Nat.lt_of_lt_of_le hk program.firstHalt_le_size
  refine ⟨program.code[k], Array.getElem?_eq_getElem hlt, ?_⟩
  have hmem : program.code[k] ∈ program.code := Array.getElem_mem hlt
  have hhalt : program.code[k] ≠ .halt := by
    simpa using List.not_of_lt_findIdx hk
  cases hi : program.code[k] with
  | halt => exact absurd hi hhalt
  | jump label => exact absurd (hi ▸ hmem) (hjumps label)
  | _ => rfl

end Program

/-- A run of a program without jumps is the fold of its instructions up to the first halt or the
limit.  A fault of the fold is the result; otherwise the run is stopped by the limit, halts or runs
off the end, whichever comes first, with the output of the fold. -/
theorem jump_free_run_is_fold (limits : Limits) (program : Program)
    (hcapacity : limits.stackCapacity.toNat ≤ 2 ^ 20)
    (hlimit : limits.executionLimit.toNat < 2 ^ 64 - 1)
    (hjumps : ∀ label, Instr.jump label ∉ program.code) :
    let limit := limits.executionLimit.toNat
    let fold (n : Nat) := (limits.start program).dispatchAll (program.code.toList.take n)
    let m := program.firstHalt
    (∀ fault, fold (min m (limit + 1)) = .error fault → limits.execute program = .error fault) ∧
    (∀ t, fold (min m (limit + 1)) = .ok t →
      (limit + 1 ≤ m → limits.Completes program .limitExceeded (limit + 1) t.output) ∧
      (m ≤ limit → m < program.size → limits.Completes program .halted (m + 1) t.output) ∧
      (m = program.size → m ≤ limit →
        limits.execute program = .error .illegalInstructionAccess)) ∧
    (∀ t, Instr.halt ∉ program.code → fold program.size = .ok t →
      (program.size = limit + 1 →
        limits.Completes program .limitExceeded (limit + 1) t.output) ∧
      (program.size = limit → limits.execute program = .error .illegalInstructionAccess)) := by
  intro limit fold m
  have hvalid := limits.validate_eq_ok_iff.2 hcapacity
  have hfalls : program.FallsThrough m := Program.fallsThrough_firstHalt hjumps
  refine ⟨?_, ?_, ?_⟩
  · intro fault hfold
    exact Limits.execute_of_fold_error hvalid (hfalls.mono (Nat.min_le_left _ _)) hlimit
      (Nat.min_le_right _ _) hfold
  · intro t hfold
    refine ⟨?_, ?_, ?_⟩
    · intro hm
      rw [Nat.min_eq_right hm] at hfold
      exact Limits.completes_of_limit hvalid hlimit (hfalls.mono hm) hfold
    · intro hm hsize
      rw [Nat.min_eq_left (by omega)] at hfold
      have hhalt := Program.getElem?_firstHalt hsize
      exact Limits.completes_of_halt hvalid hlimit hfalls hm hhalt hfold
    · intro hsize hm
      rw [Nat.min_eq_left (by omega)] at hfold
      exact Limits.execute_of_end hvalid hfalls hm hsize hfold
  · intro t hhalt hfold
    have hm : m = program.size := List.idxOf_eq_length_iff.2 (by simpa using hhalt)
    rw [← hm] at hfold ⊢
    constructor
    · intro hsize
      rw [hsize] at hfold hfalls
      exact Limits.completes_of_limit hvalid hlimit hfalls hfold
    · intro hsize
      exact Limits.execute_of_end hvalid hfalls (Nat.le_of_eq hsize) hm hfold

/-- Two instructions without a halt, under limits of one and of two. -/
theorem two_instructions_and_the_limit :
    let program : Program := ⟨#[.push 7, .print], .empty⟩
    let limits : Limits := { stackCapacity := 1, executionLimit := 1 }
    let raised : Limits := { stackCapacity := 1, executionLimit := 2 }
    limits.stackCapacity.toNat ≤ 2 ^ 20 ∧ raised.executionLimit.toNat < 2 ^ 64 - 1 ∧
      (∀ label, Instr.jump label ∉ program.code) ∧
      limits.Completes program .limitExceeded 2 (.ofValues [7]) ∧
      raised.execute program = .error .illegalInstructionAccess := by
  intro program limits raised
  have hjumps : ∀ label, Instr.jump label ∉ program.code := by simp [program]
  have hhalt : Instr.halt ∉ program.code := by simp [program]
  obtain ⟨t, hfold, houtput⟩ : ∃ t,
      (limits.start program).dispatchAll (program.code.toList.take 2) = .ok t ∧
        t.output = .ofValues [7] := ⟨_, rfl, rfl⟩
  have hstopped := (jump_free_run_is_fold limits program (by decide) (by decide) hjumps).2.2
  have hran := (jump_free_run_is_fold raised program (by decide) (by decide) hjumps).2.2
  refine ⟨by decide, by decide, hjumps, ?_, (hran t hhalt hfold).2 rfl⟩
  rw [← houtput]
  exact (hstopped t hhalt hfold).1 rfl

end StackMachine
