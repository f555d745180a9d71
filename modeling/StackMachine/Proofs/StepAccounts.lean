import StackMachine.Proofs.ListMachine

/-!
# Accounts of attempted steps

The steps of the library can be attempted one after the other in any order, not only in the order
in which a run takes them.  A step that faults leaves the state from before, however much of it was
done by then.  Whatever is attempted, a state can be accounted for by the steps that succeeded: the
program and the capacity are those of the start, the counter is the number of fetches, the flag
tells of a halt, and the output is what was emitted and printed, in that order.
-/

namespace StackMachine

/-- The state that a step leaves. -/
def Step.exec {α : Type} (x : Step α) (s : State) : Except Fault State := (x s).map (·.2)

/-- The steps of the library. -/
inductive Act : Type 1
  | fetch
  | advance
  | jumpTo (target : Address)
  | halt
  | push (v : Word)
  | pop
  | emit (r : Record)
  | resolve (label : String)
  | dispatch (i : Instr)
  | gets {α : Type} (f : State → α)
  | get
  | pure {α : Type} (a : α)

namespace Act

def exec : Act → State → Except Fault State
  | fetch => Step.fetch.exec
  | advance => Step.advance.exec
  | jumpTo target => (Step.jumpTo target).exec
  | halt => Step.halt.exec
  | push v => (Step.push v).exec
  | pop => Step.pop.exec
  | emit r => (Step.emit r).exec
  | resolve label => (Step.resolve label).exec
  | dispatch i => (Step.dispatch i).exec
  | gets f => Step.exec do return f (← MonadState.get)
  | get => Step.exec MonadState.get
  | pure a => Step.exec (Pure.pure a)

/-- The state after an attempt, which is the one from before if the step faults. -/
def attempt (s : State) (a : Act) : State :=
  match a.exec s with
  | .ok t => t
  | .error _ => s

/-- The state after attempts one after the other. -/
def attemptAll (acts : List Act) (s : State) : State := acts.foldl attempt s

/-- The attempts that succeed, each with the state in which it was made. -/
def successes : List Act → State → List (State × Act)
  | [], _ => []
  | a :: acts, s =>
    match a.exec s with
    | .ok t => (s, a) :: successes acts t
    | .error _ => successes acts s

def isFetch : Act → Bool
  | fetch => true
  | _ => false

/-- Whether the step halts the machine. -/
def halts : Act → Bool
  | halt | dispatch .halt => true
  | _ => false

/-- What a successful step adds to the output: a print adds the value on top of the stack. -/
def emitted? : State × Act → Option Record
  | (_, emit r) => some r
  | (s, dispatch .print) => Record.emit <$> s.stack.top?
  | _ => none

end Act

/-! ## One step -/

/-- The second state is the first with all that the given successes have to show for. -/
structure Accounts (s : State) (done : List (State × Act)) (t : State) : Prop where
  program : t.program = s.program
  capacity : t.stack.capacity = s.stack.capacity
  executed : t.executed = s.executed + .ofNat (done.countP (·.2.isFetch))
  halted : t.halted = true ↔ s.halted = true ∨ ∃ p ∈ done, p.2.halts = true
  output : t.output.records.toList = s.output.records.toList ++ done.filterMap Act.emitted?

namespace Accounts

variable {s t u : State} {done more : List (State × Act)} {a : Act}

theorem refl (s : State) : Accounts s [] s where
  program := rfl
  capacity := rfl
  executed := by simp
  halted := by simp
  output := by simp

theorem trans (h : Accounts s done t) (h' : Accounts t more u) :
    Accounts s (done ++ more) u where
  program := h'.program.trans h.program
  capacity := h'.capacity.trans h.capacity
  executed := by
    rw [h'.executed, h.executed, List.countP_append, UInt64.ofNat_add, UInt64.add_assoc]
  halted := by
    rw [h'.halted, h.halted, or_assoc]
    simp only [List.mem_append, or_and_right, exists_or]
  output := by
    rw [h'.output, h.output, List.filterMap_append, List.append_assoc]

/-- The account of one success. -/
theorem single (hprogram : t.program = s.program)
    (hcapacity : t.stack.capacity = s.stack.capacity)
    (hexecuted : t.executed = s.executed + if a.isFetch then 1 else 0)
    (hhalted : t.halted = true ↔ s.halted = true ∨ a.halts = true)
    (houtput : t.output.records.toList =
      s.output.records.toList ++ (Act.emitted? (s, a)).toList) : Accounts s [(s, a)] t where
  program := hprogram
  capacity := hcapacity
  executed := by
    rw [hexecuted]
    cases ha : a.isFetch <;> simp [ha]
  halted := by simpa using hhalted
  output := by
    rw [houtput]
    cases ha : Act.emitted? (s, a) <;> simp [ha]

/-- A step that touches at most the pointer and the live values has nothing to show for. -/
theorem silent (hprogram : t.program = s.program)
    (hcapacity : t.stack.capacity = s.stack.capacity) (hexecuted : t.executed = s.executed)
    (hhalted : t.halted = s.halted) (houtput : t.output = s.output)
    (hfetch : a.isFetch = false) (hhalts : a.halts = false)
    (hemitted : Act.emitted? (s, a) = none) : Accounts s [(s, a)] t := by
  apply single hprogram hcapacity
  · simp [hexecuted, hfetch]
  · simp [hhalted, hhalts]
  · simp [houtput, hemitted]

end Accounts

theorem Step.exec_eq_ok {α : Type} {x : Step α} {s t : State} (h : x.exec s = .ok t) :
    ∃ a, x s = .ok (a, t) := by
  cases hx : x s with
  | error fault => rw [exec, hx] at h; cases h
  | ok p =>
      rw [exec, hx] at h
      cases h
      exact ⟨p.1, rfl⟩

/-- What an instruction adds to the output. -/
theorem Effect.records_eq_append {v w : View} {i : Instr} (h : Effect v i (.ok w)) :
    w.output.records.toList = v.output.records.toList ++
      (if i = .print then Record.emit <$> v.live.getLast? else none).toList := by
  cases h with
  | print hlive => simp [hlive]
  | arithmetic hop => simp [View.next, (Instr.binary_of_arithmetic hop).ne_print]
  | division hop => simp [View.next, (Instr.binary_of_division hop).ne_print]
  | _ => simp [View.next]

theorem Act.emitted?_dispatch (s : State) (i : Instr) :
    emitted? (s, dispatch i) = if i = .print then Record.emit <$> s.stack.top? else none := by
  cases i <;> rfl

theorem Act.halts_dispatch (i : Instr) : (dispatch i).halts = true ↔ i = .halt := by
  cases i <;> simp [halts]

namespace Accounts

variable {s t : State}

theorem of_fetch {i : Instr} (h : Step.fetch s = .ok (i, t)) : Accounts s [(s, .fetch)] t := by
  unfold Step.fetch at h
  split at h
  · cases h
    exact single rfl rfl rfl (by simp [Act.halts]) (by simp [Act.emitted?])
  · cases h

theorem of_push {v : Word} (h : Step.push v s = .ok ((), t)) : Accounts s [(s, .push v)] t := by
  unfold Step.push at h
  cases hstack : s.stack.push v with
  | error fault => rw [hstack] at h; cases h
  | ok stack =>
      rw [hstack] at h
      cases h
      exact silent rfl (Stack.capacity_push hstack) rfl rfl rfl rfl rfl rfl

theorem of_pop {v : Word} (h : Step.pop s = .ok (v, t)) : Accounts s [(s, .pop)] t := by
  unfold Step.pop at h
  cases hstack : s.stack.pop with
  | error fault => rw [hstack] at h; cases h
  | ok p =>
      rw [hstack] at h
      cases h
      exact silent rfl (congrArg Array.size (Stack.slots_pop hstack)) rfl rfl rfl rfl rfl rfl

theorem of_resolve {label : String} {target : Address}
    (h : Step.resolve label s = .ok (target, t)) : Accounts s [(s, .resolve label)] t := by
  unfold Step.resolve at h
  split at h
  · cases h
    exact silent rfl rfl rfl rfl rfl rfl rfl rfl
  · cases h

theorem of_dispatch {i : Instr} (h : Step.dispatch i s = .ok ((), t)) :
    Accounts s [(s, .dispatch i)] t := by
  have heffect := Step.effect_of_dispatch_ok h
  apply single heffect.program_eq heffect.capacity_eq
  · have hexecuted : t.executed = s.executed := heffect.executed_eq
    simp [hexecuted, Act.isFetch]
  · rw [Act.halts_dispatch]
    exact heffect.halted_iff
  · rw [Act.emitted?_dispatch]
    exact heffect.records_eq_append

/-- What one successful step has to show for. -/
theorem of_exec {a : Act} (h : a.exec s = .ok t) : Accounts s [(s, a)] t := by
  cases a with
  | fetch =>
      obtain ⟨i, hstep⟩ := Step.exec_eq_ok h
      exact of_fetch hstep
  | push =>
      obtain ⟨u, hstep⟩ := Step.exec_eq_ok h
      exact of_push hstep
  | pop =>
      obtain ⟨v, hstep⟩ := Step.exec_eq_ok h
      exact of_pop hstep
  | resolve =>
      obtain ⟨target, hstep⟩ := Step.exec_eq_ok h
      exact of_resolve hstep
  | dispatch =>
      obtain ⟨u, hstep⟩ := Step.exec_eq_ok h
      exact of_dispatch hstep
  | halt =>
      cases h
      exact single rfl rfl (by simp [Act.isFetch]) (by simp [Act.halts]) (by simp [Act.emitted?])
  | emit r =>
      cases h
      exact single rfl rfl (by simp [Act.isFetch]) (by simp [Act.halts])
        (by simp [Act.emitted?, Output.append])
  | advance | jumpTo | gets | get | pure =>
      cases h
      exact silent rfl rfl rfl rfl rfl rfl rfl rfl

end Accounts

/-! ## Any number of steps -/

namespace Act

variable {s t : State} {a : Act}

theorem attemptAll_of_ok (acts : List Act) (h : a.exec s = .ok t) :
    attemptAll (a :: acts) s = attemptAll acts t := by
  rw [attemptAll, List.foldl_cons, attempt, h]
  rfl

theorem attemptAll_of_error (acts : List Act) {fault : Fault} (h : a.exec s = .error fault) :
    attemptAll (a :: acts) s = attemptAll acts s := by
  rw [attemptAll, List.foldl_cons, attempt, h]
  rfl

theorem successes_of_ok (acts : List Act) (h : a.exec s = .ok t) :
    successes (a :: acts) s = (s, a) :: successes acts t := by
  rw [successes, h]

theorem successes_of_error (acts : List Act) {fault : Fault} (h : a.exec s = .error fault) :
    successes (a :: acts) s = successes acts s := by
  rw [successes, h]

/-- Every state that attempts lead to is accounted for by the successful ones. -/
theorem accounts_attemptAll (acts : List Act) (s : State) :
    Accounts s (successes acts s) (attemptAll acts s) := by
  induction acts generalizing s with
  | nil => exact .refl s
  | cons a acts ih =>
      cases h : a.exec s with
      | ok t =>
          rw [attemptAll_of_ok acts h, successes_of_ok acts h]
          exact (Accounts.of_exec h).trans (ih t)
      | error fault =>
          rw [attemptAll_of_error acts h, successes_of_error acts h]
          exact ih s

theorem length_successes_le (acts : List Act) (s : State) :
    (successes acts s).length ≤ acts.length := by
  induction acts generalizing s with
  | nil => exact Nat.le_refl _
  | cons a acts ih =>
      cases h : a.exec s with
      | ok t =>
          rw [successes_of_ok acts h]
          exact Nat.succ_le_succ (ih t)
      | error fault =>
          rw [successes_of_error acts h]
          exact Nat.le_succ_of_le (ih s)

/-- A step that halts the machine does not fault. -/
theorem exec_of_halts (h : a.halts = true) (s : State) : ∃ t, a.exec s = .ok t := by
  cases a with
  | halt => exact ⟨_, rfl⟩
  | dispatch i =>
      obtain rfl := (halts_dispatch i).1 h
      exact ⟨_, rfl⟩
  | _ => cases h

theorem exists_halts_successes_iff (acts : List Act) (s : State) :
    (∃ p ∈ successes acts s, p.2.halts = true) ↔ ∃ a ∈ acts, a.halts = true := by
  induction acts generalizing s with
  | nil => simp [successes]
  | cons a acts ih =>
      cases h : a.exec s with
      | ok t => simp [successes_of_ok acts h, ih t]
      | error fault =>
          have hhalts : a.halts = false := by
            by_contra hhalts
            obtain ⟨t, ht⟩ := exec_of_halts (by simpa using hhalts) s
            cases ht.symm.trans h
          simp [successes_of_error acts h, ih s, hhalts]

end Act

/-- Whatever steps are attempted from the start, the state is accounted for by those that
succeeded, and what was done by a step that faulted midway does not show. -/
theorem attempts_accounted_for (program : Program) (capacity : Nat) (acts : List Act)
    (hcount : acts.length < 2 ^ 64) :
    let s := Act.attemptAll acts (.initial program capacity)
    let done := Act.successes acts (.initial program capacity)
    s.stack.depth ≤ capacity ∧ s.stack.capacity = capacity ∧ s.program = program ∧
      s.executed.toNat = done.countP (·.2.isFetch) ∧
      (s.halted = true ↔ ∃ a ∈ acts, a.halts = true) ∧
      s.output.records.toList = done.filterMap Act.emitted? := by
  intro s done
  have haccounts : Accounts (.initial program capacity) done s := Act.accounts_attemptAll acts _
  have hcapacity : s.stack.capacity = capacity :=
    haccounts.capacity.trans (Stack.capacity_empty capacity)
  refine ⟨?_, hcapacity, haccounts.program, ?_, ?_, ?_⟩
  · rw [← hcapacity]
    exact s.stack.depth_le
  · -- With so few attempts the counter cannot wrap around.
    have hfetches : done.countP (·.2.isFetch) ≤ acts.length :=
      Nat.le_trans List.countP_le_length (Act.length_successes_le acts _)
    have hexecuted : s.executed = .ofNat (done.countP (·.2.isFetch)) := by
      rw [haccounts.executed]
      exact UInt64.zero_add _
    rw [hexecuted]
    exact UInt64.toNat_ofNat_of_lt' (Nat.lt_of_le_of_lt hfetches hcount)
  · rw [haccounts.halted, Act.exists_halts_successes_iff]
    simp [State.initial, State.start]
  · rw [haccounts.output]
    rfl

/-- Attempts on a stack of one slot, with a duplication that faults after its first push, an
addition that faults after its first pop and a fetch after the halt. -/
theorem faults_midway_do_not_show :
    let acts : List Act :=
      [.push 4, .dispatch .dup, .fetch, .dispatch .halt, .dispatch .add, .emit (.emit 9),
        .dispatch .print, .dispatch .print, .fetch, .jumpTo 5, .fetch, .gets State.pointer]
    let s := Act.attemptAll acts (.initial ⟨#[.halt, .halt], .empty⟩ 1)
    acts.length < 2 ^ 64 ∧ s.executed.toNat = 2 ∧ s.halted = true ∧
      s.output.records.toList = [.emit 9, .emit 4] := by
  intro acts s
  have hcount : acts.length < 2 ^ 64 := by decide
  obtain ⟨-, -, -, hexecuted, hhalted, houtput⟩ :=
    attempts_accounted_for ⟨#[.halt, .halt], .empty⟩ 1 acts hcount
  refine ⟨hcount, ?_, hhalted.2 ⟨.dispatch .halt, by simp [acts], rfl⟩, ?_⟩
  · exact hexecuted.trans (by decide)
  · exact houtput.trans (by decide)

end StackMachine
