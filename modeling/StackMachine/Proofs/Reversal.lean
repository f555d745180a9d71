import StackMachine.Proofs.StraightLine

/-!
# Reversing a list

A program that pushes the words of a list and then prints as often reverses the list, on a stack
with room for all of them and under a limit that lets it.  Otherwise it overflows, or it is stopped
with as much of the reversed list as it had time to print.
-/

namespace StackMachine

/-- Pushes the words and prints as often. -/
def Instr.pushThenPrint (vs : List Word) : List Instr :=
  vs.map .push ++ List.replicate vs.length .print

def Program.reversing (vs : List Word) (labels : Labels) : Program :=
  ⟨(Instr.pushThenPrint vs ++ [Instr.halt]).toArray, labels⟩

theorem Output.ofValues_values (o : Output) : ofValues o.values = o := by
  have hemit : Record.emit ∘ Record.value = id := by
    funext r
    cases r
    rfl
  simp [ofValues, values, hemit]

/-! ## Filling and draining the stack -/

namespace State

variable {s : State}

theorem exists_dispatch_push {v : Word} (hroom : s.stack.depth < s.stack.capacity) :
    ∃ t, Step.dispatch (.push v) s = .ok ((), t) ∧ t.stack.toList = s.stack.toList ++ [v] ∧
      t.stack.capacity = s.stack.capacity ∧ t.output = s.output := by
  have hlength : s.view.live.length < s.view.capacity := by
    change s.stack.toList.length < s.stack.capacity
    rwa [Stack.length_toList]
  obtain ⟨t, hdispatch, hview⟩ := Step.dispatch_of_effect_ok (Effect.push hlength)
  exact ⟨t, hdispatch, congrArg View.live hview, congrArg View.capacity hview,
    congrArg View.output hview⟩

theorem exists_dispatchAll_pushes (vs : List Word)
    (hroom : s.stack.depth + vs.length ≤ s.stack.capacity) :
    ∃ t, s.dispatchAll (vs.map .push) = .ok t ∧ t.stack.toList = s.stack.toList ++ vs ∧
      t.output = s.output := by
  induction vs generalizing s with
  | nil => exact ⟨s, rfl, (List.append_nil _).symm, rfl⟩
  | cons v vs ih =>
      rw [List.length_cons] at hroom
      obtain ⟨t, hpush, hlive, hcapacity, houtput⟩ :=
        exists_dispatch_push (s := s) (v := v) (by omega)
      have hdepth : t.stack.depth = s.stack.depth + 1 := by
        rw [← Stack.length_toList, hlive, List.length_append, Stack.length_toList]
        rfl
      obtain ⟨u, hpushes, hlive', houtput'⟩ := ih (s := t) (by omega)
      refine ⟨u, ?_, ?_, houtput'.trans houtput⟩
      · rw [List.map_cons, dispatchAll_cons_of_ok hpush, hpushes]
      · rw [hlive', hlive, List.append_assoc, List.singleton_append]

theorem exists_dispatch_print {rest : List Word} {top : Word}
    (hlive : s.stack.toList = rest ++ [top]) :
    ∃ t, Step.dispatch .print s = .ok ((), t) ∧ t.stack.toList = rest ∧
      t.output = s.output.append (.emit top) := by
  obtain ⟨t, hdispatch, hview⟩ := Step.dispatch_of_effect_ok (s := s) (Effect.print hlive)
  refine ⟨t, hdispatch, congrArg View.live hview, ?_⟩
  rw [Output.append, Array.push_eq_append]
  exact congrArg View.output hview

theorem exists_dispatchAll_prints {n : Nat} (hn : n ≤ s.stack.depth) :
    ∃ t, s.dispatchAll (List.replicate n .print) = .ok t ∧
      t.output.values = s.output.values ++ s.stack.toList.reverse.take n := by
  induction n generalizing s with
  | zero => exact ⟨s, rfl, by simp⟩
  | succ n ih =>
      rw [← Stack.length_toList] at hn
      rcases List.eq_nil_or_concat' s.stack.toList with hempty | ⟨rest, top, hlive⟩
      · rw [hempty] at hn
        cases hn
      · obtain ⟨t, hprint, hrest, houtput⟩ := exists_dispatch_print hlive
        have hdepth : n ≤ t.stack.depth := by
          rw [hlive, List.length_append, List.length_singleton] at hn
          rw [← Stack.length_toList, hrest]
          omega
        obtain ⟨u, hprints, hvalues⟩ := ih hdepth
        refine ⟨u, ?_, ?_⟩
        · rw [List.replicate_succ, dispatchAll_cons_of_ok hprint, hprints]
        · simp [hvalues, houtput, hrest, hlive, Record.value]

end State

/-! ## The program and its run -/

namespace Program

variable {vs : List Word} {labels : Labels} {n : Nat}

theorem fallsThrough_of_prefix {program : Program} {front : List Instr}
    (hfront : front <+: program.code.toList)
    (hfalls : ∀ i ∈ front, i.transfersControl = false) : program.FallsThrough front.length := by
  intro k hk
  obtain ⟨rest, hcode⟩ := hfront
  refine ⟨front[k], ?_, hfalls _ (List.getElem_mem hk)⟩
  rw [← Array.getElem?_toList, ← hcode, List.getElem?_append_left hk, List.getElem?_eq_getElem hk]

theorem length_pushThenPrint (vs : List Word) :
    (Instr.pushThenPrint vs).length = 2 * vs.length := by
  simp [Instr.pushThenPrint, Nat.two_mul]

theorem fallsThrough_reversing (vs : List Word) (labels : Labels) :
    (reversing vs labels).FallsThrough (2 * vs.length) := by
  have hfront : Instr.pushThenPrint vs <+: (reversing vs labels).code.toList :=
    List.prefix_append _ _
  rw [← length_pushThenPrint]
  apply fallsThrough_of_prefix hfront
  intro i hi
  rcases List.mem_append.1 hi with hpush | hprint
  · obtain ⟨v, -, rfl⟩ := List.mem_map.1 hpush
    rfl
  · rw [List.eq_of_mem_replicate hprint]
    rfl

theorem getElem?_reversing (vs : List Word) (labels : Labels) :
    (reversing vs labels).code[2 * vs.length]? = some .halt := by
  simp [reversing, ← length_pushThenPrint]

/-- What comes before the halt: some of the pushes, or all of them and some of the prints. -/
theorem take_reversing (hn : n ≤ 2 * vs.length) :
    (reversing vs labels).code.toList.take n =
      (vs.take n).map .push ++ List.replicate (n - vs.length) .print := by
  have hfront : n ≤ (Instr.pushThenPrint vs).length := by rwa [length_pushThenPrint]
  have hprints : n - vs.length ≤ vs.length := by omega
  change (Instr.pushThenPrint vs ++ [Instr.halt]).take n = _
  rw [List.take_append_of_le_length hfront, Instr.pushThenPrint, List.take_append,
    List.length_map, List.map_take, List.take_replicate, Nat.min_eq_left hprints]

end Program

namespace Limits

/-- The part of the program before its halt prints a prefix of the reversed list. -/
theorem exists_fold_reversing (limits : Limits) (vs : List Word) (labels : Labels) {n : Nat}
    (hn : n ≤ 2 * vs.length) (hroom : min n vs.length ≤ limits.stackCapacity.toNat) :
    ∃ t, (limits.start (.reversing vs labels)).dispatchAll
        ((Program.reversing vs labels).code.toList.take n) = .ok t ∧
      t.output = .ofValues (vs.reverse.take (n - vs.length)) := by
  let s := limits.start (.reversing vs labels)
  have hcapacity : s.stack.capacity = limits.stackCapacity.toNat := Stack.capacity_empty _
  have hempty : s.stack.toList = [] := Stack.toList_empty _
  have hdepth : s.stack.depth = 0 := rfl
  obtain ⟨t, hpushes, hlive, houtput⟩ := State.exists_dispatchAll_pushes (s := s) (vs.take n)
    (by rw [hdepth, hcapacity, List.length_take]; omega)
  rw [hempty, List.nil_append] at hlive
  have hprints : n - vs.length ≤ t.stack.depth := by
    rw [← Stack.length_toList, hlive, List.length_take]
    omega
  obtain ⟨u, hprints, hvalues⟩ := State.exists_dispatchAll_prints hprints
  refine ⟨u, ?_, ?_⟩
  · rw [Program.take_reversing hn, State.dispatchAll_append_of_ok hpushes, hprints]
  · have hreversed : (vs.take n).reverse.take (n - vs.length) =
        vs.reverse.take (n - vs.length) := by
      rcases Nat.le_total n vs.length with hle | hge
      · simp [Nat.sub_eq_zero_of_le hle]
      · rw [List.take_of_length_le hge]
    rw [← u.output.ofValues_values, hvalues, houtput, hlive, hreversed]
    rfl

end Limits

/-- Pushing the words of a list and then printing as often prints the list in reverse, unless the
stack is too small for it or the limit too low. -/
theorem pushes_then_prints_reverse (limits : Limits) (vs : List Word) (labels : Labels)
    (hcapacity : limits.stackCapacity.toNat ≤ 2 ^ 20)
    (hlimit : limits.executionLimit.toNat < 2 ^ 64 - 1) :
    let capacity := limits.stackCapacity.toNat
    let limit := limits.executionLimit.toNat
    let n := vs.length
    let program := Program.reversing vs labels
    (capacity < n ∧ capacity ≤ limit → limits.execute program = .error .stackOverflow) ∧
    (¬(capacity < n ∧ capacity ≤ limit) →
      (2 * n ≤ limit →
        limits.Completes program .halted (2 * n + 1) (.ofValues vs.reverse)) ∧
      (limit < 2 * n →
        limits.Completes program .limitExceeded (limit + 1)
          (.ofValues (vs.reverse.take (limit + 1 - n))))) := by
  intro capacity limit n program
  have hvalid := limits.validate_eq_ok_iff.2 hcapacity
  have hfalls : program.FallsThrough (2 * n) := Program.fallsThrough_reversing vs labels
  constructor
  · rintro ⟨hmany, hle⟩
    have hpushes : vs.map Instr.push <+: program.code.toList := by
      have hfront : vs.map Instr.push <+: Instr.pushThenPrint vs := List.prefix_append _ _
      exact hfront.trans (List.prefix_append _ _)
    exact Limits.overflow_of_pushes hpushes hvalid hmany (UInt64.le_iff_toNat_le.2 hle)
  · intro hroom
    constructor
    · intro hlong
      obtain ⟨t, hfold, houtput⟩ :=
        limits.exists_fold_reversing vs labels (Nat.le_refl (2 * n)) (by omega)
      have hall : vs.reverse.take (2 * n - vs.length) = vs.reverse :=
        List.take_of_length_le (by rw [List.length_reverse]; omega)
      have hhalt := Program.getElem?_reversing vs labels
      rw [← hall, ← houtput]
      exact Limits.completes_of_halt hvalid hlimit hfalls hlong hhalt hfold
    · intro hshort
      obtain ⟨t, hfold, houtput⟩ :=
        limits.exists_fold_reversing vs labels (n := limit + 1) hshort (by omega)
      rw [← houtput]
      exact Limits.completes_of_limit hvalid hlimit (hfalls.mono hshort) hfold

/-- Three words on three slots with time for all prints and for two of them, and on two slots
without and with time to overflow. -/
theorem three_words_reversed :
    let vs : List Word := [1, 2, 3]
    let limits (capacity : UInt64) (limit : Count) : Limits :=
      { stackCapacity := capacity, executionLimit := limit }
    (limits 3 6).stackCapacity.toNat ≤ 2 ^ 20 ∧ (limits 3 6).executionLimit.toNat < 2 ^ 64 - 1 ∧
      (limits 3 6).Completes (.reversing vs .empty) .halted 7 (.ofValues [3, 2, 1]) ∧
      (limits 3 4).Completes (.reversing vs .empty) .limitExceeded 5 (.ofValues [3, 2]) ∧
      (limits 2 1).Completes (.reversing vs .empty) .limitExceeded 2 (.ofValues []) ∧
      (limits 2 2).execute (.reversing vs .empty) = .error .stackOverflow := by
  intro vs limits
  have hrun := fun capacity limit => pushes_then_prints_reverse (limits capacity limit) vs .empty
  refine ⟨by decide, by decide, ?_, ?_, ?_, ?_⟩
  · exact ((hrun 3 6 (by decide) (by decide)).2 (by decide)).1 (by decide)
  · exact ((hrun 3 4 (by decide) (by decide)).2 (by decide)).2 (by decide)
  · exact ((hrun 2 1 (by decide) (by decide)).2 (by decide)).2 (by decide)
  · exact (hrun 2 2 (by decide) (by decide)).1 (by decide)

end StackMachine
