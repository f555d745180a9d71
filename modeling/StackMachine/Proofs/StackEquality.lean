import StackMachine.Proofs.BoundedLists

/-!
# What equality of stacks compares

Stacks are equal when all their slots are, the stale ones included, so equality tells more than
there is to see of a stack.  What it tells is a matter of the past: a slot holds the word of the
last push that was made at its depth, or zero if there was none, and a copy takes over the past of
its original.  The main result reads equality of two stacks off the pushes that succeeded on them.
-/

namespace StackMachine

/-- The pushes that have succeeded on a stack, latest first, each with the depth it was made at. -/
abbrev Pushes := List (Nat × Word)

/-- The word of the last push that was made at a depth. -/
def Pushes.lastAt (past : Pushes) (depth : Nat) : Word := (past.lookup depth).getD 0

/-- The pushes of a stack after an operation on it, given those of the stack beside it. -/
def Pushes.next (past beside : Pushes) (depth : Nat) : StackOp → StackReply → Pushes
  | .new _, _ => []
  | .push v, .done => (depth, v) :: past
  | .copy, _ => beside
  | _, _ => past

/-- The pushes of both stacks after an operation. -/
def StackEntry.recall (past : Side → Pushes) (e : StackEntry Stack) : Side → Pushes :=
  Function.update past e.side
    ((past e.side).next (past e.side.other) (e.before e.side).depth e.op e.reply)

namespace Stack

/-- Both stacks after some operations. -/
def final (pair : Side → Stack) (entries : List (StackEntry Stack)) : Side → Stack :=
  entries.foldl (fun _ e => e.after) pair

/-- The pushes that have succeeded on both stacks after some operations on new ones. -/
def pushes (entries : List (StackEntry Stack)) : Side → Pushes :=
  entries.foldl StackEntry.recall fun _ => []

/-! ## Slots and the past -/

/-- Every slot holds the word of the last push that was made at its depth. -/
def Recalls (s : Stack) (past : Pushes) : Prop :=
  ∀ i < s.capacity, s.slots[i]? = some (past.lastAt i)

variable {s t : Stack} {v : Word} {past past' : Pushes}

theorem slots_push (h : s.push v = .ok t) (i : Nat) :
    t.slots[i]? = if s.depth = i then some v else s.slots[i]? := by
  unfold push at h
  split at h
  · obtain rfl := Except.ok.inj h
    rw [Array.getElem?_set]
  · cases h

theorem eq_of_slots_eq (hslots : s.slots = t.slots) (hdepth : s.depth = t.depth) : s = t := by
  cases s
  cases t
  subst hslots hdepth
  rfl

theorem recalls_empty (capacity : Nat) : (empty capacity).Recalls [] := by
  intro i hi
  rw [capacity_empty] at hi
  simp [empty, Pushes.lastAt, hi]

namespace Recalls

theorem push (h : s.Recalls past) (hpush : s.push v = .ok t) :
    t.Recalls ((s.depth, v) :: past) := by
  intro i hi
  rw [capacity_push hpush] at hi
  rw [slots_push hpush]
  by_cases hdepth : s.depth = i
  · simp [Pushes.lastAt, hdepth]
  · have hlookup : (i == s.depth) = false := by simpa using Ne.symm hdepth
    simp [hdepth, h i hi, Pushes.lastAt, List.lookup_cons, hlookup]

/-- What leaves the slots alone leaves the past alone. -/
theorem of_slots_eq (h : s.Recalls past) (hslots : t.slots = s.slots) : t.Recalls past := by
  intro i hi
  unfold capacity at hi
  rw [hslots] at hi ⊢
  exact h i hi

/-- Stacks with the same past at each depth are equal, if they are as deep and as large. -/
theorem eq_iff (h : s.Recalls past) (h' : t.Recalls past') :
    s = t ↔ s.capacity = t.capacity ∧ s.depth = t.depth ∧
      ∀ i < s.capacity, past.lastAt i = past'.lastAt i := by
  constructor
  · rintro rfl
    refine ⟨rfl, rfl, ?_⟩
    intro i hi
    exact Option.some.inj ((h i hi).symm.trans (h' i hi))
  · rintro ⟨hcapacity, hdepth, hlast⟩
    have hslots : s.slots = t.slots := by
      apply Array.ext hcapacity
      intro i hi hi'
      have hword : s.slots[i]? = t.slots[i]? := by rw [h i hi, h' i hi', hlast i hi]
      simpa [hi, hi'] using hword
    exact eq_of_slots_eq hslots hdepth

end Recalls

/-- A push that is taken back leaves its word in the slot, and nothing else of it. -/
theorem exists_pop_of_push (h : s.push v = .ok t) :
    ∃ u, t.pop = .ok (v, u) ∧ (u = s ↔ s.slots[s.depth]? = some v) := by
  obtain ⟨u, hpop, hlive, -⟩ := pop_eq_ok (toList_push h)
  have hdepth : u.depth = s.depth := by rw [← length_toList, hlive, length_toList]
  have hslots (i : Nat) : u.slots[i]? = if s.depth = i then some v else s.slots[i]? := by
    rw [slots_pop hpop, slots_push h]
  refine ⟨u, hpop, ?_⟩
  constructor
  · rintro rfl
    rw [hslots, if_pos rfl]
  · intro hheld
    apply eq_of_slots_eq _ hdepth
    apply Array.ext_getElem?
    intro i
    rw [hslots]
    split
    · next hi => rw [← hi, hheld]
    · rfl

/-! ## Any number of operations -/

theorem final_cons (pair : Side → Stack) (e : StackEntry Stack)
    (entries : List (StackEntry Stack)) :
    final pair (e :: entries) = final e.after entries := rfl

theorem Recalls.act {this other : Stack} {op : StackOp} {reply : StackReply}
    (h : this.Recalls past) (h' : other.Recalls past')
    (hact : this.act other op = .ok (reply, s)) :
    s.Recalls (past.next past' this.depth op reply) := by
  cases op with
  | new capacity =>
      rw [Stack.act, allocate] at hact
      split at hact
      · cases hact
        exact recalls_empty capacity
      · cases hact
  | push v =>
      rw [Stack.act] at hact
      split at hact
      · next hpush =>
        cases hact
        exact h.push hpush
      · cases hact
        exact h
  | pop =>
      rw [Stack.act] at hact
      split at hact
      · next hpop =>
        cases hact
        exact h.of_slots_eq (slots_pop hpop)
      · cases hact
        exact h
  | peek | clear =>
      cases hact
      exact h.of_slots_eq rfl
  | copy =>
      cases hact
      exact h'

theorem recalls_final {ops : List (Side × StackOp)} {pair : Side → Stack}
    {past : Side → Pushes} {entries : List (StackEntry Stack)}
    (hpast : ∀ side, (pair side).Recalls (past side))
    (h : performAll ops pair = .ok entries) (side : Side) :
    (final pair entries side).Recalls (entries.foldl StackEntry.recall past side) := by
  induction ops generalizing pair past entries with
  | nil =>
      cases h
      exact hpast side
  | cons p ops ih =>
      obtain ⟨side', op⟩ := p
      obtain ⟨reply, s, rest, hact, hrest, rfl⟩ := exists_of_performAll_cons h
      -- Only the stack that was acted on has another past than before.
      have hstep (side : Side) : (Function.update pair side' s side).Recalls
          (StackEntry.recall past ⟨pair, side', op, reply, Function.update pair side' s⟩ side) := by
        by_cases hside : side = side'
        · subst hside
          simp only [StackEntry.recall, Function.update_self]
          exact (hpast side).act (hpast side.other) hact
        · simp only [StackEntry.recall, Function.update_of_ne hside]
          exact hpast side
      rw [final_cons, List.foldl_cons]
      exact ih hstep hrest

end Stack

/-- Two stacks that came out of any operations, copies of one another included, are equal exactly
if they have the same capacity and the same depth and the last push at each depth pushed the same
word onto both.  Equal stacks show the same words and answer all further operations alike, but a
push that is taken back gives the stack from before only if its word was in the slot already. -/
theorem stack_beq_iff_same_pushes {capacities : Side → Nat} {ops : List (Side × StackOp)}
    {entries : List (StackEntry Stack)}
    (h : Stack.performAll ops (Stack.empty ∘ capacities) = .ok entries) (side side' : Side) :
    let a := Stack.final (Stack.empty ∘ capacities) entries side
    let b := Stack.final (Stack.empty ∘ capacities) entries side'
    ((a == b) = true ↔ a.capacity = b.capacity ∧ a.depth = b.depth ∧
      ∀ i < a.capacity, (Stack.pushes entries side).lastAt i =
        (Stack.pushes entries side').lastAt i) ∧
    ((a == b) = true → a.toList = b.toList ∧ ∀ pair place later,
      Stack.performAll later (Function.update pair place a) =
        Stack.performAll later (Function.update pair place b)) ∧
    ∀ v t, a.push v = .ok t →
      ∃ u, t.pop = .ok (v, u) ∧ ((u == a) = true ↔ a.slots[a.depth]? = some v) := by
  intro a b
  have hrecalls := Stack.recalls_final (fun side => Stack.recalls_empty (capacities side)) h
  simp only [beq_iff_eq]
  refine ⟨(hrecalls side).eq_iff (hrecalls side'), ?_, ?_⟩
  · intro hab
    rw [hab]
    exact ⟨rfl, fun _ _ _ => rfl⟩
  · intro v t hpush
    exact Stack.exists_pop_of_push hpush

/-- A copy goes its own way and is cleared.  Nothing can be seen of either stack then, but the slot
that only the copy has written to tells them apart. -/
theorem cleared_copy_differs_from_original :
    let ops : List (Side × StackOp) :=
      [(.left, .push 7), (.right, .copy), (.left, .pop), (.right, .push 8), (.right, .pop),
        (.right, .clear)]
    ∃ entries, Stack.performAll ops (Stack.empty ∘ fun _ => 2) = .ok entries ∧
      Stack.pushes entries .left = [(0, 7)] ∧ Stack.pushes entries .right = [(1, 8), (0, 7)] ∧
      let a := Stack.final (Stack.empty ∘ fun _ => 2) entries .left
      let b := Stack.final (Stack.empty ∘ fun _ => 2) entries .right
      a.sight = b.sight ∧ a.capacity = 2 ∧ (a == b) = false := by
  intro ops
  have hrun : ∃ entries, Stack.performAll ops (Stack.empty ∘ fun _ => 2) = .ok entries ∧
      Stack.pushes entries .left = [(0, 7)] ∧ Stack.pushes entries .right = [(1, 8), (0, 7)] ∧
      (Stack.final (Stack.empty ∘ fun _ => 2) entries .left).sight =
        (Stack.final (Stack.empty ∘ fun _ => 2) entries .right).sight ∧
      (Stack.final (Stack.empty ∘ fun _ => 2) entries .left).capacity = 2 :=
    ⟨_, rfl, rfl, rfl, rfl, rfl⟩
  obtain ⟨entries, h, hleft, hright, hsight, hcapacity⟩ := hrun
  refine ⟨entries, h, hleft, hright, hsight, hcapacity, ?_⟩
  rw [Bool.eq_false_iff]
  intro hequal
  obtain ⟨hiff, -⟩ := stack_beq_iff_same_pushes h .left .right
  have hlast := (hiff.1 hequal).2.2 1 (by rw [hcapacity]; decide)
  rw [hleft, hright] at hlast
  exact absurd hlast (by decide)

end StackMachine
