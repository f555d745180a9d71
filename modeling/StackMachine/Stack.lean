import StackMachine.Fault
import StackMachine.Word

/-!
# The operand stack

A stack is a buffer of slots, all allocated at once, and the number of slots in use. It never
grows. Taking a value off only lowers the depth, so the slots above the depth still hold whatever
was last written to them; they count for equality of stacks and for nothing else. All other
operations are described by the list of live values, `Stack.toList`.
-/

namespace StackMachine

/-- A stack of words with a fixed number of slots, the lowest `depth` of which are live. -/
structure Stack where
  slots : Array Word
  depth : Nat
  depth_le : depth ≤ slots.size
  deriving DecidableEq

namespace Stack

def empty (capacity : Nat) : Stack :=
  ⟨Array.replicate capacity 0, 0, Nat.zero_le _⟩

/-- The least number of slots whose eight bytes each no longer fit into one allocation. -/
def allocationBound : Nat := 0x1000000000000000

/-- An empty stack, if that many slots can be allocated at all. -/
def allocate (capacity : Nat) : Except Trap Stack :=
  if capacity < allocationBound then .ok (empty capacity) else .error .capacityOverflow

def capacity (s : Stack) : Nat := s.slots.size

def isEmpty (s : Stack) : Bool := s.depth == 0

def isFull (s : Stack) : Bool := s.depth == s.capacity

/-- The live values, bottom first. -/
def toList (s : Stack) : List Word := s.slots.toList.take s.depth

/-- Writes a value into the lowest free slot. -/
def push (s : Stack) (v : Word) : Except Fault Stack :=
  if h : s.depth < s.slots.size then
    .ok ⟨s.slots.set s.depth v, s.depth + 1, by rw [Array.size_set]; exact h⟩
  else
    .error .stackOverflow

/-- Reads the highest live slot and gives it up. -/
def pop (s : Stack) : Except Fault (Word × Stack) :=
  if h : 0 < s.depth then
    have below : s.depth - 1 < s.slots.size := Nat.lt_of_lt_of_le (by omega) s.depth_le
    .ok (s.slots[s.depth - 1], ⟨s.slots, s.depth - 1, Nat.le_of_lt below⟩)
  else
    .error .stackUnderflow

def top? (s : Stack) : Option Word := s.toList.getLast?

/-- Gives up all live slots and leaves their contents in place. -/
def clear (s : Stack) : Stack := ⟨s.slots, 0, Nat.zero_le _⟩

def text (s : Stack) : String :=
  "Stack[" ++ String.intercalate ", " (s.toList.map Word.text) ++ "]"

@[simp] theorem capacity_empty (n : Nat) : (empty n).capacity = n := by
  simp [empty, capacity]

@[simp] theorem toList_empty (n : Nat) : (empty n).toList = [] := by
  simp [empty, toList]

@[simp] theorem toList_clear (s : Stack) : s.clear.toList = [] := by
  simp [clear, toList]

@[simp] theorem length_toList (s : Stack) : s.toList.length = s.depth := by
  have h := s.depth_le
  simp [toList, Nat.min_eq_left h]

theorem exists_push_eq_ok {s : Stack} {v : Word} :
    (∃ t, s.push v = .ok t) ↔ s.depth < s.capacity := by
  unfold push capacity
  split <;> simp_all

theorem toList_push {s t : Stack} {v : Word} (h : s.push v = .ok t) :
    t.toList = s.toList ++ [v] := by
  unfold push at h
  split at h
  · next room =>
    obtain rfl := Except.ok.inj h
    have inside : s.depth < (s.slots.toList.set s.depth v).length := by simpa using room
    simp only [toList, Array.toList_set]
    rw [List.take_succ_eq_append_getElem inside, List.take_set_of_le (Nat.le_refl _)]
    simp
  · cases h

theorem capacity_push {s t : Stack} {v : Word} (h : s.push v = .ok t) :
    t.capacity = s.capacity := by
  unfold push at h
  split at h
  · obtain rfl := Except.ok.inj h
    simp [capacity]
  · cases h

theorem exists_pop_eq_ok {s : Stack} : (∃ r, s.pop = .ok r) ↔ 0 < s.depth := by
  unfold pop
  split <;> simp_all

theorem toList_pop {s t : Stack} {v : Word} (h : s.pop = .ok (v, t)) :
    s.toList = t.toList ++ [v] := by
  unfold pop at h
  split at h
  · next live =>
    obtain ⟨rfl, rfl⟩ := Prod.mk.inj (Except.ok.inj h)
    have below : s.depth - 1 < s.slots.toList.length := by
      have := s.depth_le
      simp
      omega
    have last := List.take_succ_eq_append_getElem below
    rw [Nat.sub_add_cancel live] at last
    simpa [toList] using last
  · cases h

theorem slots_pop {s t : Stack} {v : Word} (h : s.pop = .ok (v, t)) : t.slots = s.slots := by
  unfold pop at h
  split at h
  · obtain ⟨-, rfl⟩ := Prod.mk.inj (Except.ok.inj h)
    rfl
  · cases h

end Stack

end StackMachine
