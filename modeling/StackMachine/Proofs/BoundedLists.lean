import Mathlib.Logic.Function.Basic
import StackMachine.Proofs.ListMachine

/-!
# Stacks as bounded lists

Two stacks on which any operations are performed in any order, one of which replaces a stack by a
copy of the other.  Beside them stand two lists with a fixed capacity each, which have neither
slots nor stale values.  The main result is that nobody can tell the stacks from the lists: every
reply and everything there is to see of either stack is the same.

On the other side stand slots and lengths that are written in place, one after the other, so that
an operation that fails halfway would leave a trace.  They are at all times those of the stacks.
-/

namespace StackMachine

/-- A list of words that has room for a fixed number of them. -/
@[ext]
structure BoundedList where
  /-- The words, bottom first. -/
  words : List Word
  capacity : Nat
  length_le : words.length ≤ capacity

/-- The list that a stack stands for. -/
def Stack.bounded (s : Stack) : BoundedList :=
  ⟨s.toList, s.capacity, s.length_toList ▸ s.depth_le⟩

/-! ## Operations -/

/-- One of two stacks. -/
inductive Side
  | left
  | right
  deriving DecidableEq

def Side.other : Side → Side
  | left => right
  | right => left

theorem Side.other_ne (side : Side) : side.other ≠ side := by
  cases side <;> nofun

/-- What can be done to a stack that has another one beside it. -/
inductive StackOp
  | new (capacity : Nat)
  | push (v : Word)
  | pop
  | peek
  | clear
  /-- The stack becomes a copy of the other. -/
  | copy
  deriving DecidableEq

inductive StackReply
  | done
  | popped (v : Word)
  | peeked (top : Option Word)
  | fault (fault : Fault)
  deriving DecidableEq

/-- The reply to an operation and the stack after it, which is the same one after a fault. -/
def Stack.act (this other : Stack) : StackOp → Except Trap (StackReply × Stack)
  | .new capacity => (allocate capacity).map fun s => (.done, s)
  | .push v =>
    match this.push v with
    | .ok s => .ok (.done, s)
    | .error fault => .ok (.fault fault, this)
  | .pop =>
    match this.pop with
    | .ok (v, s) => .ok (.popped v, s)
    | .error fault => .ok (.fault fault, this)
  | .peek => .ok (.peeked this.top?, this)
  | .clear => .ok (.done, this.clear)
  | .copy => .ok (.done, other)

namespace BoundedList

def empty (capacity : Nat) : BoundedList := ⟨[], capacity, Nat.zero_le _⟩

def act (this other : BoundedList) : StackOp → StackReply × BoundedList
  | .new capacity => (.done, empty capacity)
  | .push v =>
    if h : this.words.length < this.capacity then
      (.done, ⟨this.words ++ [v], this.capacity, by rw [List.length_append]; exact h⟩)
    else (.fault .stackOverflow, this)
  | .pop =>
    match this.words.getLast? with
    | some v =>
      (.popped v, ⟨this.words.dropLast, this.capacity,
        Nat.le_trans this.words.dropLast_sublist.length_le this.length_le⟩)
    | none => (.fault .stackUnderflow, this)
  | .peek => (.peeked this.words.getLast?, this)
  | .clear => (.done, empty this.capacity)
  | .copy => (.done, other)

end BoundedList

/-! ## Operations in place -/

/-- Slots and a length that need not go with them. -/
structure Buffer where
  slots : Array Word
  length : Nat
  deriving DecidableEq

def Stack.buffer (s : Stack) : Buffer := ⟨s.slots, s.depth⟩

/-- Work on a buffer in place.  What has been written before a fault stays written, and there is
no result at all where a slot is missing. -/
abbrev InPlace := ExceptT Fault (StateT Buffer Option)

namespace InPlace

def read (n : Nat) : InPlace Word := fun b => b.slots[n]?.map fun v => (.ok v, b)

def write (n : Nat) (v : Word) : InPlace Unit := fun b =>
  if h : n < b.slots.size then some (.ok (), { b with slots := b.slots.set n v }) else none

/-- The words below the length, bottom first. -/
def live : InPlace (List Word) := fun b =>
  if b.length ≤ b.slots.size then some (.ok (b.slots.toList.take b.length), b) else none

def push (v : Word) : InPlace Unit := do
  let b ← get
  if b.length = b.slots.size then throw .stackOverflow
  else
    write b.length v
    modify fun b => { b with length := b.length + 1 }

def pop : InPlace Word := do
  let b ← get
  if b.length = 0 then throw .stackUnderflow
  else
    modify fun b => { b with length := b.length - 1 }
    let b ← get
    read b.length

def peek : InPlace (Option Word) := do
  let words ← live
  return words.getLast?

def clear : InPlace Unit := modify fun b => { b with length := 0 }

end InPlace

namespace Buffer

/-- A fault is a reply like any other, with the buffer as the operation has left it. -/
def reply {α : Type} (f : α → StackReply) : Except Fault α × Buffer → StackReply × Buffer
  | (.ok a, b) => (f a, b)
  | (.error fault, b) => (.fault fault, b)

def act (this other : Buffer) : StackOp → Option (StackReply × Buffer)
  | .new capacity =>
    if capacity < Stack.allocationBound then some (.done, ⟨.replicate capacity 0, 0⟩) else none
  | .push v => (InPlace.push v this).map (reply fun _ => .done)
  | .pop => (InPlace.pop this).map (reply .popped)
  | .peek => (InPlace.peek this).map (reply .peeked)
  | .clear => (InPlace.clear this).map (reply fun _ => .done)
  | .copy => some (.done, other)

end Buffer

/-! ## Sequences of operations -/

/-- One operation in a sequence, with both sides before and after it. -/
structure StackEntry (α : Type) where
  before : Side → α
  side : Side
  op : StackOp
  reply : StackReply
  after : Side → α

def StackEntry.map {α β : Type} (f : α → β) (e : StackEntry α) : StackEntry β :=
  { e with before := f ∘ e.before, after := f ∘ e.after }

/-- Performs operations one after the other, each on its side. -/
def performOps {m : Type → Type} [Monad m] {α : Type}
    (act : α → α → StackOp → m (StackReply × α)) :
    List (Side × StackOp) → (Side → α) → m (List (StackEntry α))
  | [], _ => return []
  | (side, op) :: ops, before => do
    let (reply, this) ← act (before side) (before side.other) op
    let after := Function.update before side this
    let entries ← performOps act ops after
    return { before, side, op, reply, after } :: entries

def Stack.performAll (ops : List (Side × StackOp)) (pair : Side → Stack) :
    Except Trap (List (StackEntry Stack)) :=
  performOps act ops pair

def BoundedList.performAll (ops : List (Side × StackOp)) (lists : Side → BoundedList) :
    List (StackEntry BoundedList) :=
  Id.run (performOps (fun this other op => pure (this.act other op)) ops lists)

def Buffer.performAll (ops : List (Side × StackOp)) (buffers : Side → Buffer) :
    Option (List (StackEntry Buffer)) :=
  performOps act ops buffers

/-- What there is to see of a stack. -/
structure Sight where
  words : List Word
  depth : Nat
  capacity : Nat
  empty : Bool
  full : Bool
  top : Option Word
  deriving DecidableEq

def Stack.sight (s : Stack) : Sight :=
  { words := s.toList
    depth := s.depth
    capacity := s.capacity
    empty := s.isEmpty
    full := s.isFull
    top := s.top? }

def BoundedList.sight (b : BoundedList) : Sight :=
  { words := b.words
    depth := b.words.length
    capacity := b.capacity
    empty := b.words.isEmpty
    full := b.words.length == b.capacity
    top := b.words.getLast? }

/-! ## One operation -/

namespace Stack

theorem sight_bounded (s : Stack) : s.bounded.sight = s.sight := by
  have hempty : s.toList.isEmpty = s.isEmpty := by
    rw [isEmpty, ← length_toList]
    cases s.toList <;> rfl
  simp [BoundedList.sight, sight, bounded, hempty, isFull, top?]

/-- Everything that an operation can do to a stack. -/
inductive Acted (this other : Stack) : StackOp → StackReply → Stack → Prop
  | new {capacity : Nat} : Acted this other (.new capacity) .done (.empty capacity)
  | push {v : Word} {s : Stack} (hroom : this.depth < this.capacity)
      (hlive : s.toList = this.toList ++ [v]) (hcapacity : s.capacity = this.capacity) :
      Acted this other (.push v) .done s
  | overflow {v : Word} (hfull : this.depth = this.capacity) :
      Acted this other (.push v) (.fault .stackOverflow) this
  | pop {v : Word} {s : Stack} (hlive : this.toList = s.toList ++ [v])
      (hcapacity : s.capacity = this.capacity) : Acted this other .pop (.popped v) s
  | underflow (hempty : this.toList = []) :
      Acted this other .pop (.fault .stackUnderflow) this
  | peek : Acted this other .peek (.peeked this.top?) this
  | clear : Acted this other .clear .done this.clear
  | copy : Acted this other .copy .done other

variable {this other s : Stack} {op : StackOp} {reply : StackReply}

theorem exists_act (this other : Stack)
    (halloc : ∀ capacity, op = .new capacity → capacity < 2 ^ 60) :
    ∃ reply s, this.act other op = .ok (reply, s) ∧ Acted this other op reply s := by
  cases op with
  | new capacity =>
      have hallocate : allocate capacity = .ok (.empty capacity) := if_pos (halloc capacity rfl)
      exact ⟨_, _, by rw [act, hallocate]; rfl, .new⟩
  | push v =>
      rcases Nat.lt_or_eq_of_le this.depth_le with hroom | hfull
      · obtain ⟨s, hpush, hlive, hcapacity⟩ := push_eq_ok v hroom
        exact ⟨_, s, by rw [act, hpush], .push hroom hlive hcapacity⟩
      · exact ⟨_, _, by rw [act, push_eq_error v hfull], .overflow hfull⟩
  | pop =>
      rcases List.eq_nil_or_concat' this.toList with hempty | ⟨rest, v, hlive⟩
      · exact ⟨_, _, by rw [act, pop_eq_error hempty], .underflow hempty⟩
      · obtain ⟨s, hpop, rfl, hcapacity⟩ := pop_eq_ok hlive
        exact ⟨_, s, by rw [act, hpop], .pop hlive hcapacity⟩
  | peek => exact ⟨_, _, rfl, .peek⟩
  | clear => exact ⟨_, _, rfl, .clear⟩
  | copy => exact ⟨_, _, rfl, .copy⟩

theorem acted_of_act (h : this.act other op = .ok (reply, s)) : Acted this other op reply s := by
  have halloc : ∀ capacity, op = .new capacity → capacity < 2 ^ 60 := by
    rintro capacity rfl
    rw [act, allocate] at h
    split at h
    · next hsmall => exact hsmall
    · cases h
  obtain ⟨reply', s', hact, hacted⟩ := exists_act this other halloc
  cases hact.symm.trans h
  exact hacted

namespace Acted

/-- An operation on a stack is the operation on the list that the stack stands for. -/
theorem act_bounded (h : Acted this other op reply s) :
    this.bounded.act other.bounded op = (reply, s.bounded) := by
  cases h with
  | new => simp [BoundedList.act, BoundedList.empty, bounded]
  | push hroom hlive hcapacity =>
      have hroom : this.bounded.words.length < this.bounded.capacity :=
        this.length_toList.symm ▸ hroom
      rw [BoundedList.act, dif_pos hroom, Prod.mk.injEq]
      exact ⟨rfl, BoundedList.ext hlive.symm hcapacity.symm⟩
  | overflow hfull =>
      have hnone : ¬this.bounded.words.length < this.bounded.capacity :=
        Nat.not_lt.2 (Nat.le_of_eq (this.length_toList.trans hfull).symm)
      rw [BoundedList.act, dif_neg hnone]
  | @pop v s hlive hcapacity =>
      have hlast : this.bounded.words.getLast? = some v := by
        change this.toList.getLast? = some v
        rw [hlive, List.getLast?_concat]
      have hrest : this.bounded.words.dropLast = s.toList := by
        change this.toList.dropLast = s.toList
        rw [hlive, List.dropLast_concat]
      simp only [BoundedList.act, hlast, Prod.mk.injEq, true_and]
      exact BoundedList.ext hrest hcapacity.symm
  | underflow hempty =>
      have hlast : this.bounded.words.getLast? = none := by
        change this.toList.getLast? = none
        rw [hempty, List.getLast?_nil]
      simp only [BoundedList.act, hlast]
  | peek => rfl
  | clear =>
      rw [BoundedList.act, Prod.mk.injEq]
      exact ⟨rfl, BoundedList.ext this.toList_clear.symm rfl⟩
  | copy => rfl

theorem eq_of_fault {fault : Fault} (h : Acted this other op (.fault fault) s) : s = this := by
  cases h <;> rfl

theorem overflow_iff (h : Acted this other op reply s) :
    reply = .fault .stackOverflow ↔
      (∃ v, op = .push v) ∧ this.toList.length = this.capacity := by
  cases h with
  | push hroom => simp [Nat.ne_of_lt hroom]
  | overflow hfull => simp [hfull]
  | _ => simp

theorem underflow_iff (h : Acted this other op reply s) :
    reply = .fault .stackUnderflow ↔ op = .pop ∧ this.toList = [] := by
  cases h with
  | pop hlive => simp [hlive]
  | underflow hempty => simp [hempty]
  | _ => simp

/-- Whatever is live after an operation was live before it or has just been pushed. -/
theorem mem_toList (h : Acted this other op reply s) {v : Word} (hv : v ∈ s.toList) :
    v ∈ this.toList ∨ v ∈ other.toList ∨ op = .push v := by
  cases h with
  | new | clear => simp at hv
  | push _ hlive =>
      rw [hlive, List.mem_append, List.mem_singleton] at hv
      rcases hv with hlow | rfl
      · exact .inl hlow
      · exact .inr (.inr rfl)
  | pop hlive => exact .inl (hlive ▸ List.mem_append_left _ hv)
  | overflow | underflow | peek => exact .inl hv
  | copy => exact .inr (.inl hv)

theorem mem_update {pair : Side → Stack} {side side' : Side} {v : Word}
    (h : Acted (pair side) (pair side.other) op reply s)
    (hv : v ∈ (Function.update pair side s side').toList) :
    (∃ side, v ∈ (pair side).toList) ∨ op = .push v := by
  by_cases hside : side' = side
  · subst hside
    rw [Function.update_self] at hv
    rcases h.mem_toList hv with hthis | hother | hpush
    · exact .inl ⟨side', hthis⟩
    · exact .inl ⟨side'.other, hother⟩
    · exact .inr hpush
  · rw [Function.update_of_ne hside] at hv
    exact .inl ⟨side', hv⟩

end Acted

end Stack

/-! ## One operation in place -/

namespace InPlace

variable {α β : Type} {b c : Buffer} {s t : Stack} {v : Word} {fault : Fault}

theorem bind_of_ok {x : InPlace α} {f : α → InPlace β} {a : α} (hx : x b = some (.ok a, c)) :
    (x >>= f) b = f a c := by
  change (x b).bind (fun r => ExceptT.bindCont f r.1 r.2) = _
  rw [hx]
  rfl

theorem push_of_ok (h : s.push v = .ok t) : push v s.buffer = some (.ok (), t.buffer) := by
  unfold Stack.push at h
  split at h
  · next hroom =>
    cases h
    have hlength : s.buffer.length ≠ s.buffer.slots.size := Nat.ne_of_lt hroom
    have hwrite : write s.buffer.length v s.buffer = some (.ok (), _) := dif_pos hroom
    rw [push, bind_of_ok (c := s.buffer) rfl, if_neg hlength, bind_of_ok hwrite]
    rfl
  · cases h

/-- The test for room comes before the first write. -/
theorem push_of_error (h : s.push v = .error fault) :
    push v s.buffer = some (.error fault, s.buffer) := by
  unfold Stack.push at h
  split at h
  · cases h
  · next hfull =>
    cases h
    have hlength : s.buffer.length = s.buffer.slots.size :=
      Nat.le_antisymm s.depth_le (Nat.le_of_not_lt hfull)
    rw [push, bind_of_ok (c := s.buffer) rfl, if_pos hlength]
    rfl

theorem pop_of_ok (h : s.pop = .ok (v, t)) : pop s.buffer = some (.ok v, t.buffer) := by
  unfold Stack.pop at h
  split at h
  · next hlive =>
    cases h
    have hlength : s.buffer.length ≠ 0 := Nat.ne_of_gt hlive
    have hbelow : s.depth - 1 < s.slots.size := Nat.lt_of_lt_of_le (by omega) s.depth_le
    let b : Buffer := ⟨s.slots, s.depth - 1⟩
    have hread : read b.length b = some (.ok s.slots[s.depth - 1], b) := by
      rw [read, Array.getElem?_eq_getElem hbelow]
      rfl
    rw [pop, bind_of_ok (c := s.buffer) rfl, if_neg hlength, bind_of_ok (c := b) rfl,
      bind_of_ok (c := b) rfl, hread]
    rfl
  · cases h

theorem pop_of_error (h : s.pop = .error fault) :
    pop s.buffer = some (.error fault, s.buffer) := by
  unfold Stack.pop at h
  split at h
  · cases h
  · next hempty =>
    cases h
    have hlength : s.buffer.length = 0 := Nat.eq_zero_of_not_pos hempty
    rw [pop, bind_of_ok (c := s.buffer) rfl, if_pos hlength]
    rfl

theorem peek_buffer (s : Stack) : peek s.buffer = some (.ok s.top?, s.buffer) := by
  have hlive : live s.buffer = some (.ok s.toList, s.buffer) := if_pos s.depth_le
  rw [peek, bind_of_ok hlive]
  rfl

end InPlace

namespace Stack

variable {this other s : Stack} {op : StackOp} {reply : StackReply}

/-- An operation in place leaves the slots and the length of the stack, also where it fails. -/
theorem act_buffer (h : this.act other op = .ok (reply, s)) :
    this.buffer.act other.buffer op = some (reply, s.buffer) := by
  cases op with
  | new capacity =>
      rw [act, allocate] at h
      split at h
      · next hcapacity =>
        cases h
        exact if_pos hcapacity
      · cases h
  | push v =>
      rw [act] at h
      split at h
      · next hpush =>
        cases h
        rw [Buffer.act, InPlace.push_of_ok hpush]
        rfl
      · next hpush =>
        cases h
        rw [Buffer.act, InPlace.push_of_error hpush]
        rfl
  | pop =>
      rw [act] at h
      split at h
      · next hpop =>
        cases h
        rw [Buffer.act, InPlace.pop_of_ok hpop]
        rfl
      · next hpop =>
        cases h
        rw [Buffer.act, InPlace.pop_of_error hpop]
        rfl
  | peek =>
      cases h
      rw [Buffer.act, InPlace.peek_buffer]
      rfl
  | clear | copy =>
      cases h
      rfl

/-! ## Any number of operations -/

theorem exists_of_performAll_cons {side : Side} {op : StackOp} {ops : List (Side × StackOp)}
    {pair : Side → Stack} {entries : List (StackEntry Stack)}
    (h : performAll ((side, op) :: ops) pair = .ok entries) :
    ∃ reply s rest, (pair side).act (pair side.other) op = .ok (reply, s) ∧
      performAll ops (Function.update pair side s) = .ok rest ∧
      entries =
        { before := pair, side, op, reply, after := Function.update pair side s } :: rest := by
  unfold performAll at h ⊢
  rw [performOps] at h
  cases hact : (pair side).act (pair side.other) op with
  | error trap => rw [hact] at h; cases h
  | ok p =>
      obtain ⟨reply, s⟩ := p
      rw [hact] at h
      change (performOps act ops (Function.update pair side s) >>= _) = _ at h
      cases hrest : performOps act ops (Function.update pair side s) with
      | error trap => rw [hrest] at h; cases h
      | ok rest =>
          rw [hrest] at h
          exact ⟨reply, s, rest, rfl, hrest, (Except.ok.inj h).symm⟩

/-- What holds of each operation under a view of the stacks holds of any number of them. -/
theorem performOps_of_act {m : Type → Type} [Monad m] [LawfulMonad m] {α : Type}
    {act' : α → α → StackOp → m (StackReply × α)} (f : Stack → α)
    (hact : ∀ {this other op reply s}, act this other op = .ok (reply, s) →
      act' (f this) (f other) op = pure (reply, f s))
    {ops : List (Side × StackOp)} {pair : Side → Stack} {entries : List (StackEntry Stack)}
    (h : performAll ops pair = .ok entries) :
    performOps act' ops (f ∘ pair) = pure (entries.map (StackEntry.map f)) := by
  induction ops generalizing pair entries with
  | nil =>
      cases h
      rfl
  | cons p ops ih =>
      obtain ⟨side, op⟩ := p
      obtain ⟨reply, s, rest, hfirst, hrest, rfl⟩ := exists_of_performAll_cons h
      have hrest' := ih hrest
      rw [Function.comp_update] at hrest'
      rw [performOps, Function.comp_apply, Function.comp_apply, hact hfirst, pure_bind]
      dsimp only
      rw [hrest', pure_bind, List.map_cons, StackEntry.map, Function.comp_update]

theorem map_bounded {ops : List (Side × StackOp)} {pair : Side → Stack}
    {entries : List (StackEntry Stack)} (h : performAll ops pair = .ok entries) :
    BoundedList.performAll ops (bounded ∘ pair) = entries.map (StackEntry.map bounded) :=
  performOps_of_act (m := Id) bounded (fun hact => (acted_of_act hact).act_bounded) h

theorem map_sight {ops : List (Side × StackOp)} {pair : Side → Stack}
    {entries : List (StackEntry Stack)} (h : performAll ops pair = .ok entries) :
    entries.map (StackEntry.map sight) =
      (BoundedList.performAll ops (bounded ∘ pair)).map (StackEntry.map BoundedList.sight) := by
  have hsight : BoundedList.sight ∘ bounded = sight := funext sight_bounded
  rw [map_bounded h, List.map_map, ← hsight]
  rfl

/-- The operations that were performed on two stacks, one after the other. -/
inductive Performed : List (Side × StackOp) → (Side → Stack) → List (StackEntry Stack) → Prop
  | nil {pair : Side → Stack} : Performed [] pair []
  | cons {pair : Side → Stack} {side : Side} {op : StackOp} {reply : StackReply} {s : Stack}
      {ops : List (Side × StackOp)} {entries : List (StackEntry Stack)}
      (hacted : Acted (pair side) (pair side.other) op reply s)
      (hrest : Performed ops (Function.update pair side s) entries) :
      Performed ((side, op) :: ops) pair
        ({ before := pair, side, op, reply, after := Function.update pair side s } :: entries)

theorem exists_performed (ops : List (Side × StackOp)) (pair : Side → Stack)
    (halloc : ∀ side capacity, (side, .new capacity) ∈ ops → capacity < 2 ^ 60) :
    ∃ entries, performAll ops pair = .ok entries ∧ Performed ops pair entries := by
  induction ops generalizing pair with
  | nil => exact ⟨[], rfl, .nil⟩
  | cons p ops ih =>
      obtain ⟨side, op⟩ := p
      obtain ⟨reply, s, hact, hacted⟩ := exists_act (pair side) (pair side.other)
        fun capacity hop => halloc side capacity (hop ▸ List.mem_cons_self ..)
      obtain ⟨entries, hperform, hperformed⟩ := ih (Function.update pair side s)
        fun side capacity hmem => halloc side capacity (List.mem_cons_of_mem _ hmem)
      refine ⟨_, ?_, .cons hacted hperformed⟩
      unfold performAll at hperform ⊢
      rw [performOps, hact]
      change (performOps act ops _ >>= _) = _
      rw [hperform]
      rfl

namespace Performed

variable {ops : List (Side × StackOp)} {pair : Side → Stack} {entries : List (StackEntry Stack)}

theorem exists_acted (h : Performed ops pair entries) {e : StackEntry Stack} (he : e ∈ entries) :
    ∃ s, Acted (e.before e.side) (e.before e.side.other) e.op e.reply s ∧
      e.after = Function.update e.before e.side s := by
  induction h with
  | nil => cases he
  | cons hacted _ ih =>
      rcases List.mem_cons.1 he with rfl | he
      · exact ⟨_, hacted, rfl⟩
      · exact ih he

theorem of_append {earlier rest : List (StackEntry Stack)}
    (h : Performed ops pair (earlier ++ rest)) : ∃ ops pair, Performed ops pair rest := by
  induction earlier generalizing ops pair with
  | nil => exact ⟨ops, pair, h⟩
  | cons e earlier ih =>
      cases h with
      | cons _ hrest => exact ih hrest

theorem before_of_mem_head? {span later : List (StackEntry Stack)} {e : StackEntry Stack}
    (h : Performed ops pair (span ++ later)) (he : e ∈ span.head?) : e.before = pair := by
  cases span with
  | nil => cases he
  | cons e' span =>
      cases he
      cases h with
      | cons => rfl

/-- What is live after some operations was live before them or has been pushed by one of them. -/
theorem mem_toList {span later : List (StackEntry Stack)} {e : StackEntry Stack} {side : Side}
    {v : Word} (h : Performed ops pair (span ++ later)) (he : e ∈ span.getLast?)
    (hv : v ∈ (e.after side).toList) :
    (∃ side, v ∈ (pair side).toList) ∨ ∃ e ∈ span, e.op = .push v := by
  induction span generalizing ops pair with
  | nil => cases he
  | cons e' span ih =>
      cases h with
      | @cons _ side' _ _ s _ _ hacted hrest =>
          -- The last entry is this one, or the stacks after this one are where the rest starts.
          have hlive : (∃ side, v ∈ (Function.update pair side' s side).toList) ∨
              ∃ e ∈ span, e.op = .push v := by
            cases span with
            | nil =>
                cases he
                exact .inl ⟨side, hv⟩
            | cons => exact ih hrest (List.getLast?_cons_cons ▸ he)
          rcases hlive with ⟨side, hmem⟩ | ⟨e'', he'', hpush⟩
          · rcases hacted.mem_update hmem with hmem | hpush
            · exact .inl hmem
            · exact .inr ⟨_, List.mem_cons_self .., hpush⟩
          · exact .inr ⟨e'', List.mem_cons_of_mem _ he'', hpush⟩

end Performed

end Stack

/-- Under any sequence of operations, two stacks are two lists with a fixed capacity each, and their
slots and lengths are what the same operations leave in place.  A push fails on a full list only and
a pop on an empty one only, a failed operation changes nothing, and no operation changes the other
stack.  Stale values never show: in any span of the operations, a
word that is live nowhere before it and live after it has been pushed in it, and other stale values
would make no difference. -/
theorem stacks_are_bounded_lists (ops : List (Side × StackOp)) (pair : Side → Stack)
    (halloc : ∀ side capacity, (side, .new capacity) ∈ ops → capacity < 2 ^ 60) :
    ∃ entries, Stack.performAll ops pair = .ok entries ∧
      Buffer.performAll ops (Stack.buffer ∘ pair) =
        some (entries.map (StackEntry.map Stack.buffer)) ∧
      entries.map (StackEntry.map Stack.sight) =
        (BoundedList.performAll ops (Stack.bounded ∘ pair)).map (StackEntry.map BoundedList.sight) ∧
      (∀ e ∈ entries,
        (e.reply = .fault .stackOverflow ↔ (∃ v, e.op = .push v) ∧
          (e.before e.side).toList.length = (e.before e.side).capacity) ∧
        (e.reply = .fault .stackUnderflow ↔ e.op = .pop ∧ (e.before e.side).toList = []) ∧
        (∀ fault, e.reply = .fault fault → e.after = e.before) ∧
        e.after e.side.other = e.before e.side.other) ∧
      (∀ earlier span later, entries = earlier ++ (span ++ later) →
        ∀ first ∈ span.head?, ∀ last ∈ span.getLast?, ∀ v : Word,
          (∀ side, v ∉ (first.before side).toList) →
          (∃ side, v ∈ (last.after side).toList) → ∃ e ∈ span, e.op = .push v) ∧
      ∀ pair' : Side → Stack, (∀ side, (pair' side).bounded = (pair side).bounded) →
        ∃ entries', Stack.performAll ops pair' = .ok entries' ∧
          entries'.map (StackEntry.map Stack.sight) = entries.map (StackEntry.map Stack.sight) := by
  obtain ⟨entries, hperform, hperformed⟩ := Stack.exists_performed ops pair halloc
  refine ⟨entries, hperform, Stack.performOps_of_act Stack.buffer Stack.act_buffer hperform,
    Stack.map_sight hperform, ?_, ?_, ?_⟩
  · intro e he
    obtain ⟨s, hacted, hafter⟩ := hperformed.exists_acted he
    refine ⟨hacted.overflow_iff, hacted.underflow_iff, ?_, ?_⟩
    · intro fault hreply
      rw [hreply] at hacted
      rw [hafter, hacted.eq_of_fault, Function.update_eq_self]
    · rw [hafter]
      exact Function.update_of_ne e.side.other_ne _ _
  · rintro earlier span later rfl first hfirst last hlast v hstale ⟨side, hlive⟩
    obtain ⟨ops, pair, hspan⟩ := hperformed.of_append
    rw [hspan.before_of_mem_head? hfirst] at hstale
    rcases hspan.mem_toList hlast hlive with ⟨side, hmem⟩ | hpush
    · exact absurd hmem (hstale side)
    · exact hpush
  · intro pair' hsame
    obtain ⟨entries', hperform', -⟩ := Stack.exists_performed ops pair' halloc
    have hlists : Stack.bounded ∘ pair' = Stack.bounded ∘ pair := funext hsame
    refine ⟨entries', hperform', ?_⟩
    rw [Stack.map_sight hperform', Stack.map_sight hperform, hlists]

/-- A word is popped from a stack of two slots, its slot is written again, and a copy from before
does not change. -/
theorem written_slot_shows_new_word :
    let ops : List (Side × StackOp) :=
      [(.left, .new 2), (.left, .push 7), (.left, .push 8), (.left, .pop), (.right, .copy),
        (.left, .push 9), (.left, .push 5), (.right, .pop), (.right, .pop), (.left, .clear)]
    (∀ side capacity, (side, .new capacity) ∈ ops → capacity < 2 ^ 60) ∧
      ∃ entries, Stack.performAll ops (fun _ => .empty 0) = .ok entries ∧
        Buffer.performAll ops (fun _ => ⟨#[], 0⟩) =
          some (entries.map (StackEntry.map Stack.buffer)) ∧
        entries.map (fun e => (e.reply, (e.after .left).toList, (e.after .right).toList)) =
          [(.done, [], []), (.done, [7], []), (.done, [7, 8], []), (.popped 8, [7], []),
            (.done, [7], [7]), (.done, [7, 9], [7]), (.fault .stackOverflow, [7, 9], [7]),
            (.popped 7, [7, 9], []), (.fault .stackUnderflow, [7, 9], []), (.done, [], [])] := by
  intro ops
  have halloc : ∀ side capacity, (side, .new capacity) ∈ ops → capacity < 2 ^ 60 := by
    simp [ops]
  obtain ⟨entries, hperform, hbuffers, hsights, -⟩ :=
    stacks_are_bounded_lists ops (fun _ => .empty 0) halloc
  let shown (e : StackEntry Sight) := (e.reply, (e.after .left).words, (e.after .right).words)
  have hshown := congrArg (List.map shown) hsights
  rw [List.map_map] at hshown
  exact ⟨halloc, entries, hperform, hbuffers, hshown⟩

end StackMachine
