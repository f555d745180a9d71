import StackMachine.Proofs.Stopping

/-!
# The guarded machine

The machine counts, addresses its slots and corrects its quotients without asking whether it may.
The guarded machine asks each time.  It works on slots and a length about which nothing is known,
and has a check for every increment and decrement, every slot that is read or written, every
divisor and every corrected quotient or remainder; a check that fails is a hazard, and then there
is no result at all.

The main result is that a guarded run meets no hazard and has the result of the run.
-/

namespace StackMachine

/-- What a check of the guarded machine finds. -/
inductive Hazard
  /-- A number is not in the range of its type. -/
  | overflow
  /-- The stack has no such slot. -/
  | outside
  /-- The pointer is to be advanced from where there is no instruction. -/
  | astray
  /-- A function has no answer. -/
  | trap (trap : Trap)
  deriving DecidableEq

/-- A state whose length need not go with its slots. -/
structure Bare where
  slots : Array Word
  length : UInt64
  pointer : Address
  program : Program
  halted : Bool
  executed : Count
  output : Output
  deriving DecidableEq

def State.bare (s : State) : Bare :=
  { slots := s.stack.slots
    length := .ofNat s.stack.depth
    pointer := s.pointer
    program := s.program
    halted := s.halted
    executed := s.executed
    output := s.output }

/-- A step that may also meet a hazard, which leaves neither a value nor a fault. -/
abbrev Guarded := StateT Bare (ExceptT Fault (Except Hazard))

/-! ## Checks -/

namespace Guarded

/-- One more, if that is a number of the type. -/
def increment (n : UInt64) : Except Hazard UInt64 :=
  if n.toNat + 1 < 2 ^ 64 then .ok (n + 1) else .error .overflow

/-- One less, if that is a number of the type. -/
def decrement (n : UInt64) : Except Hazard UInt64 :=
  if 0 < n.toNat then .ok (n - 1) else .error .overflow

/-- The word that an integer is, if it is one. -/
def word (n : Int) : Except Hazard Word :=
  if Int64.minValue.toInt ≤ n ∧ n ≤ Int64.maxValue.toInt then .ok (.ofInt n) else .error .overflow

/-- The value in a slot, if there is such a slot. -/
def read (slots : Array Word) (n : UInt64) : Except Hazard Word :=
  if h : n.toNat < slots.size then .ok slots[n.toNat] else .error .outside

/-- The slots with another value in one of them, if there is such a slot. -/
def write (slots : Array Word) (n : UInt64) (v : Word) : Except Hazard (Array Word) :=
  if h : n.toNat < slots.size then .ok (slots.set n.toNat v) else .error .outside

/-- The quotient rounded down, with the divisor and the correction checked. -/
def quotient (x y : Word) : Except Hazard Word :=
  if y = 0 then .error (.trap .zeroDivisor)
  else if x % y ≠ 0 ∧ decide (x < 0) ≠ decide (y < 0) then word ((x / y).toInt - 1)
  else .ok (x / y)

/-- The remainder that goes with it, with the divisor and the correction checked. -/
def remainder (x y : Word) : Except Hazard Word :=
  if y = 0 then .error (.trap .zeroModulus)
  else if x % y ≠ 0 ∧ decide (x % y < 0) ≠ decide (y < 0) then word ((x % y).toInt + y.toInt)
  else .ok (x % y)

end Guarded

/-- The live values, if the slots are as many as the length says. -/
def Bare.live (b : Bare) : Except Hazard (List Word) :=
  if b.length.toNat ≤ b.slots.size then .ok (b.slots.toList.take b.length.toNat)
  else .error .outside

/-! ## Guarded steps -/

namespace Guarded

def fail {α : Type} (fault : Fault) : Guarded α := fun _ => .ok (.error fault)

/-- The value of a check that may find a hazard. -/
def check {α : Type} (x : Except Hazard α) : Guarded α := fun b => x.map fun a => .ok (a, b)

def fetch : Guarded Instr := do
  let b ← get
  match b.program.fetch? b.pointer with
  | none => fail .illegalInstructionAccess
  | some instr =>
    set { b with executed := ← check (increment b.executed) }
    return instr

def advance : Guarded Unit := do
  let b ← get
  if b.pointer.toNat < b.program.size then
    set { b with pointer := ← check (increment b.pointer) }
  else check (.error .astray)

def jumpTo (target : Address) : Guarded Unit := modify fun b => { b with pointer := target }

def halt : Guarded Unit := modify fun b => { b with halted := true }

def emit (r : Record) : Guarded Unit := modify fun b => { b with output := b.output.append r }

def push (v : Word) : Guarded Unit := do
  let b ← get
  if b.length.toNat = b.slots.size then fail .stackOverflow
  else
    let slots ← check (write b.slots b.length v)
    let length ← check (increment b.length)
    set { b with slots, length }

def pop : Guarded Word := do
  let b ← get
  if b.length = 0 then fail .stackUnderflow
  else
    let length ← check (decrement b.length)
    let v ← check (read b.slots length)
    set { b with length }
    return v

def resolve (label : String) : Guarded Address := do
  let b ← get
  match b.program.labels.resolve? label with
  | none => fail .labelNotFound
  | some target => return target

def binary (op : Word → Word → Word) : Guarded Unit := do
  let y ← pop
  let x ← pop
  push (op x y)

def division (op : Word → Word → Except Hazard Word) : Guarded Unit := do
  let y ← pop
  if y = 0 then fail .divideByZero
  else
    let x ← pop
    push (← check (op x y))

def dispatch : Instr → Guarded Unit
  | .push v => do push v; advance
  | .pop => do
    let _ ← pop
    advance
  | .print => do
    let v ← pop
    emit (.emit v)
    advance
  | .dup => do
    let v ← pop
    push v
    push v
    advance
  | .add => do binary (· + ·); advance
  | .sub => do binary (· - ·); advance
  | .mul => do binary (· * ·); advance
  | .div => do division quotient; advance
  | .mod => do division remainder; advance
  | .jump label => do
    let target ← resolve label
    jumpTo target
  | .halt => halt

def cycle : Guarded Instr := do
  let instr ← fetch
  dispatch instr
  return instr

end Guarded

/-! ## What a guarded step follows -/

namespace Guarded

variable {α β : Type} {b c : Bare}

theorem bind_of_fault {g : Guarded α} {h : α → Guarded β} {fault : Fault}
    (hg : g b = .ok (.error fault)) : (g >>= h) b = .ok (.error fault) := by
  change Except.bind (g b) (ExceptT.bindCont fun r : α × Bare => h r.1 r.2) = _
  rw [hg]
  rfl

theorem bind_of_ok {g : Guarded α} {h : α → Guarded β} {a : α}
    (hg : g b = .ok (.ok (a, c))) : (g >>= h) b = h a c := by
  change Except.bind (g b) (ExceptT.bindCont fun r : α × Bare => h r.1 r.2) = _
  rw [hg]
  rfl

theorem check_of_ok {x : Except Hazard α} {a : α} (hx : x = .ok a) :
    check x b = .ok (.ok (a, b)) := by
  rw [hx]
  rfl

theorem fetch_eq_fault (hfetch : b.program.fetch? b.pointer = none) :
    fetch b = .ok (.error .illegalInstructionAccess) := by
  rw [fetch, bind_of_ok (c := b) rfl, hfetch]
  rfl

theorem fetch_eq_ok {i : Instr} (hfetch : b.program.fetch? b.pointer = some i)
    (hexecuted : b.executed.toNat + 1 < 2 ^ 64) :
    fetch b = .ok (.ok (i, { b with executed := b.executed + 1 })) := by
  rw [fetch, bind_of_ok (c := b) rfl, hfetch]
  exact bind_of_ok (check_of_ok (if_pos hexecuted))

theorem resolve_eq_fault {label : String} (htarget : b.program.labels.resolve? label = none) :
    resolve label b = .ok (.error .labelNotFound) := by
  rw [resolve, bind_of_ok (c := b) rfl, htarget]
  rfl

theorem resolve_eq_ok {label : String} {target : Address}
    (htarget : b.program.labels.resolve? label = some target) :
    resolve label b = .ok (.ok (target, b)) := by
  rw [resolve, bind_of_ok (c := b) rfl, htarget]
  rfl

theorem advance_eq_ok (hpointer : b.pointer.toNat < b.program.size)
    (hsize : b.program.size < 2 ^ 64) :
    advance b = .ok (.ok ((), { b with pointer := b.pointer + 1 })) := by
  rw [advance, bind_of_ok (c := b) rfl, if_pos hpointer]
  exact bind_of_ok (check_of_ok (if_pos (by omega)))

theorem push_eq_fault (v : Word) (hfull : b.length.toNat = b.slots.size) :
    push v b = .ok (.error .stackOverflow) := by
  rw [push, bind_of_ok (c := b) rfl, if_pos hfull]
  rfl

theorem push_eq_ok (v : Word) (hroom : b.length.toNat < b.slots.size)
    (hsize : b.slots.size < 2 ^ 64) :
    push v b = .ok (.ok ((), { b with
      slots := b.slots.set b.length.toNat v, length := b.length + 1 })) := by
  have hwrite : write b.slots b.length v = .ok (b.slots.set b.length.toNat v) := dif_pos hroom
  have hlength : increment b.length = .ok (b.length + 1) := if_pos (by omega)
  rw [push, bind_of_ok (c := b) rfl, if_neg (Nat.ne_of_lt hroom),
    bind_of_ok (check_of_ok hwrite), bind_of_ok (check_of_ok hlength)]
  rfl

theorem pop_eq_fault (hempty : b.length = 0) : pop b = .ok (.error .stackUnderflow) := by
  rw [pop, bind_of_ok (c := b) rfl, if_pos hempty]
  rfl

theorem pop_eq_ok {n : Nat} (hlength : b.length.toNat = n + 1) (hinside : n < b.slots.size) :
    pop b = .ok (.ok (b.slots[n], { b with length := .ofNat n })) := by
  have hne : b.length ≠ 0 := by
    intro hzero
    rw [hzero] at hlength
    cases hlength
  have hback : b.length - 1 = .ofNat n := by
    rw [← UInt64.ofNat_toNat (x := b.length), hlength, UInt64.ofNat_add]
    exact UInt64.add_sub_cancel _ _
  have hdecrement : decrement b.length = .ok (.ofNat n) := by
    rw [decrement, if_pos (by omega), hback]
  have hbound := b.length.toNat_lt
  have hsmall : n < 2 ^ 64 := by omega
  have hindex : (UInt64.ofNat n).toNat = n := UInt64.toNat_ofNat_of_lt' hsmall
  have hread : read b.slots (.ofNat n) = .ok b.slots[n] := by
    simp only [read, hindex, dif_pos hinside]
  rw [pop, bind_of_ok (c := b) rfl, if_neg hne, bind_of_ok (check_of_ok hdecrement),
    bind_of_ok (check_of_ok hread)]
  rfl

end Guarded

/-! ## Guarded steps follow steps -/

namespace State

/-- The numbers of slots and of instructions are in the range of the lengths and addresses. -/
structure Fits (s : State) : Prop where
  capacity : s.stack.capacity < 2 ^ 64
  size : s.program.size < 2 ^ 64

/-- The counter has room for one more instruction. -/
structure Ready (s : State) : Prop extends s.Fits where
  executed : s.executed.toNat + 1 < 2 ^ 64

/-- The pointer is at an instruction. -/
structure Placed (s : State) : Prop extends s.Fits where
  pointer : s.pointer.toNat < s.program.size

variable {s : State}

theorem Fits.toNat_length (h : s.Fits) : s.bare.length.toNat = s.stack.depth :=
  UInt64.toNat_ofNat_of_lt' (Nat.lt_of_le_of_lt s.stack.depth_le h.capacity)

theorem Fits.live_bare (h : s.Fits) : s.bare.live = .ok s.stack.toList := by
  have hle : s.bare.length.toNat ≤ s.bare.slots.size := h.toNat_length ▸ s.stack.depth_le
  rw [Bare.live, if_pos hle, h.toNat_length]
  rfl

theorem Placed.withStack (h : s.Placed) {stack : Stack}
    (hcapacity : stack.capacity = s.stack.capacity) : { s with stack }.Placed where
  capacity := hcapacity ▸ h.capacity
  size := h.size
  pointer := h.pointer

end State

/-- A step's result with the bare state in place of the state. -/
def bared {α : Type} (r : Except Fault (α × State)) : Except Fault (α × Bare) :=
  r.map fun p => (p.1, p.2.bare)

namespace Guarded

variable {α β : Type} {P Q R : State → Prop}

/-- From every state with `P` the guarded step meets no hazard and does what the step does, which
leaves a state with `Q`. -/
def Follows (P Q : State → Prop) (g : Guarded α) (x : Step α) : Prop :=
  ∀ s, P s → g s.bare = .ok (bared (x s)) ∧ ∀ a t, x s = .ok (a, t) → Q t

theorem Follows.bind {g : Guarded α} {x : Step α} {h : α → Guarded β} {f : α → Step β}
    (hg : Follows P Q g x) (hf : ∀ a, Follows Q R (h a) (f a)) :
    Follows P R (g >>= h) (x >>= f) := by
  intro s hs
  obtain ⟨hguarded, hpost⟩ := hg s hs
  cases hx : x s with
  | error fault =>
      rw [hx] at hguarded
      rw [Step.bind_of_error hx]
      exact ⟨bind_of_fault hguarded, nofun⟩
  | ok p =>
      obtain ⟨a, t⟩ := p
      rw [hx] at hguarded
      rw [Step.bind_of_ok hx, bind_of_ok hguarded]
      exact hf a t (hpost a t hx)

theorem fail_follows (fault : Fault) : Follows P Q (fail fault : Guarded α) (Step.fail fault) :=
  fun _ _ => ⟨rfl, nofun⟩

theorem pure_follows (a : α) : Follows P P (pure a) (pure a) := by
  intro s hs
  refine ⟨rfl, ?_⟩
  intro a' t h
  cases h
  exact hs

theorem modify_follows {f : Bare → Bare} {f' : State → State}
    (hf : ∀ s, P s → f s.bare = (f' s).bare ∧ Q (f' s)) : Follows P Q (modify f) (modify f') := by
  intro s hs
  obtain ⟨hbare, hpost⟩ := hf s hs
  refine ⟨?_, ?_⟩
  · change Except.ok (Except.ok ((), f s.bare)) = _
    rw [hbare]
    rfl
  · intro a t h
    cases h
    exact hpost

theorem fetch_follows : Follows State.Ready State.Placed fetch Step.fetch := by
  intro s hs
  unfold Step.fetch
  cases hfetch : s.program.fetch? s.pointer with
  | none => exact ⟨fetch_eq_fault hfetch, nofun⟩
  | some i =>
      refine ⟨fetch_eq_ok hfetch hs.executed, ?_⟩
      intro a t h
      cases h
      exact ⟨⟨hs.capacity, hs.size⟩, (Array.getElem?_eq_some_iff.1 hfetch).1⟩

theorem advance_follows : Follows State.Placed State.Fits advance Step.advance := by
  intro s hs
  refine ⟨advance_eq_ok hs.pointer hs.size, ?_⟩
  intro a t h
  cases h
  exact ⟨hs.capacity, hs.size⟩

theorem push_follows (v : Word) : Follows State.Placed State.Placed (push v) (Step.push v) := by
  intro s hs
  have hlength := hs.toNat_length
  unfold Step.push
  constructor
  · unfold Stack.push
    split
    · next hroom =>
      have hinside : s.bare.length.toNat < s.bare.slots.size := hlength ▸ hroom
      have hnext : s.bare.length + 1 = .ofNat (s.stack.depth + 1) := by
        rw [UInt64.ofNat_add]
        rfl
      rw [push_eq_ok v hinside hs.capacity]
      simp only [hlength, hnext]
      rfl
    · next hfull =>
      have hdepth : s.stack.depth = s.stack.slots.size :=
        Nat.le_antisymm s.stack.depth_le (Nat.le_of_not_lt hfull)
      exact push_eq_fault v (hlength.trans hdepth)
  · intro a t h
    cases hstack : s.stack.push v with
    | error fault => rw [hstack] at h; cases h
    | ok stack =>
        rw [hstack] at h
        cases h
        exact hs.withStack (Stack.capacity_push hstack)

theorem pop_follows : Follows State.Placed State.Placed pop Step.pop := by
  intro s hs
  have hlength := hs.toNat_length
  unfold Step.pop
  constructor
  · unfold Stack.pop
    split
    · next hlive =>
      have hdepth := s.stack.depth_le
      exact pop_eq_ok (by omega) (by change _ < s.stack.slots.size; omega)
    · next hempty =>
      have hzero : s.stack.depth = 0 := Nat.eq_zero_of_not_pos hempty
      exact pop_eq_fault (UInt64.toNat_inj.1 (hlength.trans hzero))
  · intro a t h
    cases hstack : s.stack.pop with
    | error fault => rw [hstack] at h; cases h
    | ok p =>
        rw [hstack] at h
        cases h
        exact hs.withStack (congrArg Array.size (Stack.slots_pop hstack))

theorem emit_follows (r : Record) : Follows State.Placed State.Placed (emit r) (Step.emit r) :=
  modify_follows fun _ hs => ⟨rfl, ⟨hs.capacity, hs.size⟩, hs.pointer⟩

theorem jumpTo_follows (target : Address) :
    Follows State.Placed State.Fits (jumpTo target) (Step.jumpTo target) :=
  modify_follows fun _ hs => ⟨rfl, hs.capacity, hs.size⟩

theorem halt_follows : Follows State.Placed State.Fits halt Step.halt :=
  modify_follows fun _ hs => ⟨rfl, hs.capacity, hs.size⟩

theorem resolve_follows (label : String) :
    Follows State.Placed State.Placed (resolve label) (Step.resolve label) := by
  intro s hs
  cases htarget : s.program.labels.resolve? label with
  | none =>
      rw [Step.resolve_eq_error htarget]
      exact ⟨resolve_eq_fault htarget, nofun⟩
  | some target =>
      rw [Step.resolve_eq_ok htarget]
      refine ⟨resolve_eq_ok htarget, ?_⟩
      intro a t h
      cases h
      exact hs

theorem quotient_eq_ok {x y : Word} (hy : y ≠ 0) : quotient x y = .ok (x.floorDiv y) := by
  unfold quotient Word.floorDiv
  rw [if_neg hy]
  split
  · next hcorrect =>
    have hlow := Word.minValue_lt_div hcorrect.1
    have hhigh := (x / y).toInt_le
    have hrange : Int64.minValue.toInt ≤ (x / y).toInt - 1 ∧
        (x / y).toInt - 1 ≤ Int64.maxValue.toInt := by omega
    rw [word, if_pos hrange, Int64.ofInt_sub, Int64.ofInt_toInt]
    rfl
  · rfl

theorem remainder_eq_ok {x y : Word} (hy : y ≠ 0) : remainder x y = .ok (x.floorMod y) := by
  unfold remainder Word.floorMod
  rw [if_neg hy]
  split
  · next hcorrect =>
    have hrange := Word.add_in_range hcorrect.2
    rw [word, if_pos hrange, Int64.ofInt_add, Int64.ofInt_toInt, Int64.ofInt_toInt]
  · rfl

theorem binary_follows (op : Word → Word → Word) :
    Follows State.Placed State.Placed (binary op) (Step.binary op) :=
  pop_follows.bind fun _ => pop_follows.bind fun _ => push_follows _

theorem check_follows {x : Except Hazard α} {a : α} (hx : x = .ok a) {h : α → Guarded β}
    {y : Step β} (hy : Follows P Q (h a) y) : Follows P Q (check x >>= h) y := by
  intro s hs
  rw [bind_of_ok (check_of_ok hx)]
  exact hy s hs

theorem division_follows {op : Word → Word → Except Hazard Word} {op' : Word → Word → Word}
    (hop : ∀ x y, y ≠ 0 → op x y = .ok (op' x y)) :
    Follows State.Placed State.Placed (division op) (Step.division op') := by
  apply pop_follows.bind
  intro y
  -- The divisor is tested before the second pop, so the operation only ever sees a good one.
  by_cases hy : y = 0
  · rw [if_pos hy, if_pos hy]
    exact fail_follows _
  · rw [if_neg hy, if_neg hy]
    apply pop_follows.bind
    intro x
    exact check_follows (hop x y hy) (push_follows _)

theorem dispatch_follows (i : Instr) :
    Follows State.Placed State.Fits (dispatch i) (Step.dispatch i) := by
  cases i with
  | push v => exact (push_follows v).bind fun _ => advance_follows
  | pop => exact pop_follows.bind fun _ => advance_follows
  | print => exact pop_follows.bind fun _ => (emit_follows _).bind fun _ => advance_follows
  | dup =>
      apply pop_follows.bind
      intro v
      exact (push_follows v).bind fun _ => (push_follows v).bind fun _ => advance_follows
  | add | sub | mul => exact (binary_follows _).bind fun _ => advance_follows
  | div => exact (division_follows fun _ _ => quotient_eq_ok).bind fun _ => advance_follows
  | mod => exact (division_follows fun _ _ => remainder_eq_ok).bind fun _ => advance_follows
  | jump label => exact (resolve_follows label).bind fun target => jumpTo_follows target
  | halt => exact halt_follows

theorem cycle_follows : Follows State.Ready State.Fits cycle Step.cycle := by
  apply fetch_follows.bind
  intro i
  exact (dispatch_follows i).bind fun _ => pure_follows i

end Guarded

/-! ## Guarded runs -/

namespace Bare

def status (b : Bare) (limits : Limits) : Status :=
  if b.halted then .halted
  else if b.executed > limits.executionLimit then .limitExceeded
  else .running

def completion (b : Bare) (status : Status) : Completion :=
  { output := b.output, status, executed := b.executed }

end Bare

theorem State.status_bare (s : State) (limits : Limits) : s.bare.status limits = s.status limits :=
  rfl

namespace Limits

/-- Runs on from a bare state for at most the given number of cycles, and looks at the live values
after each. -/
def guardedFrom (limits : Limits) : Nat → Bare → Except Hazard (Except Fault Completion)
  | 0, b => .ok (.ok (b.completion .running))
  | n + 1, b => do
    match ← Guarded.cycle b with
    | .error fault => return .error fault
    | .ok (_, c) =>
      let _ ← c.live
      match c.status limits with
      | .running => guardedFrom limits n c
      | status => return .ok (c.completion status)

def executeGuarded (limits : Limits) (program : Program) :
    Except Hazard (Except Fault Completion) :=
  match limits.validate with
  | .error fault => .ok (.error fault)
  | .ok () => do
    let stack ← (Stack.allocate limits.stackCapacity.toNat).mapError .trap
    limits.guardedFrom limits.cycles (State.start program stack).bare

variable {limits : Limits} {program : Program}

/-- Below the largest limit a run that goes on has room in its counter. -/
theorem ready_of_running {s : State} (hlimit : limits.executionLimit.toNat < 2 ^ 64 - 1)
    (hfits : s.Fits) (hstatus : s.status limits = .running) : s.Ready := by
  have hle := (State.status_eq_running_iff.1 hstatus).2
  exact ⟨hfits, by omega⟩

theorem guardedFrom_of_fault {b : Bare} {fault : Fault} (n : Nat)
    (hcycle : Guarded.cycle b = .ok (.error fault)) :
    limits.guardedFrom (n + 1) b = .ok (.error fault) := by
  rw [guardedFrom, hcycle]
  rfl

theorem guardedFrom_of_ok {b c : Bare} {i : Instr} {live : List Word} (n : Nat)
    (hcycle : Guarded.cycle b = .ok (.ok (i, c))) (hlive : c.live = .ok live) :
    limits.guardedFrom (n + 1) b = match c.status limits with
      | .running => limits.guardedFrom n c
      | status => .ok (.ok (c.completion status)) := by
  rw [guardedFrom, hcycle]
  change (c.live >>= fun _ => _) = _
  rw [hlive]
  rfl

theorem guardedFrom_bare (hlimit : limits.executionLimit.toNat < 2 ^ 64 - 1) (n : Nat) {s : State}
    (hs : s.Ready) : limits.guardedFrom n s.bare = .ok (limits.runFrom n s) := by
  -- A cycle leaves a state that fits; that its counter has room again is known only if it runs on.
  induction n generalizing s with
  | zero => rfl
  | succ n ih =>
      obtain ⟨hguarded, hpost⟩ := Guarded.cycle_follows s hs
      rw [runFrom]
      cases hcycle : Step.cycle s with
      | error fault =>
          rw [hcycle] at hguarded
          exact guardedFrom_of_fault n hguarded
      | ok p =>
          obtain ⟨i, t⟩ := p
          rw [hcycle] at hguarded
          have hfits := hpost i t hcycle
          rw [guardedFrom_of_ok n hguarded hfits.live_bare, State.status_bare]
          dsimp only
          cases hstatus : t.status limits with
          | running => exact ih (ready_of_running hlimit hfits hstatus)
          | _ => rfl

theorem allocate_of_le (hcapacity : limits.stackCapacity.toNat ≤ 2 ^ 20) :
    Stack.allocate limits.stackCapacity.toNat = .ok (.empty limits.stackCapacity.toNat) := by
  apply if_pos
  change _ < 2 ^ 60
  omega

theorem fits_after_start (hsize : program.size < 2 ^ 63) {n : Nat} {t : State}
    (h : (limits.start program).after n = .ok t) : t.Fits where
  capacity := by
    rw [capacity_after_start h]
    exact limits.stackCapacity.toNat_lt
  size := by
    rw [program_after_start h]
    omega

end Limits

/-- What makes the cycle that begins in a state safe: the counter and the pointer have room, the
live values can be read, and no check on the way finds a hazard. -/
structure State.Safe (s : State) : Prop where
  counts : s.executed.toNat + 1 < 2 ^ 64
  advances : ∀ i t, Step.cycle s = .ok (i, t) → i.transfersControl = false →
    s.pointer.toNat < s.program.size ∧ t.pointer.toNat = s.pointer.toNat + 1
  reads : s.bare.live = .ok s.stack.toList
  guarded : Guarded.cycle s.bare = .ok (bared (Step.cycle s))

theorem State.Ready.safe {s : State} (h : s.Ready) : s.Safe where
  counts := h.executed
  advances := by
    intro i t hcycle hfalls
    have hpointer : s.pointer.toNat < s.program.size :=
      (Array.getElem?_eq_some_iff.1 (Step.cycle_eq_ok_iff.1 hcycle).1).1
    have hnext := Step.successor?_of_cycle hcycle
    rw [Labels.successor?_of_falls_through _ _ hfalls] at hnext
    have hsize := h.size
    refine ⟨hpointer, ?_⟩
    rw [← Option.some.inj hnext, UInt64.toNat_add]
    exact Nat.mod_eq_of_lt (by simp; omega)
  reads := h.live_bare
  guarded := (Guarded.cycle_follows s h).1

/-- Under any limit but the largest a guarded run meets no hazard and has the result of the run,
and each of its cycles is safe by itself, wherever the jumps go. -/
theorem guarded_run_meets_no_hazard (limits : Limits) (program : Program)
    (hsize : program.size < 2 ^ 63) (hcapacity : limits.stackCapacity.toNat ≤ 2 ^ 20)
    (hlimit : limits.executionLimit.toNat < 2 ^ 64 - 1) :
    limits.executeGuarded program = .ok (limits.execute program) ∧
    ∀ j < (limits.visits program).length, ∃ s, (limits.start program).after j = .ok s ∧
      s.Safe := by
  have hvalid := limits.validate_eq_ok_iff.2 hcapacity
  constructor
  · have hstart : (limits.start program).Ready :=
      ⟨Limits.fits_after_start hsize (State.after_zero _), Nat.one_lt_two_pow (by decide)⟩
    rw [Limits.execute_of_valid hvalid, Limits.executeGuarded, hvalid,
      ← Limits.guardedFrom_bare hlimit limits.cycles hstart, Limits.allocate_of_le hcapacity]
    rfl
  · intro j hj
    obtain ⟨k, hk, hstops⟩ := Limits.exists_stops hvalid hlimit program
    rw [hstops.visited] at hj
    obtain ⟨s, hs, -⟩ := hstops.unhalted j hj
    -- The counter is the number of cycles, and the limit ends the run before that leaves the range.
    have hexecuted := Limits.toNat_executed_after_start hs (by omega)
    have hready : s.Ready := ⟨Limits.fits_after_start hsize hs, by omega⟩
    exact ⟨s, hs, hready.safe⟩

/-- A corrected quotient of the least word, and a jump to the last address there is. -/
theorem guarded_run_of_far_jump :
    let limits : Limits := { stackCapacity := 2, executionLimit := 4 }
    let program : Program := ⟨#[.push Int64.minValue, .push 3, .div, .jump "far"],
      Labels.empty.insert "far" 18446744073709551615⟩
    program.size < 2 ^ 63 ∧ limits.stackCapacity.toNat ≤ 2 ^ 20 ∧
      limits.executionLimit.toNat < 2 ^ 64 - 1 ∧
      limits.executeGuarded program = .ok (.error .illegalInstructionAccess) ∧
      ∃ s, (limits.start program).after 4 = .ok s ∧ s.pointer.toNat = 2 ^ 64 - 1 ∧ s.Safe := by
  intro limits program
  have hexecute : limits.execute program = .error .illegalInstructionAccess := by decide
  have hsize : program.size < 2 ^ 63 := by decide
  obtain ⟨hguarded, hcycles⟩ :=
    guarded_run_meets_no_hazard limits program hsize (by decide) (by decide)
  obtain ⟨s, hs, hsafe⟩ := hcycles 4 (by decide)
  have hpointer : ((limits.start program).after 4).toOption.map (·.pointer.toNat) =
      some (2 ^ 64 - 1) := by decide
  rw [hexecute] at hguarded
  rw [hs] at hpointer
  exact ⟨hsize, by decide, by decide, hguarded, s, hs, Option.some.inj hpointer, hsafe⟩

end StackMachine
