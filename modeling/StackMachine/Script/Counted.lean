import StackMachine.Step

/-!
# Counted steps

Steps composed through functions: a continuation builds the second step from the value of the
first, and a map changes the value. A counted step is a step that also counts how often such
functions were called. The count goes on even when the step faults later, so it tells how far a
composition got. A counted step may also trap, and then nothing is left of it, not even the count.
-/

namespace StackMachine

abbrev Counted := StateT State (ExceptT Fault (StateT Nat (Except Trap)))

namespace Counted

/-- A step that calls no function and does not trap. -/
def ofStep {α : Type} (step : Step α) : Counted α := fun s calls => .ok (step s, calls)

/-- Begins again with the same program and a newly allocated stack. -/
def reset (capacity : Nat) : Counted Unit := fun s calls => do
  let stack ← Stack.allocate capacity
  return (.ok ((), .start s.program stack), calls)

def call : Counted Unit := fun s calls => .ok (.ok ((), s), calls + 1)

/-- Runs a step and then the step built from its value. -/
def andThen {α β : Type} (first : Counted α) (next : α → Counted β) : Counted β := do
  let value ← first
  call
  next value

def mapValue {α β : Type} (f : α → β) (first : Counted α) : Counted β := do
  let value ← first
  call
  return f value

/-- Runs a counted step: its outcome, and the number of calls. -/
def outcome {α : Type} (step : Counted α) (s : State) :
    Except Trap (Except Fault (α × State) × Nat) :=
  step s 0

end Counted

end StackMachine
