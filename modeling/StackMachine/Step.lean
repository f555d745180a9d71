import StackMachine.State

/-!
# Steps

A step takes a state and either yields a value with the next state or faults. A step that faults
yields no state, so whoever ran it still has the state from before. This module has the steps from
which every instruction is made.
-/

namespace StackMachine

abbrev Step := StateT State (Except Fault)

namespace Step

def fail {α : Type} (fault : Fault) : Step α := fun _ => .error fault

/-- Yields the instruction under the pointer and counts it as executed. The pointer stays. -/
def fetch : Step Instr := fun s =>
  match s.program.fetch? s.pointer with
  | some instr => .ok (instr, { s with executed := s.executed + 1 })
  | none => .error .illegalInstructionAccess

def advance : Step Unit := modify fun s => { s with pointer := s.pointer + 1 }

/-- Moves the pointer anywhere; only the next fetch tells whether something is there. -/
def jumpTo (target : Address) : Step Unit := modify fun s => { s with pointer := target }

def halt : Step Unit := modify fun s => { s with halted := true }

def push (v : Word) : Step Unit := fun s => do
  let stack ← s.stack.push v
  return ((), { s with stack })

def pop : Step Word := fun s => do
  let (v, stack) ← s.stack.pop
  return (v, { s with stack })

def emit (r : Record) : Step Unit := modify fun s => { s with output := s.output.append r }

def resolve (label : String) : Step Address := fun s =>
  match s.program.labels.resolve? label with
  | some target => .ok (target, s)
  | none => .error .labelNotFound

end Step

end StackMachine
