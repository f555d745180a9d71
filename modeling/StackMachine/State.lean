import StackMachine.Limits
import StackMachine.Output
import StackMachine.Program
import StackMachine.Stack

/-!
# Machine states

What a run carries from one instruction to the next. The program never changes during a run.
-/

namespace StackMachine

inductive Status
  | running
  | halted
  | limitExceeded
  | errored
  deriving DecidableEq

def Status.isTerminal : Status → Bool
  | running => false
  | _ => true

structure State where
  stack : Stack
  pointer : Address
  program : Program
  halted : Bool
  /-- How many instructions have been fetched. -/
  executed : Count
  output : Output
  deriving DecidableEq

namespace State

/-- The state before the first instruction, with a given stack. -/
def start (program : Program) (stack : Stack) : State :=
  { stack, pointer := 0, program, halted := false, executed := 0, output := .empty }

/-- The state before the first instruction, with an empty stack. -/
def initial (program : Program) (capacity : Nat) : State := start program (.empty capacity)

/-- The status of a run that has come to this state. A halt counts before the limit. -/
def status (s : State) (limits : Limits) : Status :=
  if s.halted then .halted
  else if s.executed > limits.executionLimit then .limitExceeded
  else .running

end State

end StackMachine
