/-!
# Faults and traps

A *fault* ends a run and is all that is left of it. A *trap* is a misuse of one of the
library's functions outside any run.
-/

namespace StackMachine

inductive Fault
  | stackUnderflow
  | stackOverflow
  | divideByZero
  | illegalInstructionAccess
  | labelNotFound
  | invalidConfig
  deriving DecidableEq

namespace Fault

def message : Fault → String
  | stackUnderflow => "stack underflow"
  | stackOverflow => "stack overflow"
  | divideByZero => "divide by zero"
  | illegalInstructionAccess => "illegal instruction access"
  | labelNotFound => "label not found"
  | invalidConfig => "invalid machine config"

/-- The stable number of a fault. -/
def code : Fault → Nat
  | stackUnderflow => 1001
  | stackOverflow => 1002
  | divideByZero => 1003
  | illegalInstructionAccess => 1004
  | labelNotFound => 1005
  | invalidConfig => 1006

def isStackFault : Fault → Bool
  | stackUnderflow | stackOverflow => true
  | _ => false

end Fault

/-- Why a library function has no answer. -/
inductive Trap
  | zeroDivisor
  | zeroModulus
  | capacityOverflow
  deriving DecidableEq

def Trap.message : Trap → String
  | zeroDivisor => "attempt to divide by zero"
  | zeroModulus => "attempt to calculate the remainder with a divisor of zero"
  | capacityOverflow => "capacity overflow"

end StackMachine
