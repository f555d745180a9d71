import StackMachine.Fault
import StackMachine.Word

/-!
# Limits of a run

How many values the stack may hold and how many instructions may be executed. The limits only
describe; a run enforces them.
-/

namespace StackMachine

def Limits.stackCapacityDefault : UInt64 := 1024

def Limits.executionLimitDefault : Count := 100

structure Limits where
  /-- How many values the stack may hold. -/
  stackCapacity : UInt64 := Limits.stackCapacityDefault
  /-- A run stops once more than this many instructions have been executed. -/
  executionLimit : Count := Limits.executionLimitDefault
  deriving DecidableEq

namespace Limits

def maxStackCapacity : UInt64 := 1048576

def validate (l : Limits) : Except Fault Unit :=
  if l.stackCapacity > maxStackCapacity then .error .invalidConfig else .ok ()

/-- Replaces the stack capacity if the result is valid. -/
def withStackCapacity? (l : Limits) (capacity : UInt64) : Except Fault Limits := do
  let changed := { l with stackCapacity := capacity }
  changed.validate
  return changed

end Limits

end StackMachine
