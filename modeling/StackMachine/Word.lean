import StackMachine.Decimal
import StackMachine.Fault

/-!
# Machine words

Values on the operand stack are signed 64-bit words with wrapping arithmetic; positions in a
program and instruction counts are unsigned 64-bit words. Division rounds towards negative
infinity, and the remainder takes the sign of the divisor.
-/

namespace StackMachine

abbrev Word := Int64

/-- A position in a program. It need not be the position of an instruction. -/
abbrev Address := UInt64

/-- A number of executed instructions. -/
abbrev Count := UInt64

namespace Word

/-- The quotient rounded towards negative infinity, from the quotient rounded towards zero: they
differ exactly when the division is not exact and the operands have different signs. -/
def floorDiv (x y : Word) : Word :=
  if x % y ≠ 0 ∧ decide (x < 0) ≠ decide (y < 0) then x / y - 1 else x / y

/-- The remainder that goes with `floorDiv`: zero, or of the divisor's sign. -/
def floorMod (x y : Word) : Word :=
  if x % y ≠ 0 ∧ decide (x % y < 0) ≠ decide (y < 0) then x % y + y else x % y

/-- The rounded quotient, for a divisor that may be zero. -/
def divide (x y : Word) : Except Trap Word :=
  if y = 0 then .error .zeroDivisor else .ok (floorDiv x y)

def modulo (x y : Word) : Except Trap Word :=
  if y = 0 then .error .zeroModulus else .ok (floorMod x y)

def text (x : Word) : String := Decimal.text x.toInt

end Word

end StackMachine
