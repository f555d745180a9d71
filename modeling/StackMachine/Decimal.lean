/-!
# Decimal numerals

The one way in which the machine writes integers: digits without superfluous zeros, after a minus
sign if the integer is negative.
-/

namespace StackMachine.Decimal

/-- The characters of an integer's numeral. -/
def spell : Int → List Char
  | .ofNat n => Nat.toDigits 10 n
  | .negSucc n => '-' :: Nat.toDigits 10 (n + 1)

def text (n : Int) : String := String.ofList (spell n)

end StackMachine.Decimal
