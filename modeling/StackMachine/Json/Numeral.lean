/-!
# JSON numerals

A numeral is an optional minus sign, a whole part without superfluous zeros, an optional fraction
and an optional exponent. It is an integer if it has neither fraction nor exponent and is not the
negative zero.
-/

namespace StackMachine.Json.Numeral

/-- Whether the characters are `0` or digits that do not begin with `0`. -/
def isWhole (cs : List Char) : Bool :=
  cs == ['0'] || (!cs.isEmpty && cs.head? != some '0' && cs.all Char.isDigit)

/-- The number that a whole part stands for. -/
def whole? (cs : List Char) : Option Nat :=
  if isWhole cs then some (Nat.ofDigitChars 10 cs 0) else none

def integer? : List Char → Option Int
  | '-' :: cs =>
    match whole? cs with
    | some (n + 1) => some (.negSucc n)
    | _ => none
  | cs => Int.ofNat <$> whole? cs

def skipSign : List Char → List Char
  | '-' :: cs => cs
  | cs => cs

/-- Drops the leading digits, of which there must be one. -/
def skipDigits? (cs : List Char) : Option (List Char) :=
  if (cs.takeWhile Char.isDigit).isEmpty then none else some (cs.dropWhile Char.isDigit)

def skipFraction? : List Char → Option (List Char)
  | '.' :: cs => skipDigits? cs
  | cs => some cs

def skipExponent? : List Char → Option (List Char)
  | 'e' :: '+' :: cs | 'e' :: '-' :: cs | 'E' :: '+' :: cs | 'E' :: '-' :: cs => skipDigits? cs
  | 'e' :: cs | 'E' :: cs => skipDigits? cs
  | cs => some cs

/-- Whether the characters are a numeral of any kind. -/
def isNumeral (cs : List Char) : Bool :=
  let unsigned := skipSign cs
  isWhole (unsigned.takeWhile Char.isDigit) &&
    (skipFraction? (unsigned.dropWhile Char.isDigit) >>= skipExponent?) == some []

end StackMachine.Json.Numeral
