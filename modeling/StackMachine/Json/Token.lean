import StackMachine.Decimal
import StackMachine.Json.Numeral
import StackMachine.Json.Text
import StackMachine.Json.Value

/-!
# JSON tokens

The marks, words, numbers and strings that a JSON text is made of, their spelling, and the tokens
of a value. Writing a value is spelling its tokens one after the other, with nothing in between.
-/

namespace StackMachine.Json

inductive Token
  | openArr
  | closeArr
  | openObj
  | closeObj
  | comma
  | colon
  | null
  | bool (b : Bool)
  | int (n : Int)
  | decimal (numeral : String)
  | str (s : String)
  | garbled
  deriving DecidableEq

namespace Token

/-- The token that a punctuation mark is. -/
def ofMark? : Char → Option Token
  | '[' => some openArr
  | ']' => some closeArr
  | '{' => some openObj
  | '}' => some closeObj
  | ',' => some comma
  | ':' => some colon
  | _ => none

/-- The token that a run of characters other than blanks, marks and quotes is. -/
def ofBare? (run : List Char) : Option Token :=
  if run = "null".toList then some null
  else if run = "true".toList then some (bool true)
  else if run = "false".toList then some (bool false)
  else
    match Numeral.integer? run with
    | some n => some (int n)
    | none => if Numeral.isNumeral run then some (decimal (String.ofList run)) else none

/-- The token that the contents of a string are. -/
def ofUnits (units : List Nat) : Token :=
  match Text.ofUnits? units with
  | some cs => str (String.ofList cs)
  | none => garbled

/-- How a token is written. A garbled string is written as the first half of a surrogate pair. -/
def spell : Token → List Char
  | openArr => ['[']
  | closeArr => [']']
  | openObj => ['{']
  | closeObj => ['}']
  | comma => [',']
  | colon => [':']
  | null => "null".toList
  | bool true => "true".toList
  | bool false => "false".toList
  | int n => Decimal.spell n
  | decimal numeral => numeral.toList
  | str s => Text.quote s
  | garbled => "\"\\ud800\"".toList

end Token

mutual

def tokens : Json → List Token
  | null => [.null]
  | bool b => [.bool b]
  | int n => [.int n]
  | decimal numeral => [.decimal numeral]
  | str s => [.str s]
  | garbled => [.garbled]
  | arr [] => [.openArr, .closeArr]
  | arr (x :: xs) => .openArr :: (x.tokens ++ restOfItems xs)
  | obj [] => [.openObj, .closeObj]
  | obj ((name, x) :: ms) => .openObj :: .str name :: .colon :: (x.tokens ++ restOfMembers ms)

/-- The tokens after the first item of an array. -/
def restOfItems : List Json → List Token
  | [] => [.closeArr]
  | x :: xs => .comma :: (x.tokens ++ restOfItems xs)

/-- The tokens after the first member of an object. -/
def restOfMembers : List (String × Json) → List Token
  | [] => [.closeObj]
  | (name, x) :: ms => .comma :: .str name :: .colon :: (x.tokens ++ restOfMembers ms)

end

def render (j : Json) : String := String.ofList (j.tokens.flatMap Token.spell)

end StackMachine.Json
