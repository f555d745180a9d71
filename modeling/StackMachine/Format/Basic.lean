import StackMachine.Json.Reader
import StackMachine.Word

/-!
# JSON formats

A format gives each value of a type a JSON value to be written as, and says which JSON values are
read as a value of the type. Reading is more liberal than writing. This module has the formats of
integers and lists, and the rule for looking up a member that must occur exactly once.
-/

namespace StackMachine

class JsonFormat (α : Type) where
  toJson : α → Json
  ofJson? : Json → Option α

namespace JsonFormat

def write {α : Type} [JsonFormat α] (a : α) : String := (toJson a).render

def read? {α : Type} [JsonFormat α] (text : String) : Option α := Json.parse? text >>= ofJson?

/-- A word is an integer of its range. -/
instance : JsonFormat Word where
  toJson v := .int v.toInt
  ofJson?
    | .int n =>
      if Int64.minValue.toInt ≤ n ∧ n ≤ Int64.maxValue.toInt then some (Int64.ofInt n) else none
    | _ => none

/-- An address or a count is an integer of its range. -/
instance : JsonFormat UInt64 where
  toJson n := .int n.toNat
  ofJson?
    | .int n => if 0 ≤ n ∧ n < UInt64.size then some (UInt64.ofNat n.toNat) else none
    | _ => none

instance : JsonFormat String where
  toJson := .str
  ofJson?
    | .str s => some s
    | _ => none

instance {α : Type} [JsonFormat α] : JsonFormat (List α) where
  toJson as := .arr (as.map toJson)
  ofJson?
    | .arr items => items.mapM ofJson?
    | _ => none

/-- The value of a member whose name occurs exactly once. -/
def member? (name : String) (members : List (String × Json)) : Option Json :=
  match members.filter (·.1 == name) with
  | [m] => some m.2
  | _ => none

end JsonFormat

end StackMachine
