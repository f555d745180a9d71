import StackMachine.Json.Lexer

/-!
# Reading a JSON text

The tree is built while the tokens pass by, one token at a time. What has been read is the values
and names around the current place, from the inside to the outside, and what may come next there.
Exactly one value with nothing after it is a JSON text.
-/

namespace StackMachine.Json

/-- The members read so far, latest first; there are none to tell if a name was garbled. -/
abbrev Members := Option (List (String × Json))

/-- An unfinished array or object around a value. -/
inductive Frame
  /-- The items before the value, latest first. -/
  | items (before : List Json)
  /-- The members before the value, and the value's name. -/
  | members (before : Members) (name : Option String)

/-- What has been read of a sequence of tokens, named for what must follow. -/
inductive Reader
  | value (around : List Frame)
  /-- An array was opened: a value or the end of the array must follow. -/
  | firstItem (around : List Frame)
  /-- An object was opened: a name or the end of the object must follow. -/
  | firstName (around : List Frame)
  | nextName (around : List Frame) (before : Members)
  | colon (around : List Frame) (before : Members) (name : Option String)
  | complete (around : List Frame) (v : Json)

namespace Reader

def start : Reader := .value []

/-- The members read so far with one more. -/
def addMember (before : Members) (name : Option String) (v : Json) : Members := do
  let before ← before
  let name ← name
  return (name, v) :: before

/-- The object with the given members, latest first. -/
def closeObject : Members → Json
  | some before => .obj before.reverse
  | none => .garbled

def readValue? (around : List Frame) : Token → Option Reader
  | .openArr => some (.firstItem around)
  | .openObj => some (.firstName around)
  | .null => some (.complete around .null)
  | .bool b => some (.complete around (.bool b))
  | .int n => some (.complete around (.int n))
  | .decimal numeral => some (.complete around (.decimal numeral))
  | .str s => some (.complete around (.str s))
  | .garbled => some (.complete around .garbled)
  | .closeArr | .closeObj | .comma | .colon => none

def readName? (around : List Frame) (before : Members) : Token → Option Reader
  | .str s => some (.colon around before (some s))
  | .garbled => some (.colon around before none)
  | _ => none

def read? : Reader → Token → Option Reader
  | .value around, t => readValue? around t
  | .firstItem around, .closeArr => some (.complete around (.arr []))
  | .firstItem around, t => readValue? (.items [] :: around) t
  | .firstName around, .closeObj => some (.complete around (.obj []))
  | .firstName around, t => readName? around (some []) t
  | .nextName around before, t => readName? around before t
  | .colon around before name, .colon => some (.value (.members before name :: around))
  | .colon .., _ => none
  | .complete (.items before :: around) v, .comma => some (.value (.items (v :: before) :: around))
  | .complete (.items before :: around) v, .closeArr =>
    some (.complete around (.arr (v :: before).reverse))
  | .complete (.members before name :: around) v, .comma =>
    some (.nextName around (addMember before name v))
  | .complete (.members before name :: around) v, .closeObj =>
    some (.complete around (closeObject (addMember before name v)))
  | .complete .., _ => none

/-- The value that has been read, if it is complete and nothing is around it. -/
def finish? : Reader → Option Json
  | .complete [] v => some v
  | _ => none

end Reader

def ofTokens? (ts : List Token) : Option Json :=
  ts.foldlM Reader.read? Reader.start >>= Reader.finish?

def parse? (text : String) : Option Json :=
  lex? text.toList >>= ofTokens?

end StackMachine.Json
