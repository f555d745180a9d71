/-!
# JSON values

The tree of a JSON text. Objects keep their members in the order of the text, repeated names
included: what a repeated name means is for the reader of each format to say.
-/

namespace StackMachine

/-- A JSON value. Integers are exact and of any size; all other numbers keep their numeral, and so
does a negative zero. A string that escapes half of a surrogate pair is JSON but no text: it is
`garbled`, and so is an object with such a member name. -/
inductive Json
  | null
  | bool (b : Bool)
  | int (n : Int)
  | decimal (numeral : String)
  | str (s : String)
  | garbled
  | arr (items : List Json)
  | obj (members : List (String × Json))

end StackMachine
