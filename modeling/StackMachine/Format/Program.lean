import StackMachine.Format.Basic
import StackMachine.Program

/-!
# JSON formats of instructions, label tables and programs

An instruction without operand is its name, or an object with that name and null; one with an
operand is an object with one member. A label table is an object, in which the last of several
members of one name counts. A program is an object with two members among others, or an array of
the two.
-/

namespace StackMachine

open JsonFormat

namespace Instr

/-- The instruction without operand that a name stands for. -/
def ofName? : String → Option Instr
  | "Pop" => some pop
  | "Print" => some print
  | "Add" => some add
  | "Sub" => some sub
  | "Mul" => some mul
  | "Div" => some div
  | "Mod" => some mod
  | "Halt" => some halt
  | "Dup" => some dup
  | _ => none

def toJson : Instr → Json
  | push v => .obj [("Push", JsonFormat.toJson v)]
  | pop => .str "Pop"
  | print => .str "Print"
  | add => .str "Add"
  | sub => .str "Sub"
  | mul => .str "Mul"
  | div => .str "Div"
  | mod => .str "Mod"
  | jump label => .obj [("Jump", .str label)]
  | halt => .str "Halt"
  | dup => .str "Dup"

def ofJson? : Json → Option Instr
  | .str name => ofName? name
  | .obj [("Push", operand)] => push <$> JsonFormat.ofJson? operand
  | .obj [("Jump", operand)] => jump <$> JsonFormat.ofJson? operand
  | .obj [(name, .null)] => ofName? name
  | _ => none

instance : JsonFormat Instr := ⟨toJson, ofJson?⟩

end Instr

namespace Labels

def toJson (t : Labels) : Json :=
  .obj (t.toList.map fun b => (b.1, JsonFormat.toJson b.2))

def ofJson? : Json → Option Labels
  | .obj members => ofList <$> members.mapM fun m => (m.1, ·) <$> JsonFormat.ofJson? m.2
  | _ => none

instance : JsonFormat Labels := ⟨toJson, ofJson?⟩

end Labels

namespace Program

def toJson (p : Program) : Json :=
  .obj [("instructions", JsonFormat.toJson p.code.toList), ("labels", JsonFormat.toJson p.labels)]

/-- The program that two JSON values describe. -/
def ofParts? (code labels : Json) : Option Program := do
  let code : List Instr ← JsonFormat.ofJson? code
  let labels ← JsonFormat.ofJson? labels
  return ⟨code.toArray, labels⟩

def ofJson? : Json → Option Program
  | .arr [code, labels] => ofParts? code labels
  | .obj members => do
    let code ← member? "instructions" members
    let labels ← member? "labels" members
    ofParts? code labels
  | _ => none

instance : JsonFormat Program := ⟨toJson, ofJson?⟩

end Program

end StackMachine
