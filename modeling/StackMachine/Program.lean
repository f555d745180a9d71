import StackMachine.Instr
import StackMachine.Labels

/-!
# Programs and their listings

A program is a sequence of instructions with the label table its jumps go through. Its listing has
one line for each instruction.
-/

namespace StackMachine

structure Program where
  code : Array Instr
  labels : Labels
  deriving DecidableEq

namespace Program

def empty : Program := ⟨#[], .empty⟩

def size (p : Program) : Nat := p.code.size

def isEmpty (p : Program) : Bool := p.code.isEmpty

def fetch? (p : Program) (a : Address) : Option Instr := p.code[a.toNat]?

/-- One line of a listing: the index in at least four columns, two spaces and the instruction. -/
def listingLine (index : Nat) (instr : Instr) : String :=
  String.ofList (List.leftpad 4 ' ' (Nat.toDigits 10 index)) ++ "  " ++ instr.text ++ "\n"

def listing (p : Program) : String :=
  String.join (p.code.toList.zipIdx.map fun (instr, index) => listingLine index instr)

/-- The last lines of a text in which every line is ended by a newline. -/
def lastLines (count : Nat) (text : String) : String :=
  let lines := (text.splitOn "\n").dropLast
  String.join ((lines.drop (lines.length - count)).map (· ++ "\n"))

end Program

end StackMachine
