import StackMachine.Word

/-!
# Instructions

The instruction set and its assembly text: a mnemonic, followed by a space and the operand for the
two instructions that have one.
-/

namespace StackMachine

inductive Instr
  | push (value : Word)
  | pop
  | print
  | add
  | sub
  | mul
  | div
  | mod
  | jump (label : String)
  | halt
  | dup
  deriving DecidableEq

namespace Instr

def mnemonic : Instr → String
  | push _ => "PUSH"
  | pop => "POP"
  | print => "PRINT"
  | add => "ADD"
  | sub => "SUB"
  | mul => "MUL"
  | div => "DIV"
  | mod => "MOD"
  | jump _ => "JUMP"
  | halt => "HALT"
  | dup => "DUP"

def text : Instr → String
  | push value => "PUSH " ++ Word.text value
  | jump label => "JUMP " ++ label
  | instr => instr.mnemonic

/-- Whether the instruction sets the pointer itself instead of falling through to the next. -/
def transfersControl : Instr → Bool
  | jump _ | halt => true
  | _ => false

end Instr

end StackMachine
