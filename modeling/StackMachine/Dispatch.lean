import StackMachine.Step

/-!
# Executing instructions

Each instruction is a sequence of steps. All but the two that transfer control end by advancing
the pointer. A binary operation takes its right operand off the stack first, and a division rejects
a zero divisor before it looks for the dividend.
-/

namespace StackMachine

namespace Step

/-- Replaces the two highest values `x`, `y` by `op x y`. -/
def binary (op : Word → Word → Word) : Step Unit := do
  let y ← pop
  let x ← pop
  push (op x y)

/-- Like `binary`, for an operation that is undefined at a zero right operand. -/
def division (op : Word → Word → Word) : Step Unit := do
  let y ← pop
  if y = 0 then fail .divideByZero
  else
    let x ← pop
    push (op x y)

/-- Executes an instruction, without counting it. -/
def dispatch : Instr → Step Unit
  | .push v => do push v; advance
  | .pop => do
    let _ ← pop
    advance
  | .print => do
    let v ← pop
    emit (.emit v)
    advance
  | .dup => do
    let v ← pop
    push v
    push v
    advance
  | .add => do binary (· + ·); advance
  | .sub => do binary (· - ·); advance
  | .mul => do binary (· * ·); advance
  | .div => do division Word.floorDiv; advance
  | .mod => do division Word.floorMod; advance
  | .jump label => do
    let target ← resolve label
    jumpTo target
  | .halt => halt

/-- Fetches the next instruction, executes it and yields it. -/
def cycle : Step Instr := do
  let instr ← fetch
  dispatch instr
  return instr

end Step

end StackMachine
