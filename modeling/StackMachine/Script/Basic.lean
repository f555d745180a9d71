import StackMachine.Dispatch
import StackMachine.Script.Counted

/-!
# Scripts

A script is a composition of steps written down as data, so that it can be handed over, stored and
run against a state. Every script yields a value.
-/

namespace StackMachine

inductive Value
  | unit
  | word (v : Word)
  | index (n : UInt64)
  | flag (b : Bool)
  | instr (i : Instr)
  | state (s : State)

/-- The number that a value stands for where one is needed: an index is reduced to a word, and a
value that is no number counts as zero. -/
def Value.toWord : Value → Word
  | word v => v
  | index n => n.toInt64
  | _ => 0

inductive Query
  | pointer
  | depth
  | executed
  | outputSize
  | halted
  | full
  | empty
  | top

def Query.answer (s : State) : Query → Value
  | pointer => .index s.pointer
  | depth => .index (UInt64.ofNat s.stack.depth)
  | executed => .index s.executed
  | outputSize => .index (UInt64.ofNat s.output.size)
  | halted => .flag s.halted
  | full => .flag s.stack.isFull
  | empty => .flag s.stack.isEmpty
  | top =>
    match s.stack.top? with
    | some v => .word v
    | none => .unit

inductive Adjustment
  | negate
  | double
  | add (k : Word)

def Adjustment.apply : Adjustment → Word → Word
  | negate, v => -v
  | double, v => v + v
  | add k, v => v + k

mutual

inductive Script
  | unit
  | pure (v : Word)
  | fail (fault : Fault)
  | get
  | query (q : Query)
  | fetch
  | advance
  | halt
  | jumpTo (target : Address)
  | push (v : Word)
  | pop
  | emit (v : Word)
  | resolve (label : String)
  | dispatch (instr : Instr)
  | next (first second : Script)
  /-- Runs a script and then what the continuation makes of its value. -/
  | andThen (first : Script) (continuation : Continuation)
  /-- Runs a script and adjusts the number it yields. -/
  | map (first : Script) (adjustment : Adjustment)
  /-- Runs a script and puts back the state from before. -/
  | restore (inner : Script)
  /-- Begins again with the same program and another stack capacity. -/
  | reset (capacity : UInt64)

inductive Continuation
  | push
  | jumpTo
  | emit
  | pushTwice
  | pure
  | dispatch
  | const (script : Script)

end

/-- A step that yields nothing of interest. -/
def Counted.silent (step : Step Unit) : Counted Value := ofStep do
  step
  return .unit

def Script.sequence (scripts : List Script) : Script := scripts.foldl .next .unit

open Counted (ofStep silent)

mutual

/-- The counted step that a script describes. -/
def Script.eval : Script → Counted Value
  | .unit => return .unit
  | .pure v => return .word v
  | .fail fault => ofStep (Step.fail fault)
  | .get => ofStep do return .state (← MonadState.get)
  | .query q => ofStep do return q.answer (← MonadState.get)
  | .fetch => ofStep do return .instr (← Step.fetch)
  | .advance => silent Step.advance
  | .halt => silent Step.halt
  | .jumpTo target => silent (Step.jumpTo target)
  | .push v => silent (Step.push v)
  | .pop => ofStep do return .word (← Step.pop)
  | .emit v => silent (Step.emit (.emit v))
  | .resolve label => ofStep do return .index (← Step.resolve label)
  | .dispatch instr => silent (Step.dispatch instr)
  | .next first second => do
    let _ ← first.eval
    second.eval
  | .andThen first continuation => Counted.andThen first.eval continuation.build
  | .map first adjustment =>
    Counted.mapValue (fun v => .word (adjustment.apply v.toWord)) first.eval
  | .restore inner => do
    let before ← get
    let _ ← inner.eval
    set before
    return .unit
  | .reset capacity => do
    Counted.reset capacity.toNat
    return .unit

/-- The counted step that a continuation builds from a value. -/
def Continuation.build : Continuation → Value → Counted Value
  | .push, v => silent (Step.push v.toWord)
  | .jumpTo, v => silent (Step.jumpTo v.toWord.toUInt64)
  | .emit, v => silent (Step.emit (.emit v.toWord))
  | .pushTwice, v => silent do Step.push v.toWord; Step.push v.toWord
  | .pure, v => return v
  | .dispatch, .instr i => silent (Step.dispatch i)
  | .dispatch, _ => return .unit
  | .const script, _ => script.eval

end

end StackMachine
