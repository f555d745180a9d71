import StackMachine.Script.Basic

/-!
# Commands

A command runs a script against a state and keeps the value, the next state or both. A script that
faults leaves the state as it was, and so does one that is run for its value only. A script that
traps ends a sequence of commands without any reply.
-/

namespace StackMachine

inductive Command
  | run (script : Script)
  | exec (script : Script)
  | eval (script : Script)

inductive Reply
  | valueAndState (v : Value) (s : State)
  | stateOnly (s : State)
  | valueOnly (v : Value)
  | failed (fault : Fault)

namespace Command

def script : Command → Script
  | run e | exec e | eval e => e

/-- Performs a command: the reply, the number of calls and the state for the next command. -/
def perform (c : Command) (s : State) : Except Trap (Reply × Nat × State) := do
  let (outcome, calls) ← c.script.eval.outcome s
  return match c, outcome with
    | _, .error fault => (.failed fault, calls, s)
    | .run _, .ok (v, t) => (.valueAndState v t, calls, t)
    | .exec _, .ok (_, t) => (.stateOnly t, calls, t)
    | .eval _, .ok (v, _) => (.valueOnly v, calls, s)

/-- Performs commands one after the other: what each has to show, and the last state. -/
def performAll : List Command → State → Except Trap (List (Reply × Nat) × State)
  | [], s => .ok ([], s)
  | c :: cs, s => do
    let (reply, calls, t) ← c.perform s
    let (replies, final) ← performAll cs t
    return ((reply, calls) :: replies, final)

end Command

end StackMachine
