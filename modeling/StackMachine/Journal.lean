import StackMachine.Run

/-!
# The journal of a run

The events that an observer of a run is told about: one for each instruction executed, then one
for the end of the run. A rejected configuration has a single event of its own.
-/

namespace StackMachine

inductive Event
  | rejected (fault : Fault)
  /-- The instruction at `pointer` was executed and left a stack of the given depth. -/
  | dispatched (pointer : Address) (instr : Instr) (depth : Nat)
  /-- The cycle that began at `pointer` failed. -/
  | failed (fault : Fault) (pointer : Address)
  | finished (status : Status) (executed : Count) (records : Nat)
  deriving DecidableEq

namespace Limits

/-- The events of a run that goes on from a state for at most the given number of cycles. -/
def journalFrom (limits : Limits) : Nat → State → List Event
  | 0, _ => []
  | n + 1, s =>
    let pointer := s.pointer
    match Step.cycle s with
    | .error fault => [.failed fault pointer]
    | .ok (instr, t) =>
      .dispatched pointer instr t.stack.depth ::
        match t.status limits with
        | .running => journalFrom limits n t
        | status => [.finished status t.executed t.output.size]

def journal (limits : Limits) (program : Program) : List Event :=
  match limits.validate with
  | .error fault => [.rejected fault]
  | .ok () => limits.journalFrom limits.cycles (.initial program limits.stackCapacity.toNat)

end Limits

end StackMachine
