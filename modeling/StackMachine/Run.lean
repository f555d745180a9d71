import StackMachine.Dispatch

/-!
# Runs

A run repeats the cycle until an instruction faults, a halt is executed or more instructions have
been executed than the limit allows, whichever comes first; when a halt and the limit come in the
same cycle, the halt counts. The count is tested after each cycle, so a limit of `n` allows `n + 1`
cycles, and a run needs no other bound: only under the largest limit can the count never pass it,
and then a run is given up, with the status `running`, after as many cycles as there are counts.
-/

namespace StackMachine

/-- What a run that did not fail has to show. -/
structure Completion where
  output : Output
  status : Status
  executed : Count
  deriving DecidableEq

def State.completion (s : State) (status : Status) : Completion :=
  { output := s.output, status, executed := s.executed }

namespace Limits

/-- Runs on from a state for at most the given number of cycles. -/
def runFrom (limits : Limits) : Nat → State → Except Fault Completion
  | 0, s => .ok (s.completion .running)
  | n + 1, s =>
    match Step.cycle s with
    | .error fault => .error fault
    | .ok (_, t) =>
      match t.status limits with
      | .running => runFrom limits n t
      | status => .ok (t.completion status)

/-- The number of cycles that a run under these limits can have. -/
def cycles (limits : Limits) : Nat := limits.executionLimit.toNat + 1

def execute (limits : Limits) (program : Program) : Except Fault Completion := do
  limits.validate
  limits.runFrom limits.cycles (.initial program limits.stackCapacity.toNat)

def run (limits : Limits) (program : Program) : Except Fault Output :=
  (·.output) <$> limits.execute program

end Limits

def run (program : Program) : Except Fault Output := Limits.run {} program

end StackMachine
