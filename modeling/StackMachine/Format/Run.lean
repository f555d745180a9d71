import StackMachine.Format.Basic
import StackMachine.Run

/-!
# JSON formats of limits, output, statuses and completions

Limits are an object with two members among others, or an array of the two. Output is an array of
records. A status is its name, or an object with that name and null. Completions are only written.
-/

namespace StackMachine

open JsonFormat

namespace Limits

def toJson (l : Limits) : Json :=
  .obj [("stack_capacity", JsonFormat.toJson l.stackCapacity),
    ("execution_limit", JsonFormat.toJson l.executionLimit)]

/-- The limits that two JSON values describe. -/
def ofParts? (stackCapacity executionLimit : Json) : Option Limits := do
  let stackCapacity ← JsonFormat.ofJson? stackCapacity
  let executionLimit ← JsonFormat.ofJson? executionLimit
  return { stackCapacity, executionLimit }

def ofJson? : Json → Option Limits
  | .arr [stackCapacity, executionLimit] => ofParts? stackCapacity executionLimit
  | .obj members => do
    let stackCapacity ← member? "stack_capacity" members
    let executionLimit ← member? "execution_limit" members
    ofParts? stackCapacity executionLimit
  | _ => none

instance : JsonFormat Limits := ⟨toJson, ofJson?⟩

end Limits

namespace Record

def toJson : Record → Json
  | emit v => .obj [("Emit", JsonFormat.toJson v)]

def ofJson? : Json → Option Record
  | .obj [("Emit", v)] => emit <$> JsonFormat.ofJson? v
  | _ => none

instance : JsonFormat Record := ⟨toJson, ofJson?⟩

end Record

namespace Output

def toJson (o : Output) : Json := JsonFormat.toJson o.records.toList

def ofJson? (j : Json) : Option Output := do
  let records : List Record ← JsonFormat.ofJson? j
  return ⟨records.toArray⟩

instance : JsonFormat Output := ⟨toJson, ofJson?⟩

end Output

namespace Status

def name : Status → String
  | running => "Running"
  | halted => "Halted"
  | limitExceeded => "LimitExceeded"
  | errored => "Errored"

def ofName? : String → Option Status
  | "Running" => some running
  | "Halted" => some halted
  | "LimitExceeded" => some limitExceeded
  | "Errored" => some errored
  | _ => none

def toJson (s : Status) : Json := .str s.name

def ofJson? : Json → Option Status
  | .str name => ofName? name
  | .obj [(name, .null)] => ofName? name
  | _ => none

instance : JsonFormat Status := ⟨toJson, ofJson?⟩

end Status

namespace Completion

def toJson (c : Completion) : Json :=
  .obj [("output", JsonFormat.toJson c.output), ("status", JsonFormat.toJson c.status),
    ("instructions_executed", JsonFormat.toJson c.executed)]

def text (c : Completion) : String := c.toJson.render

end Completion

end StackMachine
