import StackMachine.Format.Run
import StackMachine.Journal

/-!
# JSON format of journals

An event is an object with a level and the event's fields, the message among them. The span around
the events of a run tells what was run, and under which limits.
-/

namespace StackMachine

open JsonFormat

/-- How much an observer wants to know. -/
inductive Level
  | debug
  | trace

def Level.name : Level → String
  | debug => "DEBUG"
  | trace => "TRACE"

namespace Event

def level : Event → Level
  | dispatched .. => .trace
  | _ => .debug

def message : Event → String
  | rejected _ => "config rejected"
  | dispatched .. => "dispatched"
  | failed .. => "run failed"
  | finished .. => "run finished"

/-- The fields of an event other than its message. -/
def fields : Event → List (String × Json)
  | rejected fault => [("error", .str fault.message), ("code", .int fault.code)]
  | dispatched pointer instr depth =>
    [("pointer", toJson pointer), ("instruction", .str instr.text),
      ("jumped", .bool instr.transfersControl), ("depth", .int depth)]
  | failed fault pointer =>
    [("error", .str fault.message), ("code", .int fault.code), ("pointer", toJson pointer),
      ("status", toJson Status.errored)]
  | finished status executed records =>
    [("status", toJson status), ("instructions_executed", toJson executed),
      ("records", .int records)]

def json (e : Event) : Json :=
  .obj [("level", .str e.level.name), ("fields", .obj (("message", .str e.message) :: e.fields))]

end Event

namespace Limits

/-- The span of a run of a program under these limits. -/
def span (limits : Limits) (program : Program) : Json :=
  .obj [("name", .str "execute_with_labels"), ("level", .str Level.debug.name),
    ("fields", .obj [("instructions", .int program.size), ("labels", .int program.labels.size),
      ("stack_capacity", JsonFormat.toJson limits.stackCapacity),
      ("execution_limit", JsonFormat.toJson limits.executionLimit)])]

end Limits

end StackMachine
