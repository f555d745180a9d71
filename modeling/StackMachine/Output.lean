import StackMachine.Word

/-!
# Output

A machine writes nowhere. What a program prints is collected as records, in the order in which
they were emitted, and handed over when the run has ended.
-/

namespace StackMachine

inductive Record
  | emit (value : Word)
  deriving DecidableEq

namespace Record

def value : Record → Word
  | emit v => v

def text (r : Record) : String := Word.text r.value

end Record

structure Output where
  records : Array Record
  deriving DecidableEq

namespace Output

def empty : Output := ⟨#[]⟩

def append (o : Output) (r : Record) : Output := ⟨o.records.push r⟩

def ofValues (vs : List Word) : Output := ⟨(vs.map Record.emit).toArray⟩

/-- The emitted values in the order in which they were emitted. -/
def values (o : Output) : List Word := o.records.toList.map Record.value

def size (o : Output) : Nat := o.records.size

def isEmpty (o : Output) : Bool := o.records.isEmpty

@[simp] theorem values_append (o : Output) (r : Record) :
    (o.append r).values = o.values ++ [r.value] := by
  simp [append, values]

@[simp] theorem values_ofValues (vs : List Word) : (ofValues vs).values = vs := by
  simp [ofValues, values, Function.comp_def, Record.value]

end Output

end StackMachine
