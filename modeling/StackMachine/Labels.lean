import Std.Data.ExtTreeMap
import StackMachine.Word

/-!
# Label tables

A label table is a finite map from names to addresses. Two tables are equal exactly when they
resolve every name alike, however they were built. Targets are not checked against any program: a
target past the end shows only when something is fetched from it.
-/

namespace StackMachine

structure Labels where
  targets : Std.ExtTreeMap String Address
  deriving DecidableEq

namespace Labels

def empty : Labels := ⟨∅⟩

def resolve? (t : Labels) (name : String) : Option Address := t.targets[name]?

def contains (t : Labels) (name : String) : Bool := t.targets.contains name

def size (t : Labels) : Nat := t.targets.size

def isEmpty (t : Labels) : Bool := t.targets.isEmpty

/-- Binds a name, in place of any earlier binding of it. -/
def insert (t : Labels) (name : String) (target : Address) : Labels :=
  ⟨t.targets.insert name target⟩

/-- Binds a name and tells what it was bound to before. -/
def rebind (t : Labels) (name : String) (target : Address) : Option Address × Labels :=
  (t.resolve? name, t.insert name target)

/-- Binds the names one after the other, so the last binding of a name counts. -/
def ofList (bindings : List (String × Address)) : Labels :=
  bindings.foldl (fun t b => t.insert b.1 b.2) empty

/-- The bindings in the order of their names. -/
def toList (t : Labels) : List (String × Address) := t.targets.toList

@[simp] theorem resolve?_empty (name : String) : empty.resolve? name = none := by
  simp [empty, resolve?]

theorem resolve?_insert (t : Labels) (name other : String) (target : Address) :
    (t.insert name target).resolve? other =
      if name = other then some target else t.resolve? other := by
  simp [insert, resolve?, Std.ExtTreeMap.getElem?_insert]

end Labels

end StackMachine
