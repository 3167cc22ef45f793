import SemanticCore.Arena.Pool

/-!
# Side tables

What one pass notes about nodes, apart from the tree: a table from handles to values, in the order
in which handles came in first.
-/

namespace SemanticCore

/-- A table from handles to values. -/
structure SideTable (α : Type) where
  entries : List (Handle × α) := []

namespace SideTable

variable {α : Type}

instance : Inhabited (SideTable α) := ⟨{}⟩

/-- The value of a handle. -/
def get? (t : SideTable α) (id : Handle) : Option α := t.entries.lookup id

/-- Whether a handle has a value. -/
def contains (t : SideTable α) (id : Handle) : Bool := (t.get? id).isSome

/-- Gives a handle a value; a handle that has one keeps its place. -/
def insert (t : SideTable α) (id : Handle) (value : α) : SideTable α :=
  if t.contains id then
    { entries := t.entries.map fun entry => if entry.1 == id then (id, value) else entry }
  else { entries := t.entries ++ [(id, value)] }

/-- The table without the value of a handle. -/
def erase (t : SideTable α) (id : Handle) : SideTable α :=
  { entries := t.entries.filter (·.1 != id) }

/-- How many handles have a value. -/
def size (t : SideTable α) : Nat := t.entries.length

end SideTable

end SemanticCore
