import WorkflowScope.Path.Basic

/-!
# Tables by path

A table has an entry for each of some paths, in the order in which they came in, under the spelling
that came first.
-/

namespace WorkflowScope

/-- Entries by path, the first that came in front. -/
structure PathTable (α : Type) where
  entries : List (String × α) := []
  deriving DecidableEq, Repr, Inhabited

namespace PathTable

variable {α : Type}

def empty : PathTable α := {}

def size (table : PathTable α) : Nat :=
  table.entries.length

def isEmpty (table : PathTable α) : Bool :=
  table.entries.isEmpty

def get? (table : PathTable α) (path : String) : Option α :=
  (table.entries.find? fun entry => Path.same entry.1 path).map (·.2)

/-- Replaces the entry of a path in its place, or puts one behind the others. -/
def insertInto (path : String) (value : α) : List (String × α) → List (String × α)
  | [] => [(path, value)]
  | entry :: rest =>
      if Path.same entry.1 path then (entry.1, value) :: rest
      else entry :: insertInto path value rest

def insert (table : PathTable α) (path : String) (value : α) : PathTable α :=
  ⟨insertInto path value table.entries⟩

def erase (table : PathTable α) (path : String) : PathTable α :=
  ⟨table.entries.filter fun entry => !Path.same entry.1 path⟩

end PathTable

end WorkflowScope
