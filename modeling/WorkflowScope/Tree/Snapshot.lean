import WorkflowScope.Text.LineIndex
import WorkflowScope.Tree.Compose
import WorkflowScope.Yaml.Grammar

/-!
# Snapshots

A snapshot is a text that has been read: its lines and its tree. Every query reads the text anew, so
none sees an old tree.
-/

namespace WorkflowScope

structure DocumentError where
  fault : Yaml.Fault
  /-- Line, from one. -/
  line : Nat
  /-- Column, from one. -/
  column : Nat
  /-- Character offset. -/
  offset : Nat
  deriving DecidableEq, Repr, Inhabited

namespace DocumentError

def info (error : DocumentError) : String :=
  error.fault.message

def message (error : DocumentError) : String :=
  error.info ++ " at line " ++ toString error.line ++ " column " ++ toString error.column

end DocumentError

structure Snapshot where
  text : String
  index : LineIndex
  root : Node

namespace Snapshot

def place (starts : List Nat) (length : Nat) (event : Yaml.MarkedEvent) : PlacedEvent :=
  { offset := event.mark.offset starts length, event := event.event }

/-- The events of a text at their character offsets. -/
def placedEvents (text : List Char) : Except DocumentError (List PlacedEvent) :=
  let starts := Yaml.lineStarts text
  match Yaml.events text with
  | .ok events => .ok (events.map (place starts text.length))
  | .error ⟨fault, mark⟩ =>
      .error
        { fault
          line := mark.line
          column := mark.column + 1
          offset := mark.offset starts text.length }

def tree (text : List Char) : Except DocumentError Node := do
  let events ← placedEvents text
  .ok (Composer.root text events)

def ofText (text : String) : Except DocumentError Snapshot := do
  let root ← tree text.toList
  .ok { text, index := LineIndex.ofText text.toList, root }

def rangeOf (snapshot : Snapshot) (span : Span) : Range :=
  snapshot.index.rangeOf span

def offsetAt (snapshot : Snapshot) (position : Position) : Nat :=
  snapshot.index.offsetAt position

def slice (snapshot : Snapshot) (span : Span) : String :=
  snapshot.index.slice span

end Snapshot

end WorkflowScope
