import WorkflowScope.KeyPath.Basic
import WorkflowScope.Query.Element
import WorkflowScope.Tree.Snapshot

/-!
# Entries under a pattern

Entries are collected from the root down, one segment of the pattern for each key. Sequences and the
mappings in them use no segment, so `jobs.*.steps.run` reaches the `run` key of every step.
-/

namespace WorkflowScope

/-- An entry and the keys down to it, outermost first and its own included. -/
structure Collected where
  keys : List String
  pair : Entry

namespace Collected

def path (collected : Collected) : KeyPath :=
  .ofKeys collected.keys

def below (key : String) (collected : Collected) : Collected :=
  { collected with keys := key :: collected.keys }

end Collected

mutual

def Node.collectSegments (segments : List Segment) : Node → List Collected
  | .mapping _ pairs => collectFromPairs segments pairs
  | .sequence _ items => collectFromItems segments items
  | .scalar _ => []

def collectFromPairs (segments : List Segment) : List Entry → List Collected
  | [] => []
  | ⟨span, key, value⟩ :: rest =>
      let here :=
        match segments with
        | [] => []
        | first :: others =>
            if !first.acceptsKey key.value then []
            else if others.isEmpty then [⟨[key.value], ⟨span, key, value⟩⟩]
            else (value.collectSegments others).map (·.below key.value)
      here ++ collectFromPairs segments rest

def collectFromItems (segments : List Segment) : List Node → List Collected
  | [] => []
  | item :: rest => item.collectSegments segments ++ collectFromItems segments rest

end

def Node.collect (root : Node) (pattern : KeyPath) : List Collected :=
  root.collectSegments pattern.segments

def Node.collectValues (root : Node) (pattern : KeyPath) : List Node :=
  (root.collect pattern).map (·.pair.value)

def Snapshot.collect (snapshot : Snapshot) (pattern : KeyPath) : List Collected :=
  snapshot.root.collect pattern

end WorkflowScope
