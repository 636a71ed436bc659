import WorkflowScope.Lint.Finding
import WorkflowScope.Tree.Snapshot

/-!
# The built-in linter

It knows nothing of workflows: it reports a text that is no YAML document, a root that is no
mapping, and keys that a mapping has twice.
-/

namespace WorkflowScope.Lint

def duplicate (key : Key) : Finding :=
  { message := "duplicate key '" ++ key.value ++ "'"
    first := key.span.start
    last := key.span.stop }

mutual

/-- The keys in a node that their mapping has already, in the order of the text. -/
def duplicatesIn : Node → List Finding
  | .mapping _ pairs => duplicatesInPairs [] pairs
  | .sequence _ items => duplicatesInItems items
  | .scalar _ => []

/-- The same for pairs, where `seen` are the keys of the pairs before them. -/
def duplicatesInPairs (seen : List String) : List Entry → List Finding
  | [] => []
  | ⟨_, key, value⟩ :: rest =>
      (if seen.contains key.value then [duplicate key] else []) ++ duplicatesIn value ++
        duplicatesInPairs (key.value :: seen) rest

def duplicatesInItems : List Node → List Finding
  | [] => []
  | item :: rest => duplicatesIn item ++ duplicatesInItems rest

end

def rootFindings (root : Node) : List Finding :=
  if root.isMapping then []
  else
    [{ message := "workflow must be a mapping", first := root.span.start, last := root.span.stop }]

def refused (error : DocumentError) (length : Nat) : Finding :=
  let start := min error.offset length
  { message := error.info, first := start, last := min (start + 1) length }

def check (text : String) : List Finding :=
  match Snapshot.ofText text with
  | .ok snapshot => rootFindings snapshot.root ++ duplicatesIn snapshot.root
  | .error error => [refused error text.toList.length]

end WorkflowScope.Lint
