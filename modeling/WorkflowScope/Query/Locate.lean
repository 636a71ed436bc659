import WorkflowScope.KeyPath.Basic
import WorkflowScope.Query.Element
import WorkflowScope.Tree.Snapshot

/-!
# The element under a caret

From the root down, the first child that the caret touches is taken, until none is touched. The keys
on the way make the path.
-/

namespace WorkflowScope

/-- An element under a caret and the keys down to it, outermost first and its own included. -/
structure Found where
  element : Element
  keys : List String

def Found.below (key : String) (found : Found) : Found :=
  { found with keys := key :: found.keys }

mutual

/-- The innermost element at an offset, from a node on. -/
def Node.descend (offset : Nat) : Node → Option Found
  | .mapping span pairs =>
      if span.contains offset then
        some ((descendPairs offset pairs).getD ⟨.node (.mapping span pairs), []⟩)
      else none
  | .sequence span items =>
      if span.contains offset then
        some ((descendItems offset items).getD ⟨.node (.sequence span items), []⟩)
      else none
  | .scalar s => if s.span.contains offset then some ⟨.node (.scalar s), []⟩ else none

/-- The innermost element at an offset inside a node, if one of its children touches it. -/
def Node.descendInside (offset : Nat) : Node → Option Found
  | .mapping _ pairs => descendPairs offset pairs
  | .sequence _ items => descendItems offset items
  | .scalar _ => none

def descendPairs (offset : Nat) : List Entry → Option Found
  | [] => none
  | ⟨span, key, value⟩ :: rest =>
      if span.contains offset then
        some (((value.descendInside offset).getD ⟨.pair ⟨span, key, value⟩, []⟩).below key.value)
      else descendPairs offset rest

def descendItems (offset : Nat) : List Node → Option Found
  | [] => none
  | item :: rest =>
      match item.descend offset with
      | some found => some found
      | none => descendItems offset rest

end

structure Located where
  element : Element
  path : KeyPath

def Node.locate (root : Node) (offset : Nat) : Option Located :=
  (root.descend offset).map fun found => ⟨found.element, .ofKeys found.keys⟩

def Snapshot.locate (snapshot : Snapshot) (offset : Nat) : Option Located :=
  snapshot.root.locate offset

end WorkflowScope
