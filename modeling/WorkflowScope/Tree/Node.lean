import WorkflowScope.Text.Span
import WorkflowScope.Yaml.Token

/-!
# Syntax trees

A document is a tree of mappings, sequences and scalars that know where they stand in the text. The
entries of a mapping are pairs, which are the only elements with a key.
-/

namespace WorkflowScope

structure Scalar where
  span : Span
  /-- The value that the text stands for. -/
  value : String
  /-- The text itself, with quotes and block header. -/
  raw : String
  style : Yaml.Style
  deriving DecidableEq, Repr, Inhabited

structure Key where
  span : Span
  value : String
  deriving DecidableEq, Repr, Inhabited

/-- An entry of a mapping, from the start of its key to the end of its value. -/
structure Pair (ν : Type) where
  span : Span
  key : Key
  value : ν
  deriving DecidableEq, Repr, Inhabited

inductive Node where
  | mapping (span : Span) (pairs : List (Pair Node))
  | sequence (span : Span) (items : List Node)
  | scalar (scalar : Scalar)
  deriving Inhabited

abbrev Entry := Pair Node

/-- The scalars that have a header. -/
def Yaml.Style.isBlock : Yaml.Style → Bool
  | .literal | .folded => true
  | .plain | .singleQuoted | .doubleQuoted => false

namespace Node

def span : Node → Span
  | mapping span _ => span
  | sequence span _ => span
  | scalar s => s.span

def withSpan (span : Span) : Node → Node
  | mapping _ pairs => mapping span pairs
  | sequence _ items => sequence span items
  | scalar s => scalar { s with span }

@[simp] theorem span_withSpan (span : Span) (node : Node) : (node.withSpan span).span = span := by
  cases node <;> rfl

def isContainer : Node → Bool
  | scalar _ => false
  | _ => true

def isMapping : Node → Bool
  | mapping _ _ => true
  | _ => false

end Node

end WorkflowScope
