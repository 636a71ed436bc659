import WorkflowScope.Tree.Node

/-!
# Elements

What a caret can stand on: a node, or an entry of a mapping.
-/

namespace WorkflowScope

inductive Element where
  | node (node : Node)
  | pair (pair : Entry)
  deriving Inhabited

namespace Element

def span : Element → Span
  | node n => n.span
  | pair p => p.span

def key? : Element → Option String
  | node _ => none
  | pair p => some p.key.value

def value : Element → Node
  | node n => n
  | pair p => p.value

def pair? : Element → Option Entry
  | node _ => none
  | pair p => some p

end Element

def Node.children : Node → List Element
  | .mapping _ pairs => pairs.map .pair
  | .sequence _ items => items.map .node
  | .scalar _ => []

def Element.children (element : Element) : List Element :=
  element.value.children

end WorkflowScope
