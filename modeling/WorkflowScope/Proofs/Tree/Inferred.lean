import WorkflowScope.Proofs.Tree.Nesting
import WorkflowScope.Tree.Compose
import WorkflowScope.Yaml.Alphabet

/-!
# Inferred boundaries

The events of a text say where a node starts, and sometimes not even that. This module names the
boundaries of a tree that are inferred from the text: the ends of block scalars and folded scalars,
the places of missing values, the headers of block scalars, and collections that take a bracket of
their first child for their own. Nesting at inferred boundaries is a condition of its own.
-/

namespace WorkflowScope

open Composer (opensAt)

/-- The text of an alias runs over a character that no name holds. -/
def Scalar.overrunsName (raw : List Char) : Bool :=
  raw.head? == some '*' && !raw.tail.all Yaml.isAnchorChar

/-- A scalar that ends where its text was cut: a block scalar, a plain one that is not written as
its value, or an alias with an overrun name. -/
def Scalar.endInferred (s : Scalar) : Bool :=
  match s.style with
  | .literal | .folded => true
  | .singleQuoted | .doubleQuoted => false
  | .plain =>
      s.raw != s.value || s.value.toList.contains '\n' || Scalar.overrunsName s.raw.toList

namespace Node

/-- A scalar that may be one that is not written. -/
def isMissing : Node → Bool
  | scalar s => s.style == .plain && s.value == ""
  | _ => false

/-- A collection that stands at a bracket, but whose first child does not stand behind it. -/
def borrows (text : List Char) : Node → Bool
  | sequence span (first :: _) => opensAt text span.start '[' && first.span.start ≤ span.start
  | mapping span (first :: _) => opensAt text span.start '\x7b' && first.span.start ≤ span.start
  | _ => false

end Node

mutual

/-- A node whose end is inferred. A block collection ends with its last child. -/
def Node.endInferred (text : List Char) : Node → Bool
  | .scalar s => s.endInferred
  | .sequence span items =>
      if opensAt text span.start '[' then (Node.sequence span items).borrows text
      else itemsEndInferred text items
  | .mapping span pairs =>
      if opensAt text span.start '\x7b' then (Node.mapping span pairs).borrows text
      else pairsEndInferred text pairs

def itemsEndInferred (text : List Char) : List Node → Bool
  | [] => false
  | [last] => last.endInferred text
  | _ :: second :: rest => itemsEndInferred text (second :: rest)

/-- A pair whose value is missing, ends at an inferred place or ends before the key does. -/
def pairsEndInferred (text : List Char) : List Entry → Bool
  | [] => false
  | [⟨_, key, value⟩] =>
      value.isMissing || value.endInferred text || value.span.stop < key.span.stop
  | _ :: second :: rest => pairsEndInferred text (second :: rest)

end

def Entry.endInferred (text : List Char) (pair : Entry) : Bool :=
  pair.value.isMissing || pair.value.endInferred text || pair.value.span.stop < pair.key.span.stop

namespace Element

/-- An element at the header of a block scalar. -/
def startInferred (text : List Char) (element : Element) : Bool :=
  opensAt text element.span.start '|' || opensAt text element.span.start '>'

def endInferred (text : List Char) : Element → Bool
  | node n => n.endInferred text
  | pair p => Entry.endInferred text p

/-- An element that may not reach around its children: its value has borrowed its bracket, or its
key is a flow mapping. -/
def unsure (text : List Char) : Element → Bool
  | node n => n.borrows text
  | pair p => p.value.borrows text || opensAt text p.span.start '\x7b'

/-- Nesting at the inferred boundaries of the children. -/
structure InferredNested (text : List Char) (element : Element) : Prop where
  inside : ∀ child ∈ element.children,
    (element.unsure text || child.startInferred text || child.endInferred text) = true →
      child.span.Within element.span
  ordered : element.children.IsChain fun first second =>
    (first.endInferred text || second.startInferred text) = true →
      first.span.stop ≤ second.span.start

instance (text : List Char) (element : Element) : Decidable (element.InferredNested text) :=
  decidable_of_iff
    ((∀ child ∈ element.children,
      (element.unsure text || child.startInferred text || child.endInferred text) = true →
        child.span.Within element.span) ∧
      element.children.IsChain fun first second =>
        (first.endInferred text || second.startInferred text) = true →
          first.span.stop ≤ second.span.start)
    ⟨fun ⟨inside, ordered⟩ => ⟨inside, ordered⟩, fun nested => ⟨nested.inside, nested.ordered⟩⟩

theorem Nested.inferred {element : Element} (nested : element.Nested) (text : List Char) :
    element.InferredNested text where
  inside child member _ := nested.inside child member
  ordered := nested.ordered.imp fun _ _ before _ => before

end Element

/-- Every element of a tree covers the children with inferred boundaries, and these do not overlap
their neighbours. -/
def Node.InferredNested (text : List Char) (root : Node) : Prop :=
  ∀ element, (Element.node root).Holds element → element.InferredNested text

instance (text : List Char) (root : Node) : Decidable (root.InferredNested text) :=
  decidable_of_iff _ root.forall_holds_iff.symm

/-! ## The last child decides -/

theorem itemsEndInferred_eq (text : List Char) (items : List Node) :
    itemsEndInferred text items = (items.getLast?.map (·.endInferred text)).getD false := by
  induction items with
  | nil => simp [itemsEndInferred]
  | cons first rest ih =>
      cases rest with
      | nil => simp [itemsEndInferred]
      | cons second rest =>
          rw [itemsEndInferred, ih]
          simp [List.getLast?_cons_cons]

theorem pairsEndInferred_eq (text : List Char) (pairs : List Entry) :
    pairsEndInferred text pairs = (pairs.getLast?.map (Entry.endInferred text)).getD false := by
  induction pairs with
  | nil => simp [pairsEndInferred]
  | cons first rest ih =>
      cases rest with
      | nil => simp [pairsEndInferred, Entry.endInferred]
      | cons second rest =>
          rw [pairsEndInferred, ih]
          simp [List.getLast?_cons_cons]

end WorkflowScope
