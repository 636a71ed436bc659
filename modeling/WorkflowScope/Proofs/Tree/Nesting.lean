import Mathlib.Data.List.Chain
import WorkflowScope.Proofs.Tree.Induction
import WorkflowScope.Query.Element

/-!
# Nested trees

An element holds itself and what its children hold. In a well-nested tree the span of every element
covers the spans of its children, which follow each other without overlapping. Both can be decided,
because the elements of a tree can be enumerated.
-/

namespace WorkflowScope

structure Span.Within (inner outer : Span) : Prop where
  start_le : outer.start ≤ inner.start
  stop_le : inner.stop ≤ outer.stop

instance (inner outer : Span) : Decidable (inner.Within outer) :=
  decidable_of_iff (outer.start ≤ inner.start ∧ inner.stop ≤ outer.stop)
    ⟨fun ⟨start, stop⟩ => ⟨start, stop⟩, fun within => ⟨within.start_le, within.stop_le⟩⟩

namespace Span.Within

theorem refl (span : Span) : span.Within span :=
  ⟨Nat.le_refl _, Nat.le_refl _⟩

theorem trans {inner middle outer : Span} (first : inner.Within middle)
    (second : middle.Within outer) : inner.Within outer :=
  ⟨Nat.le_trans second.start_le first.start_le, Nat.le_trans first.stop_le second.stop_le⟩

theorem contains {inner outer : Span} (within : inner.Within outer) {offset : Nat}
    (touched : inner.contains offset = true) : outer.contains offset = true := by
  rw [Span.contains_eq_true] at *
  exact ⟨Nat.le_trans within.start_le touched.1, Nat.le_trans touched.2 within.stop_le⟩

end Span.Within

namespace Element

/-- The second element is the first or stands inside of it, at any depth. -/
inductive Holds : Element → Element → Prop where
  | self (element : Element) : Holds element element
  | child {element child inner : Element} (member : child ∈ element.children)
      (below : Holds child inner) : Holds element inner

theorem holds_iff {element inner : Element} :
    element.Holds inner ↔ inner = element ∨ ∃ child ∈ element.children, child.Holds inner := by
  constructor
  · rintro (_ | ⟨member, below⟩)
    · exact .inl rfl
    · exact .inr ⟨_, member, below⟩
  · rintro (rfl | ⟨child, member, below⟩)
    · exact .self _
    · exact .child member below

/-- The children of an element lie in its span, one after the other. -/
structure Nested (element : Element) : Prop where
  inside : ∀ child ∈ element.children, child.span.Within element.span
  ordered : element.children.IsChain fun first second => first.span.stop ≤ second.span.start

instance (element : Element) : Decidable element.Nested :=
  decidable_of_iff
    ((∀ child ∈ element.children, child.span.Within element.span) ∧
      element.children.IsChain fun first second => first.span.stop ≤ second.span.start)
    ⟨fun ⟨inside, ordered⟩ => ⟨inside, ordered⟩, fun nested => ⟨nested.inside, nested.ordered⟩⟩

/-- What an element holds lies in its span, if all that it holds is nested. -/
theorem Holds.within {outer inner : Element} (holds : outer.Holds inner)
    (nested : ∀ element, outer.Holds element → element.Nested) : inner.span.Within outer.span := by
  induction holds with
  | self element => exact .refl _
  | @child element child inner member below ih =>
      have inChild := ih fun element holds => nested element (.child member holds)
      exact inChild.trans ((nested element (.self _)).inside child member)

/-- In a chain of elements the first ends before every other starts, unless one of them is
reversed. -/
theorem stop_le_start_of_isChain {first : Element} {rest : List Element}
    (ordered : (first :: rest).IsChain fun a b => a.span.stop ≤ b.span.start)
    (forward : ∀ element ∈ rest, element.span.start ≤ element.span.stop) :
    ∀ element ∈ rest, first.span.stop ≤ element.span.start := by
  induction rest generalizing first with
  | nil => simp
  | cons second rest ih =>
      obtain ⟨touch, ordered⟩ := List.isChain_cons_cons.1 ordered
      intro element member
      rcases List.mem_cons.1 member with rfl | later
      · exact touch
      · have own := forward second (by simp)
        have next := ih ordered (fun e inRest => forward e (by simp [inRest])) element later
        omega

end Element

def Node.scalar? : Node → Option Scalar
  | .scalar s => some s
  | _ => none

theorem Node.scalar?_eq_some {node : Node} {s : Scalar} :
    node.scalar? = some s ↔ node = .scalar s := by
  cases node <;> simp [Node.scalar?]

/-! ## All elements of a tree -/

mutual

/-- The elements inside of a node, in the order of the text. -/
def Node.elements : Node → List Element
  | .mapping _ pairs => elementsOfPairs pairs
  | .sequence _ items => elementsOfItems items
  | .scalar _ => []

def elementsOfPairs : List Entry → List Element
  | [] => []
  | ⟨span, key, value⟩ :: rest =>
      .pair ⟨span, key, value⟩ :: value.elements ++ elementsOfPairs rest

def elementsOfItems : List Node → List Element
  | [] => []
  | item :: rest => .node item :: item.elements ++ elementsOfItems rest

end

theorem Node.mem_elements_iff (node : Node) {element : Element} :
    element ∈ node.elements ↔ ∃ child ∈ node.children, child.Holds element := by
  induction node using Node.inductionOn with
  | mapping span pairs inner =>
      rw [Node.elements]
      simp only [Node.children, List.mem_map, exists_exists_and_eq_and]
      induction pairs with
      | nil => simp [elementsOfPairs]
      | cons first rest ih =>
          have later := ih fun pair member => inner pair (List.mem_cons_of_mem _ member)
          have own : (Element.pair first).Holds element ↔
              element = .pair first ∨ element ∈ first.value.elements := by
            rw [Element.holds_iff, inner first List.mem_cons_self]
            rfl
          simp only [elementsOfPairs, List.cons_append, List.mem_cons, List.mem_append,
            exists_eq_or_imp, own, later, or_assoc]
  | sequence span items inner =>
      rw [Node.elements]
      simp only [Node.children, List.mem_map, exists_exists_and_eq_and]
      induction items with
      | nil => simp [elementsOfItems]
      | cons item rest ih =>
          have later := ih fun item member => inner item (List.mem_cons_of_mem _ member)
          have own : (Element.node item).Holds element ↔
              element = .node item ∨ element ∈ item.elements := by
            rw [Element.holds_iff, inner item List.mem_cons_self]
            rfl
          simp only [elementsOfItems, List.cons_append, List.mem_cons, List.mem_append,
            exists_eq_or_imp, own, later, or_assoc]
  | scalar s => simp [Node.elements, Node.children]

/-- A tree holds its root and the elements inside of it. -/
theorem Node.holds_iff_mem (root : Node) {element : Element} :
    (Element.node root).Holds element ↔ element ∈ Element.node root :: root.elements := by
  rw [Element.holds_iff, List.mem_cons, root.mem_elements_iff]
  rfl

theorem Node.forall_holds_iff (root : Node) {property : Element → Prop} :
    (∀ element, (Element.node root).Holds element → property element) ↔
      ∀ element ∈ Element.node root :: root.elements, property element :=
  forall_congr' fun _ => by rw [root.holds_iff_mem]

/-- Every element of a tree covers its children, which do not overlap. -/
def Node.WellNested (root : Node) : Prop :=
  ∀ element, (Element.node root).Holds element → element.Nested

instance (root : Node) : Decidable root.WellNested :=
  decidable_of_iff _ root.forall_holds_iff.symm

/-! ## Trees of a text -/

/-- The value of an entry stands in the entry behind its start; the text of a scalar is what stands
in its span. -/
structure Entry.Placed (text : List Char) (pair : Entry) : Prop where
  within : pair.value.span.Within pair.span
  behind : pair.span.start < pair.value.span.start
  forward : pair.value.span.start ≤ pair.value.span.stop
  raw_eq : ∀ scalar ∈ pair.value.scalar?, scalar.raw.toList = scalar.span.slice text

/-- A nested element whose span is one of a text, with its value in place. -/
structure Element.Placed (text : List Char) (element : Element) : Prop where
  nested : element.Nested
  forward : element.span.start ≤ element.span.stop
  bounded : element.span.stop ≤ text.length
  value : ∀ pair ∈ element.pair?, Entry.Placed text pair

def Node.WellPlaced (text : List Char) (root : Node) : Prop :=
  ∀ element, (Element.node root).Holds element → element.Placed text

instance (text : List Char) (pair : Entry) : Decidable (Entry.Placed text pair) :=
  decidable_of_iff
    (pair.value.span.Within pair.span ∧ pair.span.start < pair.value.span.start ∧
      pair.value.span.start ≤ pair.value.span.stop ∧
      ∀ scalar ∈ pair.value.scalar?, scalar.raw.toList = scalar.span.slice text)
    ⟨fun ⟨within, behind, forward, raw⟩ => ⟨within, behind, forward, raw⟩,
      fun placed => ⟨placed.within, placed.behind, placed.forward, placed.raw_eq⟩⟩

instance (text : List Char) (element : Element) : Decidable (element.Placed text) :=
  decidable_of_iff
    (element.Nested ∧ element.span.start ≤ element.span.stop ∧
      element.span.stop ≤ text.length ∧ ∀ pair ∈ element.pair?, Entry.Placed text pair)
    ⟨fun ⟨nested, forward, bounded, value⟩ => ⟨nested, forward, bounded, value⟩,
      fun placed => ⟨placed.nested, placed.forward, placed.bounded, placed.value⟩⟩

instance (text : List Char) (root : Node) : Decidable (root.WellPlaced text) :=
  decidable_of_iff _ root.forall_holds_iff.symm

end WorkflowScope
