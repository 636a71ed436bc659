import WorkflowScope.Proofs.Tree.Balanced

/-!
# Neighbours in a tree

The children of an element are read one after the other. So the first of two neighbours is read from
some of the events, up to the end of its value, and the second one begins with the node that is read
from the events that are left.
-/

namespace WorkflowScope

namespace Composer

/-- The value of the first element is read from some of the events, and the second element begins
with the node that is read from those that are left. -/
inductive Follows (text : List Char) (all : List PlacedEvent) (first second : Element) : Prop where
  | intro {fuel fuel' : Nat} {emptyAt : Option Nat} {events : List PlacedEvent}
      (part : events <:+ all) (value : first.value = (node text fuel emptyAt events).1)
      (reach : first.value.span.stop ≤ first.span.stop)
      (start : second.span.start =
        (node text fuel' none (node text fuel emptyAt events).2).1.span.start)

end Composer

def Node.EachLinked (relation : Element → Element → Prop) (root : Node) : Prop :=
  ∀ element, (Element.node root).Holds element → element.children.IsChain relation

namespace Node

variable {relation : Element → Element → Prop}

theorem eachLinked_scalar (s : Scalar) : (Node.scalar s).EachLinked relation :=
  Element.forall_holds_iff.2 ⟨.nil, nofun⟩

theorem eachLinked_sequence {items : List Node} (span : Span)
    (linked : (items.map Element.node).IsChain relation)
    (each : ∀ item ∈ items, item.EachLinked relation) :
    (Node.sequence span items).EachLinked relation := by
  refine Element.forall_holds_iff.2 ⟨linked, fun child member => ?_⟩
  obtain ⟨item, inside, rfl⟩ := List.mem_map.1 member
  exact each item inside

theorem eachLinked_mapping {pairs : List Entry} (span : Span)
    (linked : (pairs.map Element.pair).IsChain relation)
    (each : ∀ pair ∈ pairs, pair.value.EachLinked relation) :
    (Node.mapping span pairs).EachLinked relation := by
  refine Element.forall_holds_iff.2 ⟨linked, fun child member => ?_⟩
  obtain ⟨pair, inside, rfl⟩ := List.mem_map.1 member
  -- The children of a pair are those of its value.
  exact Element.forall_holds_iff.2 (Element.forall_holds_iff.1 (each pair inside))

theorem EachLinked.withSpan {root : Node} (linked : root.EachLinked relation) (span : Span) :
    (root.withSpan span).EachLinked relation := by
  have inner := Element.forall_holds_iff.1 linked
  cases root <;> exact Element.forall_holds_iff.2 inner

end Node

namespace Composer

variable {text : List Char} {all : List PlacedEvent} {fuel : Nat}

def NodeLinked (text : List Char) (all : List PlacedEvent) (fuel : Nat) : Prop :=
  ∀ emptyAt events, events <:+ all →
    (node text fuel emptyAt events).1.EachLinked (Follows text all)

/-- Items are linked, and the first of them is read from the first events. -/
structure LinkedItems (text : List Char) (all events : List PlacedEvent) (found : List Node) :
    Prop where
  each : ∀ item ∈ found, item.EachLinked (Follows text all)
  linked : (found.map Element.node).IsChain (Follows text all)
  start : ∀ first ∈ found.head?, ∃ fuel, first = (node text fuel none events).1

/-- The same for pairs, the first of which begins with its key. -/
structure LinkedPairs (text : List Char) (all events : List PlacedEvent) (found : List Entry) :
    Prop where
  each : ∀ pair ∈ found, pair.value.EachLinked (Follows text all)
  linked : (found.map Element.pair).IsChain (Follows text all)
  start : ∀ first ∈ found.head?,
    ∃ fuel, first.span.start = (node text fuel none events).1.span.start

def ItemsLinked (text : List Char) (all : List PlacedEvent) (fuel : Nat) : Prop :=
  ∀ events, events <:+ all → LinkedItems text all events (items text fuel events).1

def PairsLinked (text : List Char) (all : List PlacedEvent) (fuel : Nat) : Prop :=
  ∀ events, events <:+ all → LinkedPairs text all events (pairs text fuel events).1

theorem linkedItems_nil (text : List Char) (all events : List PlacedEvent) :
    LinkedItems text all events [] :=
  ⟨nofun, .nil, nofun⟩

theorem linkedPairs_nil (text : List Char) (all events : List PlacedEvent) :
    LinkedPairs text all events [] :=
  ⟨nofun, .nil, nofun⟩

theorem nodeLinked_succ (itemsLinked : ItemsLinked text all fuel)
    (pairsLinked : PairsLinked text all fuel) : NodeLinked text all (fuel + 1) := by
  intro emptyAt events part
  cases events with
  | nil => exact Node.eachLinked_scalar _
  | cons next rest =>
      obtain ⟨mark, event⟩ := next
      have behind : rest <:+ all := (List.suffix_cons _ _).trans part
      cases event with
      | sequenceStart =>
          have inner := itemsLinked rest behind
          simp only [node, sequenceOf.eq_def]
          split <;> exact Node.eachLinked_sequence _ inner.linked inner.each
      | mappingStart =>
          have inner := pairsLinked rest behind
          simp only [node]
          exact Node.eachLinked_mapping _ inner.linked inner.each
      | _ =>
          simp only [node]
          exact Node.eachLinked_scalar _

theorem itemsLinked_succ (nodeLinked : NodeLinked text all fuel)
    (itemsLinked : ItemsLinked text all fuel) : ItemsLinked text all (fuel + 1) := by
  intro events part
  cases events with
  | nil => exact linkedItems_nil text all []
  | cons next rest =>
      rw [items]
      split
      · exact linkedItems_nil _ _ _
      · exact linkedItems_nil _ _ _
      · have suffix := ((made text all fuel).1 none (next :: rest) part).suffix
        have first := nodeLinked none (next :: rest) part
        have more := itemsLinked _ suffix
        refine ⟨?_, ?_, ?_⟩
        · rintro item (_ | ⟨_, later⟩)
          · exact first
          · exact more.each item later
        · rw [List.map_cons, List.isChain_cons]
          refine ⟨fun second head => ?_, more.linked⟩
          rw [List.head?_map] at head
          obtain ⟨item, front, rfl⟩ := Option.map_eq_some_iff.1 head
          obtain ⟨fuel', same⟩ := more.start item front
          exact .intro part rfl (Nat.le_refl _) (congrArg (·.span.start) same)
        · rintro _ ⟨⟩
          exact ⟨fuel, rfl⟩

theorem pairsLinked_succ (nodeLinked : NodeLinked text all fuel)
    (pairsLinked : PairsLinked text all fuel) : PairsLinked text all (fuel + 1) := by
  intro events part
  cases events with
  | nil => exact linkedPairs_nil text all []
  | cons next rest =>
      rw [pairs]
      split
      · exact linkedPairs_nil _ _ _
      · exact linkedPairs_nil _ _ _
      · have key := ((made text all fuel).1 none (next :: rest) part).suffix
        have value := ((made text all fuel).1
          (some (Extent.afterColon text
            (keyOf text (node text fuel none (next :: rest)).1).span.stop)) _ key).suffix
        have more := pairsLinked _ value
        refine ⟨?_, ?_, ?_⟩
        · rintro pair (_ | ⟨_, later⟩)
          · exact nodeLinked _ _ key
          · exact more.each pair later
        · rw [List.map_cons, List.isChain_cons]
          refine ⟨fun second head => ?_, more.linked⟩
          rw [List.head?_map] at head
          obtain ⟨pair, front, rfl⟩ := Option.map_eq_some_iff.1 head
          obtain ⟨fuel', same⟩ := more.start pair front
          exact .intro key rfl (Nat.le_max_left _ _) same
        · rintro _ ⟨⟩
          exact ⟨fuel, by simp only [entryOf, span_keyOf]⟩

/-- With any number of steps, neighbours are read from consecutive events. -/
theorem linked (text : List Char) (all : List PlacedEvent) (fuel : Nat) :
    NodeLinked text all fuel ∧ ItemsLinked text all fuel ∧ PairsLinked text all fuel := by
  induction fuel with
  | zero =>
      refine ⟨fun emptyAt events part => ?_, fun events part => ?_, fun events part => ?_⟩
      · exact Node.eachLinked_scalar _
      · exact linkedItems_nil _ _ _
      · exact linkedPairs_nil _ _ _
  | succ fuel ih =>
      obtain ⟨nodeLinked, itemsLinked, pairsLinked⟩ := ih
      exact ⟨nodeLinked_succ itemsLinked pairsLinked, itemsLinked_succ nodeLinked itemsLinked,
        pairsLinked_succ nodeLinked pairsLinked⟩

theorem linked_root (text : List Char) (events : List PlacedEvent) :
    (root text events).EachLinked (Follows text events) := by
  have empty : (Node.mapping ⟨0, text.length⟩ []).EachLinked (Follows text events) :=
    Node.eachLinked_mapping _ .nil nofun
  simp only [root]
  split
  · exact empty
  · split
    · exact empty
    · exact ((linked text events (steps (events.dropWhile isPrologue))).1 none _
        (List.dropWhile_suffix isPrologue)).withSpan _

end Composer

end WorkflowScope
