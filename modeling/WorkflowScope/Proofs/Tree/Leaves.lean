import WorkflowScope.Proofs.Tree.Nesting
import WorkflowScope.Tree.Compose

/-!
# The scalars of a composed tree

The composer takes events from the front, so it meets an event together with all that come after it.
Every scalar of the tree is made of one event that it has met, or stands for one that is missing.
-/

namespace WorkflowScope

/-- Every scalar in a tree has a property: the root, an item or the value of a pair. -/
def Node.EachScalar (property : Scalar → Prop) (root : Node) : Prop :=
  ∀ element, (Element.node root).Holds element → ∀ s ∈ element.value.scalar?, property s

namespace Node

variable {property : Scalar → Prop}

theorem eachScalar_scalar {s : Scalar} (holds : property s) :
    (Node.scalar s).EachScalar property := by
  intro element held other found
  rcases Element.holds_iff.1 held with rfl | ⟨child, member, _⟩
  · cases found
    exact holds
  · cases member

theorem eachScalar_sequence {items : List Node} (span : Span)
    (each : ∀ item ∈ items, item.EachScalar property) :
    (Node.sequence span items).EachScalar property := by
  intro element held s found
  rcases Element.holds_iff.1 held with rfl | ⟨child, member, below⟩
  · cases found
  · obtain ⟨item, inside, rfl⟩ := List.mem_map.1 member
    exact each item inside element below s found

theorem eachScalar_mapping {pairs : List Entry} (span : Span)
    (each : ∀ pair ∈ pairs, pair.value.EachScalar property) :
    (Node.mapping span pairs).EachScalar property := by
  intro element held s found
  rcases Element.holds_iff.1 held with rfl | ⟨child, member, below⟩
  · cases found
  · obtain ⟨pair, inside, rfl⟩ := List.mem_map.1 member
    -- A pair holds what its value does.
    rcases Element.holds_iff.1 below with rfl | ⟨child, inner, further⟩
    · exact each pair inside _ (.self _) s found
    · exact each pair inside element (.child inner further) s found

/-- The place of a node changes nothing but its span. -/
theorem EachScalar.withSpan {root : Node} (each : root.EachScalar property) (span : Span) :
    (root.withSpan span).EachScalar fun s => ∃ place, property { s with span := place } := by
  cases root with
  | scalar s => exact eachScalar_scalar ⟨s.span, each _ (.self _) s rfl⟩
  | mapping _ pairs =>
      refine eachScalar_mapping span fun pair member element held s found => ⟨s.span, ?_⟩
      rcases Element.holds_iff.1 held with rfl | ⟨child, inner, below⟩
      · exact each (.pair pair) (.child (List.mem_map_of_mem member) (.self _)) s found
      · exact each element (.child (List.mem_map_of_mem member) (.child inner below)) s found
  | sequence _ items =>
      refine eachScalar_sequence span fun item member element held s found => ⟨s.span, ?_⟩
      exact each element (.child (List.mem_map_of_mem member) held) s found

end Node

namespace Composer

open Yaml (Style)

/-- A scalar that is made of an event, with those behind it, or that is missing. -/
inductive MadeOf (text : List Char) (all : List PlacedEvent) : Scalar → Prop where
  | missing (offset : Nat) : MadeOf text all (emptyScalar offset)
  | written {mark : Nat} {style : Style} {value : List Char} {rest : List PlacedEvent}
      (emptyAt : Option Nat) (part : ⟨mark, .scalar style value⟩ :: rest <:+ all) :
      MadeOf text all (scalar text style value mark emptyAt rest)
  | reference {mark : Nat} {rest : List PlacedEvent} (part : ⟨mark, .reference⟩ :: rest <:+ all) :
      MadeOf text all (reference text mark)

/-- What is read is made of the events, and what is left are the last of them. -/
structure Made (text : List Char) (all : List PlacedEvent) (nodes : List Node)
    (left : List PlacedEvent) : Prop where
  each : ∀ n ∈ nodes, n.EachScalar (MadeOf text all)
  suffix : left <:+ all

variable {text : List Char} {all : List PlacedEvent}

theorem made_nil {left : List PlacedEvent} (suffix : left <:+ all) : Made text all [] left :=
  ⟨nofun, suffix⟩

theorem made_scalar {s : Scalar} {left : List PlacedEvent} (made : MadeOf text all s)
    (suffix : left <:+ all) : Made text all [.scalar s] left := by
  refine ⟨fun n member => ?_, suffix⟩
  rw [List.mem_singleton.1 member]
  exact Node.eachScalar_scalar made

theorem Made.cons {n : Node} {nodes : List Node} {left more : List PlacedEvent}
    (first : Made text all [n] left) (rest : Made text all nodes more) :
    Made text all (n :: nodes) more := by
  refine ⟨fun other member => ?_, rest.suffix⟩
  rcases List.mem_cons.1 member with rfl | later
  · exact first.each _ List.mem_cons_self
  · exact rest.each other later

def NodeMade (text : List Char) (all : List PlacedEvent) (fuel : Nat) : Prop :=
  ∀ emptyAt events, events <:+ all →
    Made text all [(node text fuel emptyAt events).1] (node text fuel emptyAt events).2

def ItemsMade (text : List Char) (all : List PlacedEvent) (fuel : Nat) : Prop :=
  ∀ events, events <:+ all →
    Made text all (items text fuel events).1 (items text fuel events).2.2

def PairsMade (text : List Char) (all : List PlacedEvent) (fuel : Nat) : Prop :=
  ∀ events, events <:+ all →
    Made text all ((pairs text fuel events).1.map (·.value)) (pairs text fuel events).2.2

theorem nodeMade_succ {fuel : Nat} (itemsMade : ItemsMade text all fuel)
    (pairsMade : PairsMade text all fuel) : NodeMade text all (fuel + 1) := by
  intro emptyAt events part
  cases events with
  | nil =>
      simp only [node]
      exact made_scalar (.missing _) part
  | cons next rest =>
      obtain ⟨mark, event⟩ := next
      have behind : rest <:+ all := (List.suffix_cons _ _).trans part
      cases event with
      | scalar style value =>
          simp only [node]
          exact made_scalar (.written emptyAt part) behind
      | reference =>
          simp only [node]
          exact made_scalar (.reference part) behind
      | sequenceStart =>
          obtain ⟨each, suffix⟩ := itemsMade rest behind
          simp only [node]
          refine ⟨fun n member => ?_, suffix⟩
          rw [List.mem_singleton.1 member, sequenceOf.eq_def]
          split <;> exact Node.eachScalar_sequence _ each
      | mappingStart =>
          obtain ⟨each, suffix⟩ := pairsMade rest behind
          simp only [node]
          refine ⟨fun n member => ?_, suffix⟩
          rw [List.mem_singleton.1 member]
          exact Node.eachScalar_mapping _ fun pair inside => each _ (List.mem_map_of_mem inside)
      | _ =>
          simp only [node]
          exact made_scalar (.missing _) behind

theorem itemsMade_succ {fuel : Nat} (nodeMade : NodeMade text all fuel)
    (itemsMade : ItemsMade text all fuel) : ItemsMade text all (fuel + 1) := by
  intro events part
  cases events with
  | nil => exact made_nil part
  | cons next rest =>
      rw [items]
      split
      · exact made_nil ((List.suffix_cons _ _).trans part)
      · exact made_nil part
      · have first := nodeMade none (next :: rest) part
        exact first.cons (itemsMade _ first.suffix)

theorem pairsMade_succ {fuel : Nat} (nodeMade : NodeMade text all fuel)
    (pairsMade : PairsMade text all fuel) : PairsMade text all (fuel + 1) := by
  intro events part
  cases events with
  | nil => exact made_nil part
  | cons next rest =>
      rw [pairs]
      split
      · exact made_nil ((List.suffix_cons _ _).trans part)
      · exact made_nil part
      · -- The key gives no node to the tree.
        have key := nodeMade none (next :: rest) part
        refine Made.cons (nodeMade _ _ key.suffix) (pairsMade _ ?_)
        exact (nodeMade _ _ key.suffix).suffix

/-- With any number of steps, nodes, items and pairs are made of the events they are read from. -/
theorem made (text : List Char) (all : List PlacedEvent) (fuel : Nat) :
    NodeMade text all fuel ∧ ItemsMade text all fuel ∧ PairsMade text all fuel := by
  induction fuel with
  | zero =>
      refine ⟨fun emptyAt events part => ?_, fun events part => ?_, fun events part => ?_⟩
      · simp only [node]
        exact made_scalar (.missing _) part
      · exact made_nil part
      · exact made_nil part
  | succ fuel ih =>
      obtain ⟨nodeMade, itemsMade, pairsMade⟩ := ih
      exact ⟨nodeMade_succ itemsMade pairsMade, itemsMade_succ nodeMade itemsMade,
        pairsMade_succ nodeMade pairsMade⟩

/-- Every scalar of a tree is made of an event, up to the span of the root. -/
theorem madeOf_root (text : List Char) (events : List PlacedEvent) :
    (root text events).EachScalar fun s => ∃ place, MadeOf text events { s with span := place } := by
  have empty : (Node.mapping ⟨0, text.length⟩ []).EachScalar fun s =>
      ∃ place, MadeOf text events { s with span := place } :=
    Node.eachScalar_mapping _ nofun
  simp only [root]
  split
  · exact empty
  · split
    · exact empty
    · have whole := (made text events (steps (events.dropWhile isPrologue))).1 none _
        (List.dropWhile_suffix isPrologue)
      exact (whole.each _ List.mem_cons_self).withSpan _

end Composer

end WorkflowScope
