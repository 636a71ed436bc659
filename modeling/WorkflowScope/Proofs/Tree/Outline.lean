import WorkflowScope.Proofs.Tree.Compose

/-!
# Trees written out as events

An outline is a tree without places. It is written out as events, and the composer makes of these a
node that the outline describes, whatever the text and the places of the events are: every reader of
the composer takes the events of its own part and leaves the rest.
-/

namespace WorkflowScope

/-- A tree without places. A key may be any tree. -/
inductive Outline where
  | scalar (style : Yaml.Style) (value : List Char)
  /-- An alias. -/
  | reference
  | sequence (items : List Outline)
  | mapping (pairs : List (Outline × Outline))
  deriving Inhabited

namespace Outline

open Yaml (Event)

mutual

def events : Outline → List Event
  | scalar style value => [.scalar style value]
  | reference => [.reference]
  | sequence items => .sequenceStart :: (eventsOfItems items ++ [.sequenceEnd])
  | mapping pairs => .mappingStart :: (eventsOfPairs pairs ++ [.mappingEnd])

def eventsOfItems : List Outline → List Event
  | [] => []
  | item :: rest => item.events ++ eventsOfItems rest

def eventsOfPairs : List (Outline × Outline) → List Event
  | [] => []
  | (key, value) :: rest => key.events ++ value.events ++ eventsOfPairs rest

end

/-- A key has the value of the scalar that is its tree. What stands for another tree as a key is its
text, of which the tree says nothing. -/
def Names : Outline → Key → Prop
  | scalar _ value, key => key.value = String.ofList value
  | _, _ => True

mutual

/-- A node has the shape of a tree, and its scalars have their values and styles. -/
inductive Describes : Outline → Node → Prop where
  | scalar {style : Yaml.Style} {value : List Char} {s : Scalar}
      (sameValue : s.value = String.ofList value) (sameStyle : s.style = style) :
      Describes (.scalar style value) (.scalar s)
  | reference {s : Scalar} : Describes .reference (.scalar s)
  | sequence {items : List Outline} {span : Span} {nodes : List Node}
      (inner : DescribesItems items nodes) : Describes (.sequence items) (.sequence span nodes)
  | mapping {pairs : List (Outline × Outline)} {span : Span} {entries : List Entry}
      (inner : DescribesPairs pairs entries) : Describes (.mapping pairs) (.mapping span entries)

inductive DescribesItems : List Outline → List Node → Prop where
  | nil : DescribesItems [] []
  | cons {item : Outline} {items : List Outline} {node : Node} {nodes : List Node}
      (first : Describes item node) (rest : DescribesItems items nodes) :
      DescribesItems (item :: items) (node :: nodes)

inductive DescribesPairs : List (Outline × Outline) → List Entry → Prop where
  | nil : DescribesPairs [] []
  | cons {key value : Outline} {pairs : List (Outline × Outline)} {entry : Entry}
      {entries : List Entry} (named : Names key entry.key) (first : Describes value entry.value)
      (rest : DescribesPairs pairs entries) :
      DescribesPairs ((key, value) :: pairs) (entry :: entries)

end

/-- The place of a node is no part of its shape. -/
theorem Describes.withSpan {tree : Outline} {node : Node} (shape : tree.Describes node)
    (span : Span) : tree.Describes (node.withSpan span) := by
  cases shape with
  | scalar sameValue sameStyle => exact .scalar sameValue sameStyle
  | reference => exact .reference
  | sequence inner => exact .sequence inner
  | mapping inner => exact .mapping inner

theorem Describes.names_keyOf {tree : Outline} {node : Node} (shape : tree.Describes node)
    (text : List Char) : tree.Names (Composer.keyOf text node) := by
  cases shape with
  | scalar sameValue sameStyle => exact sameValue
  | reference => trivial
  | sequence inner => trivial
  | mapping inner => trivial

def begins : Event → Bool
  | .scalar _ _ | .reference | .sequenceStart | .mappingStart => true
  | _ => false

theorem exists_events_eq_cons (tree : Outline) :
    ∃ first rest, tree.events = first :: rest ∧ begins first = true := by
  cases tree <;> exact ⟨_, _, by rw [events], rfl⟩

end Outline

namespace Composer

open Yaml (Event)

theorem describes_scalar (text : List Char) (style : Yaml.Style) (value : List Char) (mark : Nat)
    (emptyAt : Option Nat) (rest : List PlacedEvent) :
    (Outline.scalar style value).Describes
      (.scalar (scalar text style value mark emptyAt rest)) := by
  rw [scalar]
  split
  · next empty =>
      obtain ⟨rfl, rfl⟩ := empty
      exact .scalar rfl rfl
  · exact .scalar rfl rfl

/-- Placed events whose first event is known. -/
theorem exists_cons_of_map_event {placed : List PlacedEvent} {first : Event} {rest : List Event}
    (written : placed.map (·.event) = first :: rest) :
    ∃ mark more, placed = ⟨mark, first⟩ :: more ∧ more.map (·.event) = rest := by
  obtain ⟨next, more, rfl, rfl, same⟩ := List.map_eq_cons_iff.1 written
  exact ⟨next.offset, more, rfl, same⟩

theorem exists_cons_of_written {tree : Outline} {placed : List PlacedEvent}
    (written : placed.map (·.event) = tree.events) :
    ∃ next more, placed = next :: more ∧ Outline.begins next.event = true := by
  obtain ⟨first, rest, start, begins⟩ := tree.exists_events_eq_cons
  obtain ⟨mark, more, rfl, -⟩ := exists_cons_of_map_event (written.trans start)
  exact ⟨_, _, rfl, begins⟩

theorem ne_of_begins {event other : Event} (begins : Outline.begins event = true)
    (ends : Outline.begins other = false) : event ≠ other := by
  rintro rfl
  rw [begins] at ends
  cases ends

mutual

/-- The composer reads the events of a tree and no other, and makes a node of its shape. -/
theorem exists_node (text : List Char) (tree : Outline) {placed : List PlacedEvent}
    (written : placed.map (·.event) = tree.events) (emptyAt : Option Nat)
    (after : List PlacedEvent) :
    ∃ n, tree.Describes n ∧ ∀ fuel, 2 * placed.length ≤ fuel →
      node text fuel emptyAt (placed ++ after) = (n, after) := by
  obtain ⟨first, rest, start, -⟩ := tree.exists_events_eq_cons
  obtain ⟨mark, more, rfl, inner⟩ := exists_cons_of_map_event (written.trans start)
  suffices made : ∃ n, tree.Describes n ∧ ∀ fuel, 2 * more.length + 1 ≤ fuel →
      node text (fuel + 1) emptyAt (⟨mark, first⟩ :: more ++ after) = (n, after) by
    obtain ⟨n, shape, made⟩ := made
    refine ⟨n, shape, ?_⟩
    intro fuel enough
    simp only [List.length_cons] at enough
    obtain ⟨fuel, rfl⟩ := Nat.exists_eq_add_one.2 (show 0 < fuel by omega)
    exact made fuel (by omega)
  cases tree with
  | scalar style value =>
      rw [Outline.events] at start
      obtain ⟨rfl, rfl⟩ := List.cons.inj start
      obtain rfl := List.map_eq_nil_iff.1 inner
      exact ⟨_, describes_scalar text style value mark emptyAt after, fun fuel _ => by simp [node]⟩
  | reference =>
      rw [Outline.events] at start
      obtain ⟨rfl, rfl⟩ := List.cons.inj start
      obtain rfl := List.map_eq_nil_iff.1 inner
      exact ⟨.scalar (reference text mark), .reference, fun fuel _ => by simp [node]⟩
  | sequence trees =>
      rw [Outline.events] at start
      obtain ⟨rfl, rfl⟩ := List.cons.inj start
      obtain ⟨found, close, shapes, made⟩ := exists_items text trees inner after
      refine ⟨sequenceOf text mark found (some close), .sequence shapes, ?_⟩
      intro fuel enough
      simp [node, made fuel enough]
  | mapping trees =>
      rw [Outline.events] at start
      obtain ⟨rfl, rfl⟩ := List.cons.inj start
      obtain ⟨found, close, shapes, made⟩ := exists_pairs text trees inner after
      refine ⟨mappingOf text mark found (some close), .mapping shapes, ?_⟩
      intro fuel enough
      simp [node, made fuel enough]

theorem exists_items (text : List Char) (trees : List Outline) {placed : List PlacedEvent}
    (written : placed.map (·.event) = Outline.eventsOfItems trees ++ [.sequenceEnd])
    (after : List PlacedEvent) :
    ∃ found close, Outline.DescribesItems trees found ∧ ∀ fuel, 2 * placed.length + 1 ≤ fuel →
      items text fuel (placed ++ after) = (found, some close, after) := by
  cases trees with
  | nil =>
      rw [Outline.eventsOfItems, List.nil_append] at written
      obtain ⟨mark, more, rfl, none⟩ := exists_cons_of_map_event written
      obtain rfl := List.map_eq_nil_iff.1 none
      refine ⟨[], mark, .nil, ?_⟩
      intro fuel enough
      obtain ⟨fuel, rfl⟩ := Nat.exists_eq_add_one.2 (show 0 < fuel by omega)
      simp [items]
  | cons tree trees =>
      rw [Outline.eventsOfItems, List.append_assoc] at written
      obtain ⟨own, later, rfl, ofTree, ofRest⟩ := List.map_eq_append_iff.1 written
      obtain ⟨n, shape, made⟩ := exists_node text tree ofTree none (later ++ after)
      obtain ⟨found, close, shapes, madeRest⟩ := exists_items text trees ofRest after
      refine ⟨n :: found, close, .cons shape shapes, ?_⟩
      intro fuel enough
      obtain ⟨fuel, rfl⟩ := Nat.exists_eq_add_one.2 (show 0 < fuel by omega)
      obtain ⟨next, more, rfl, begins⟩ := exists_cons_of_written ofTree
      simp only [List.length_append, List.length_cons, List.append_assoc, List.cons_append]
        at enough made ⊢
      have madeFirst := made fuel (by omega)
      rw [items_cons (ne_of_begins begins rfl) (ne_of_begins begins rfl) madeFirst,
        madeRest fuel (by omega)]

theorem exists_pairs (text : List Char) (trees : List (Outline × Outline))
    {placed : List PlacedEvent}
    (written : placed.map (·.event) = Outline.eventsOfPairs trees ++ [.mappingEnd])
    (after : List PlacedEvent) :
    ∃ found close, Outline.DescribesPairs trees found ∧ ∀ fuel, 2 * placed.length + 1 ≤ fuel →
      pairs text fuel (placed ++ after) = (found, some close, after) := by
  match trees with
  | [] =>
      rw [Outline.eventsOfPairs, List.nil_append] at written
      obtain ⟨mark, more, rfl, none⟩ := exists_cons_of_map_event written
      obtain rfl := List.map_eq_nil_iff.1 none
      refine ⟨[], mark, .nil, ?_⟩
      intro fuel enough
      obtain ⟨fuel, rfl⟩ := Nat.exists_eq_add_one.2 (show 0 < fuel by omega)
      simp [pairs]
  | (key, value) :: trees =>
      rw [Outline.eventsOfPairs, List.append_assoc, List.append_assoc] at written
      obtain ⟨ofKey, others, rfl, writtenKey, written⟩ := List.map_eq_append_iff.1 written
      obtain ⟨ofValue, later, rfl, writtenValue, writtenRest⟩ := List.map_eq_append_iff.1 written
      obtain ⟨k, shapeKey, madeKey⟩ := exists_node text key writtenKey none
        (ofValue ++ later ++ after)
      obtain ⟨v, shapeValue, madeValue⟩ := exists_node text value writtenValue
        (some (Extent.afterColon text (keyOf text k).span.stop)) (later ++ after)
      obtain ⟨found, close, shapes, madeRest⟩ := exists_pairs text trees writtenRest after
      refine ⟨entryOf (keyOf text k) v :: found, close,
        .cons (shapeKey.names_keyOf text) shapeValue shapes, ?_⟩
      intro fuel enough
      obtain ⟨fuel, rfl⟩ := Nat.exists_eq_add_one.2 (show 0 < fuel by omega)
      obtain ⟨next, more, rfl, begins⟩ := exists_cons_of_written writtenKey
      simp only [List.length_append, List.length_cons, List.append_assoc, List.cons_append]
        at enough madeKey ⊢
      have madeFirst := madeKey fuel (by omega)
      have madeSecond := madeValue fuel (by omega)
      rw [pairs_cons (ne_of_begins begins rfl) (ne_of_begins begins rfl) madeFirst madeSecond,
        madeRest fuel (by omega)]

end

/-- The composer makes of the events of a tree a node of its shape and leaves the events behind
them, and the root of a stream has the shape of its first tree, whatever follows. -/
theorem describes_node_root (text : List Char) (tree : Outline) {placed : List PlacedEvent}
    (written : placed.map (·.event) = tree.events) (after : List PlacedEvent) :
    (∀ emptyAt, ∃ n, tree.Describes n ∧ ∀ fuel, steps placed ≤ fuel →
      node text fuel emptyAt (placed ++ after) = (n, after)) ∧
      ∀ prologue : List PlacedEvent, (∀ event ∈ prologue, isPrologue event = true) →
        tree.Describes (root text (prologue ++ (placed ++ after))) := by
  constructor
  · intro emptyAt
    obtain ⟨n, shape, made⟩ := exists_node text tree written emptyAt after
    exact ⟨n, shape, fun fuel enough => made fuel (by simp only [steps] at enough; omega)⟩
  · intro prologue leading
    obtain ⟨n, shape, made⟩ := exists_node text tree written none after
    have madeRoot := made (steps (placed ++ after))
      (by simp only [steps, List.length_append]; omega)
    obtain ⟨next, more, rfl, begins⟩ := exists_cons_of_written written
    have notLeading : isPrologue next = false := by
      have first : next.event ≠ .streamStart := ne_of_begins begins rfl
      have second : next.event ≠ .documentStart := ne_of_begins begins rfl
      simp [isPrologue, first, second]
    have running : ¬(next.event = .streamEnd ∨ next.event = .documentEnd) :=
      not_or.2 ⟨ne_of_begins begins rfl, ne_of_begins begins rfl⟩
    have skipped : (prologue ++ (next :: more ++ after)).dropWhile isPrologue =
        next :: (more ++ after) := by
      rw [List.dropWhile_append_of_pos leading, List.cons_append, List.dropWhile_cons_of_neg]
      simp [notLeading]
    rw [root, skipped]
    simp only [if_neg running]
    rw [← List.cons_append, madeRoot]
    exact shape.withSpan _

/-- The outline of `"&c a:\n? [*c]\n: \"b\"\n"`: a value that is not written, and a sequence as a
key. -/
def keyedBySequence : Outline :=
  .mapping
    [(.scalar .plain ['a'], .scalar .plain []),
      (.sequence [.reference], .scalar .doubleQuoted ['b'])]

def keyedBySequenceEvents : List PlacedEvent :=
  [⟨4, .mappingStart⟩, ⟨3, .scalar .plain ['a']⟩, ⟨6, .scalar .plain []⟩, ⟨8, .sequenceStart⟩,
    ⟨9, .reference⟩, ⟨11, .sequenceEnd⟩, ⟨15, .scalar .doubleQuoted ['b']⟩, ⟨19, .mappingEnd⟩]

def secondDocumentEvents : List PlacedEvent :=
  [⟨19, .documentEnd⟩, ⟨19, .documentStart⟩, ⟨23, .scalar .plain ['d']⟩, ⟨25, .documentEnd⟩,
    ⟨25, .streamEnd⟩]

theorem describes_keyedBySequence :
    keyedBySequenceEvents.map (·.event) = keyedBySequence.events ∧
      (∀ emptyAt, ∃ n, keyedBySequence.Describes n ∧ ∀ fuel, steps keyedBySequenceEvents ≤ fuel →
        node "&c a:\n? [*c]\n: \"b\"\n--- d\n".toList fuel emptyAt
          (keyedBySequenceEvents ++ secondDocumentEvents) = (n, secondDocumentEvents)) ∧
      keyedBySequence.Describes (root "&c a:\n? [*c]\n: \"b\"\n--- d\n".toList
        ([⟨0, .streamStart⟩, ⟨4, .documentStart⟩] ++
          (keyedBySequenceEvents ++ secondDocumentEvents))) := by
  have written : keyedBySequenceEvents.map (·.event) = keyedBySequence.events := by decide
  obtain ⟨ofNode, ofRoot⟩ := describes_node_root "&c a:\n? [*c]\n: \"b\"\n--- d\n".toList
    keyedBySequence written secondDocumentEvents
  exact ⟨written, ofNode, ofRoot _ (by decide)⟩

end Composer

end WorkflowScope
