import WorkflowScope.Proofs.Tree.Leaves
import WorkflowScope.Proofs.Tree.Outline
import WorkflowScope.Proofs.Tree.Scanning
import WorkflowScope.Tree.Snapshot

/-!
# Trees of balanced streams

The composer is written once more with the guarded scans, so it gives nothing when a scan leaves the
text. From a stream in which every start has its end and every event stands in the text it makes the
tree that the composer makes; and all spans of this tree lie in the text.
-/

namespace WorkflowScope

structure Span.InText (text : List Char) (span : Span) : Prop where
  forward : span.start ≤ span.stop
  inside : span.stop ≤ text.length

namespace Element

/-- The spans of an element lie in a text. A pair starts with its key and stops with its key or its
value, whichever stops later. -/
structure InText (text : List Char) (element : Element) : Prop where
  own : element.span.InText text
  value : element.value.span.InText text
  key : ∀ pair ∈ element.pair?, pair.key.span.InText text
  start : ∀ pair ∈ element.pair?, pair.span.start = pair.key.span.start
  stop : ∀ pair ∈ element.pair?, pair.span.stop = max pair.key.span.stop pair.value.span.stop

theorem inText_node {text : List Char} {n : Node} (span : n.span.InText text) :
    (Element.node n).InText text :=
  ⟨span, span, nofun, nofun, nofun⟩

theorem forall_holds_iff {outer : Element} {property : Element → Prop} :
    (∀ element, outer.Holds element → property element) ↔
      property outer ∧
        ∀ child ∈ outer.children, ∀ element, child.Holds element → property element := by
  constructor
  · intro all
    exact ⟨all outer (.self _), fun child member element below => all element (.child member below)⟩
  · rintro ⟨own, each⟩ element holds
    rcases holds_iff.1 holds with rfl | ⟨child, member, below⟩
    · exact own
    · exact each child member element below

end Element

/-- All spans of a tree lie in a text, and its scalars keep the text under their spans. -/
structure Node.Exact (text : List Char) (root : Node) : Prop where
  inText : ∀ element, (Element.node root).Holds element → element.InText text
  raw : root.EachScalar fun s => s.raw.toList = s.span.slice text

namespace Node

variable {text : List Char} {place : Span}

theorem Exact.span {root : Node} (own : root.Exact text) : root.span.InText text :=
  (own.inText _ (.self _)).own

theorem exact_scalar {s : Scalar} (span : s.span.InText text)
    (raw : s.raw.toList = s.span.slice text) : (Node.scalar s).Exact text where
  inText := Element.forall_holds_iff.2 ⟨Element.inText_node span, nofun⟩
  raw := eachScalar_scalar raw

theorem exact_sequence {items : List Node} (whole : place.InText text)
    (each : ∀ item ∈ items, item.Exact text) : (Node.sequence place items).Exact text where
  inText := by
    refine Element.forall_holds_iff.2 ⟨Element.inText_node whole, fun child member => ?_⟩
    obtain ⟨item, inside, rfl⟩ := List.mem_map.1 member
    exact (each item inside).inText
  raw := eachScalar_sequence place fun item inside => (each item inside).raw

theorem exact_mapping {pairs : List Entry} (whole : place.InText text)
    (each : ∀ pair ∈ pairs, (Element.pair pair).InText text ∧ pair.value.Exact text) :
    (Node.mapping place pairs).Exact text where
  inText := by
    refine Element.forall_holds_iff.2 ⟨Element.inText_node whole, fun child member => ?_⟩
    obtain ⟨pair, inside, rfl⟩ := List.mem_map.1 member
    obtain ⟨own, value⟩ := each pair inside
    exact Element.forall_holds_iff.2 ⟨own, (Element.forall_holds_iff.1 value.inText).2⟩
  raw := eachScalar_mapping place fun pair inside => (each pair inside).2.raw

/-- Only a scalar is no longer exact when it is moved, for it keeps its text. -/
theorem Exact.withSpan {root : Node} (own : root.Exact text) (whole : place.InText text) :
    (∀ element, (Element.node (root.withSpan place)).Holds element → element.InText text) ∧
      ((root.withSpan place).isContainer = true →
        (root.withSpan place).EachScalar fun s => s.raw.toList = s.span.slice text) := by
  have inner := (Element.forall_holds_iff.1 own.inText).2
  constructor
  · refine Element.forall_holds_iff.2 ⟨Element.inText_node (by rwa [span_withSpan]), ?_⟩
    cases root <;> exact inner
  · intro container element holds s found
    rcases Element.holds_iff.1 holds with rfl | ⟨child, member, below⟩
    · cases root with
      | scalar => cases container
      | mapping => cases found
      | sequence => cases found
    · cases root with
      | scalar => cases container
      | mapping => exact own.raw element (.child member below) s found
      | sequence => exact own.raw element (.child member below) s found

end Node

namespace Composer

open Yaml (Event Style)

/-! ## The composer with guarded scans -/

namespace Guarded

def scalarSpan (text value : List Char) (style : Style) (mark next : Nat) : Option Span :=
  match style with
  | .singleQuoted => do
      let stop ← Extent.Guarded.singleQuotedEnd text (mark + 1)
      some ⟨mark, stop⟩
  | .doubleQuoted => do
      let stop ← Extent.Guarded.doubleQuotedEnd text (mark + 1)
      some ⟨mark, stop⟩
  | .plain => do
      let stop ← Extent.Guarded.plainEnd text value mark next
      some ⟨mark, stop⟩
  | .literal | .folded => do
      let start ← Extent.Guarded.blockStart text mark
      let stop ← Extent.Guarded.blockEnd text start next
      some ⟨start, stop⟩

def scalar (text : List Char) (style : Style) (value : List Char) (mark : Nat)
    (emptyAt : Option Nat) (rest : List PlacedEvent) : Option Scalar :=
  if style = .plain ∧ value = [] then some (emptyScalar (emptyAt.getD mark))
  else do
    let span ← scalarSpan text value style mark (nextOffset text rest)
    some (scalarOver text span value style)

mutual

def node (text : List Char) :
    Nat → Option Nat → List PlacedEvent → Option (Node × List PlacedEvent)
  | 0, _, _ => none
  | _ + 1, _, [] => some (.scalar (emptyScalar text.length), [])
  | fuel + 1, emptyAt, ⟨mark, event⟩ :: rest =>
      match event with
      | .scalar style value => do
          let found ← scalar text style value mark emptyAt rest
          some (.scalar found, rest)
      | .reference => some (.scalar (reference text mark), rest)
      | .sequenceStart => do
          let (found, close, rest) ← items text fuel rest
          some (sequenceOf text mark found close, rest)
      | .mappingStart => do
          let (found, close, rest) ← pairs text fuel rest
          some (mappingOf text mark found close, rest)
      | _ => some (.scalar (emptyScalar (emptyAt.getD mark)), rest)

/-- The items up to the end of a sequence, and the offset of that end. -/
def items (text : List Char) :
    Nat → List PlacedEvent → Option (List Node × Option Nat × List PlacedEvent)
  | 0, _ => none
  | _ + 1, [] => some ([], none, [])
  | fuel + 1, next :: rest =>
      match next.event with
      | .sequenceEnd => some ([], some next.offset, rest)
      | .streamEnd => some ([], none, next :: rest)
      | _ => do
          let (first, rest) ← node text fuel none (next :: rest)
          let (more, close, rest) ← items text fuel rest
          some (first :: more, close, rest)

/-- The pairs up to the end of a mapping, and the offset of that end. -/
def pairs (text : List Char) :
    Nat → List PlacedEvent → Option (List Entry × Option Nat × List PlacedEvent)
  | 0, _ => none
  | _ + 1, [] => some ([], none, [])
  | fuel + 1, next :: rest =>
      match next.event with
      | .mappingEnd => some ([], some next.offset, rest)
      | .streamEnd => some ([], none, next :: rest)
      | _ => do
          let (keyNode, rest) ← node text fuel none (next :: rest)
          let key := keyOf text keyNode
          let (value, rest) ← node text fuel (some (Extent.afterColon text key.span.stop)) rest
          let (more, close, rest) ← pairs text fuel rest
          some (entryOf key value :: more, close, rest)

end

def root (text : List Char) (events : List PlacedEvent) : Option Node :=
  let whole : Span := ⟨0, text.length⟩
  let events := events.dropWhile isPrologue
  match events with
  | [] => some (.mapping whole [])
  | first :: _ =>
      if first.event = .streamEnd ∨ first.event = .documentEnd then some (.mapping whole [])
      else do
        let (found, _) ← node text (steps events) none events
        some (found.withSpan whole)

end Guarded

/-! ## Balanced streams -/

mutual

/-- The events of one node of a text: every start has its end, and every event stands in the text.
Aliases and the closing brackets of flow collections are characters of the text. -/
inductive OfNode (text : List Char) : List PlacedEvent → Prop where
  | scalar {mark : Nat} (style : Style) (value : List Char) (inside : mark ≤ text.length) :
      OfNode text [⟨mark, .scalar style value⟩]
  | reference {mark : Nat} (inside : mark < text.length) : OfNode text [⟨mark, .reference⟩]
  | sequence {mark close : Nat} {inner : List PlacedEvent} (items : OfItems text inner)
      (inside : mark ≤ text.length) (closed : close ≤ text.length)
      (bracket : opensAt text mark '[' = true → close < text.length) :
      OfNode text (⟨mark, .sequenceStart⟩ :: (inner ++ [⟨close, .sequenceEnd⟩]))
  | mapping {mark close : Nat} {inner : List PlacedEvent} (pairs : OfPairs text inner)
      (inside : mark ≤ text.length) (closed : close ≤ text.length)
      (bracket : opensAt text mark '\x7b' = true → close < text.length) :
      OfNode text (⟨mark, .mappingStart⟩ :: (inner ++ [⟨close, .mappingEnd⟩]))

inductive OfItems (text : List Char) : List PlacedEvent → Prop where
  | nil : OfItems text []
  | cons {first rest : List PlacedEvent} (item : OfNode text first) (more : OfItems text rest) :
      OfItems text (first ++ rest)

/-- The events of pairs, each key before its value. -/
inductive OfPairs (text : List Char) : List PlacedEvent → Prop where
  | nil : OfPairs text []
  | cons {first second rest : List PlacedEvent} (key : OfNode text first)
      (value : OfNode text second) (more : OfPairs text rest) :
      OfPairs text (first ++ (second ++ rest))

end

/-- The events of a stream: what leads up to its first document, the node of that document if it has
one, and whatever follows. -/
inductive OfStream (text : List Char) : List PlacedEvent → Prop where
  | written {prologue events : List PlacedEvent}
      (leading : ∀ event ∈ prologue, isPrologue event = true) (root : OfNode text events)
      (after : List PlacedEvent) : OfStream text (prologue ++ (events ++ after))
  | empty {prologue after : List PlacedEvent}
      (leading : ∀ event ∈ prologue, isPrologue event = true)
      (ended : ∀ next ∈ after.head?, next.event = .streamEnd ∨ next.event = .documentEnd) :
      OfStream text (prologue ++ after)

variable {text : List Char} {mark close fuel : Nat}

theorem OfNode.exists_cons {events : List PlacedEvent} (balanced : OfNode text events) :
    ∃ next rest, events = next :: rest ∧ Outline.begins next.event = true := by
  cases balanced <;> exact ⟨_, _, rfl, rfl⟩

/-! ## Nodes of the text -/

theorem nextOffset_le (text : List Char) (rest : List PlacedEvent) :
    nextOffset text rest ≤ text.length := by
  cases rest with
  | nil => exact Nat.le_refl _
  | cons next rest => exact Nat.min_le_right _ _

theorem guarded_scalarSpan {next : Nat} (value : List Char) (style : Style)
    (inside : mark ≤ text.length) (nextIn : next ≤ text.length) :
    Guarded.scalarSpan text value style mark next =
      some (scalarSpan text value style mark next) := by
  have start := Nat.le_trans (Extent.blockStart_le text mark) inside
  cases style <;>
    simp [Guarded.scalarSpan, scalarSpan, Extent.Guarded.singleQuotedEnd_eq,
      Extent.Guarded.doubleQuotedEnd_eq, Extent.Guarded.plainEnd_eq value next inside nextIn,
      Extent.Guarded.blockStart_eq inside, Extent.Guarded.blockEnd_eq start nextIn,
      Extent.singleQuotedEnd, Extent.doubleQuotedEnd]

theorem guarded_scalar (style : Style) (value : List Char) (emptyAt : Option Nat)
    (rest : List PlacedEvent) (inside : mark ≤ text.length) :
    Guarded.scalar text style value mark emptyAt rest =
      some (scalar text style value mark emptyAt rest) := by
  rw [Guarded.scalar, scalar, guarded_scalarSpan value style inside (nextOffset_le text rest)]
  split <;> rfl

theorem raw_scalarOver (span : Span) (value : List Char) (style : Style) :
    (scalarOver text span value style).raw.toList = span.slice text :=
  String.toList_ofList

theorem exact_emptyScalar {offset : Nat} (inside : offset ≤ text.length) :
    (Node.scalar (emptyScalar offset)).Exact text :=
  Node.exact_scalar ⟨Nat.le_refl _, inside⟩ (Span.slice_self text offset).symm

theorem exact_written (style : Style) (value : List Char) {emptyAt : Option Nat}
    (rest : List PlacedEvent) (inside : mark ≤ text.length)
    (emptyIn : ∀ offset ∈ emptyAt, offset ≤ text.length) :
    (Node.scalar (scalar text style value mark emptyAt rest)).Exact text := by
  rw [scalar]
  split
  · cases emptyAt with
    | none => exact exact_emptyScalar inside
    | some offset => exact exact_emptyScalar (emptyIn offset rfl)
  · exact Node.exact_scalar
      ⟨scalarSpan_forward value style _ inside,
        scalarSpan_stop_le value style inside (nextOffset_le text rest)⟩
      (raw_scalarOver _ value style)

theorem exact_reference (inside : mark < text.length) :
    (Node.scalar (reference text mark)).Exact text :=
  Node.exact_scalar
    ⟨Nat.le_of_lt (Extent.lt_aliasEnd text mark), Extent.aliasEnd_le inside⟩ (raw_scalarOver _ _ _)

theorem exact_sequenceOf {found : List Node} (each : ∀ item ∈ found, item.Exact text)
    (inside : mark ≤ text.length) (bracket : opensAt text mark '[' = true → close < text.length) :
    (sequenceOf text mark found (some close)).Exact text := by
  have itemsIn : itemsEnd found mark ≤ text.length := by
    rcases itemsEnd_cases found mark with ⟨-, ended⟩ | ⟨last, final, ended⟩
    · rwa [ended]
    · rw [ended]
      exact (each last (List.mem_of_getLast? final)).span.inside
  refine Node.exact_sequence ⟨Nat.le_max_right _ _, Nat.max_le.2 ⟨?_, inside⟩⟩ each
  split
  · exact bracket ‹_›
  · exact itemsIn

theorem exact_mappingOf {found : List Entry}
    (each : ∀ pair ∈ found, (Element.pair pair).InText text ∧ pair.value.Exact text)
    (inside : mark ≤ text.length)
    (bracket : opensAt text mark '\x7b' = true → close < text.length) :
    (mappingOf text mark found (some close)).Exact text := by
  have pairsIn : pairsEnd found mark ≤ text.length := by
    rcases pairsEnd_cases found mark with ⟨-, ended⟩ | ⟨last, final, ended⟩
    · rwa [ended]
    · rw [ended]
      exact (each last (List.mem_of_getLast? final)).1.own.inside
  refine Node.exact_mapping ⟨Nat.le_max_right _ _, Nat.max_le.2 ⟨?_, ?_⟩⟩ each
  · simp only
    split
    · exact bracket ‹_›
    · exact pairsIn
  · split
    · exact inside
    · exact Nat.le_trans (pairsStart_le found mark) inside

theorem inText_entryOf {k v : Node} (key : k.Exact text) (value : v.Exact text) :
    (Element.pair (entryOf (keyOf text k) v)).InText text := by
  have keySpan : (keyOf text k).span.InText text := by
    rw [span_keyOf]
    exact key.span
  have valueSpan := value.span
  refine ⟨⟨?_, Nat.max_le.2 ⟨valueSpan.inside, keySpan.inside⟩⟩, valueSpan, ?_, ?_, ?_⟩
  · exact Nat.le_trans keySpan.forward (Nat.le_max_right _ _)
  · rintro pair ⟨⟩
    exact keySpan
  · rintro pair ⟨⟩
    rfl
  · rintro pair ⟨⟩
    exact Nat.max_comm _ _

/-! ## The recursion -/

theorem guarded_items_cons {next : PlacedEvent} {rest after : List PlacedEvent} {n : Node}
    {found : List Node} {left : Option Nat × List PlacedEvent} (more : next.event ≠ .sequenceEnd)
    (open_ : next.event ≠ .streamEnd)
    (made : Guarded.node text fuel none (next :: rest) = some (n, after))
    (madeRest : Guarded.items text fuel after = some (found, left)) :
    Guarded.items text (fuel + 1) (next :: rest) = some (n :: found, left) := by
  rw [Guarded.items]
  split
  · contradiction
  · contradiction
  · simp [made, madeRest]

theorem guarded_pairs_cons {next : PlacedEvent} {rest between after : List PlacedEvent}
    {k v : Node} {found : List Entry} {left : Option Nat × List PlacedEvent}
    (more : next.event ≠ .mappingEnd) (open_ : next.event ≠ .streamEnd)
    (madeKey : Guarded.node text fuel none (next :: rest) = some (k, between))
    (madeValue : Guarded.node text fuel
      (some (Extent.afterColon text (keyOf text k).span.stop)) between = some (v, after))
    (madeRest : Guarded.pairs text fuel after = some (found, left)) :
    Guarded.pairs text (fuel + 1) (next :: rest) =
      some (entryOf (keyOf text k) v :: found, left) := by
  rw [Guarded.pairs]
  split
  · contradiction
  · contradiction
  · rw [span_keyOf] at madeValue
    simp [madeKey, madeValue, madeRest]

mutual

/-- Of the events of a node both composers make the same node, which is exact. -/
theorem OfNode.exists_exact {events : List PlacedEvent} (balanced : OfNode text events)
    (emptyAt : Option Nat) (emptyIn : ∀ offset ∈ emptyAt, offset ≤ text.length)
    (after : List PlacedEvent) :
    ∃ n, n.Exact text ∧ ∀ fuel, 2 * events.length ≤ fuel →
      Guarded.node text fuel emptyAt (events ++ after) = some (n, after) ∧
        node text fuel emptyAt (events ++ after) = (n, after) := by
  match balanced with
  | .scalar style value inside =>
      refine ⟨_, exact_written style value after inside emptyIn, ?_⟩
      intro fuel enough
      obtain ⟨fuel, rfl⟩ := Nat.exists_eq_add_one.2 (Nat.lt_of_lt_of_le (by simp) enough)
      simp [Guarded.node, node, guarded_scalar style value emptyAt after inside]
  | .reference inside =>
      refine ⟨_, exact_reference inside, ?_⟩
      intro fuel enough
      obtain ⟨fuel, rfl⟩ := Nat.exists_eq_add_one.2 (Nat.lt_of_lt_of_le (by simp) enough)
      simp [Guarded.node, node]
  | @OfNode.sequence _ mark close inner items inside _ bracket =>
      obtain ⟨found, each, made⟩ := items.exists_exact close after
      refine ⟨_, exact_sequenceOf each inside bracket, ?_⟩
      intro fuel enough
      obtain ⟨fuel, rfl⟩ := Nat.exists_eq_add_one.2 (Nat.lt_of_lt_of_le (by simp) enough)
      obtain ⟨guarded, plain⟩ := made fuel (by
        simp only [List.length_cons, List.length_append] at enough
        omega)
      simp [Guarded.node, node, guarded, plain]
  | @OfNode.mapping _ mark close inner pairs inside _ bracket =>
      obtain ⟨found, each, made⟩ := pairs.exists_exact close after
      refine ⟨_, exact_mappingOf each inside bracket, ?_⟩
      intro fuel enough
      obtain ⟨fuel, rfl⟩ := Nat.exists_eq_add_one.2 (Nat.lt_of_lt_of_le (by simp) enough)
      obtain ⟨guarded, plain⟩ := made fuel (by
        simp only [List.length_cons, List.length_append] at enough
        omega)
      simp [Guarded.node, node, guarded, plain]

theorem OfItems.exists_exact {events : List PlacedEvent} (balanced : OfItems text events)
    (close : Nat) (after : List PlacedEvent) :
    ∃ found : List Node, (∀ item ∈ found, item.Exact text) ∧
      ∀ fuel, 2 * events.length + 1 ≤ fuel →
        Guarded.items text fuel (events ++ ⟨close, .sequenceEnd⟩ :: after) =
            some (found, some close, after) ∧
          items text fuel (events ++ ⟨close, .sequenceEnd⟩ :: after) =
            (found, some close, after) := by
  match balanced with
  | .nil =>
      refine ⟨[], nofun, ?_⟩
      intro fuel enough
      obtain ⟨fuel, rfl⟩ := Nat.exists_eq_add_one.2 (Nat.lt_of_lt_of_le (by simp) enough)
      simp [Guarded.items, items]
  | @OfItems.cons _ first rest item more =>
      obtain ⟨n, own, made⟩ :=
        item.exists_exact none nofun (rest ++ ⟨close, .sequenceEnd⟩ :: after)
      obtain ⟨found, each, madeRest⟩ := more.exists_exact close after
      refine ⟨n :: found, List.forall_mem_cons.2 ⟨own, each⟩, ?_⟩
      intro fuel enough
      obtain ⟨next, later, rfl, begins⟩ := item.exists_cons
      obtain ⟨fuel, rfl⟩ := Nat.exists_eq_add_one.2 (Nat.lt_of_lt_of_le (by simp) enough)
      simp only [List.length_append, List.length_cons] at enough
      simp only [List.cons_append, List.append_assoc, List.length_cons] at made ⊢
      obtain ⟨guarded, plain⟩ := made fuel (by omega)
      obtain ⟨guardedRest, plainRest⟩ := madeRest fuel (by omega)
      have notEnd : next.event ≠ .sequenceEnd := ne_of_begins begins rfl
      have running : next.event ≠ .streamEnd := ne_of_begins begins rfl
      exact ⟨guarded_items_cons notEnd running guarded guardedRest,
        by rw [items_cons notEnd running plain, plainRest]⟩

theorem OfPairs.exists_exact {events : List PlacedEvent} (balanced : OfPairs text events)
    (close : Nat) (after : List PlacedEvent) :
    ∃ found : List Entry,
      (∀ pair ∈ found, (Element.pair pair).InText text ∧ pair.value.Exact text) ∧
      ∀ fuel, 2 * events.length + 1 ≤ fuel →
        Guarded.pairs text fuel (events ++ ⟨close, .mappingEnd⟩ :: after) =
            some (found, some close, after) ∧
          pairs text fuel (events ++ ⟨close, .mappingEnd⟩ :: after) =
            (found, some close, after) := by
  match balanced with
  | .nil =>
      refine ⟨[], nofun, ?_⟩
      intro fuel enough
      obtain ⟨fuel, rfl⟩ := Nat.exists_eq_add_one.2 (Nat.lt_of_lt_of_le (by simp) enough)
      simp [Guarded.pairs, pairs]
  | @OfPairs.cons _ first second rest key value more =>
      obtain ⟨k, ownKey, madeKey⟩ :=
        key.exists_exact none nofun
          (second ++ (rest ++ ⟨close, .mappingEnd⟩ :: after))
      have keyEnd : (keyOf text k).span.stop ≤ text.length := by
        rw [span_keyOf]
        exact ownKey.span.inside
      obtain ⟨v, ownValue, madeValue⟩ :=
        value.exists_exact (some (Extent.afterColon text (keyOf text k).span.stop))
          (by simpa using Extent.afterColon_le keyEnd) (rest ++ ⟨close, .mappingEnd⟩ :: after)
      obtain ⟨found, each, madeRest⟩ := more.exists_exact close after
      refine ⟨entryOf (keyOf text k) v :: found,
        List.forall_mem_cons.2 ⟨⟨inText_entryOf ownKey ownValue, ownValue⟩, each⟩, ?_⟩
      intro fuel enough
      obtain ⟨next, later, rfl, begins⟩ := key.exists_cons
      obtain ⟨fuel, rfl⟩ := Nat.exists_eq_add_one.2 (Nat.lt_of_lt_of_le (by simp) enough)
      simp only [List.length_append, List.length_cons] at enough
      simp only [List.cons_append, List.append_assoc, List.length_cons] at madeKey ⊢
      obtain ⟨guardedKey, plainKey⟩ := madeKey fuel (by omega)
      obtain ⟨guardedValue, plainValue⟩ := madeValue fuel (by omega)
      obtain ⟨guardedRest, plainRest⟩ := madeRest fuel (by omega)
      have notEnd : next.event ≠ .mappingEnd := ne_of_begins begins rfl
      have running : next.event ≠ .streamEnd := ne_of_begins begins rfl
      exact ⟨guarded_pairs_cons notEnd running guardedKey guardedValue guardedRest,
        by rw [pairs_cons notEnd running plainKey plainValue, plainRest]⟩

end

/-! ## The root -/

theorem dropWhile_prologue {prologue : List PlacedEvent} (after : List PlacedEvent)
    (leading : ∀ event ∈ prologue, isPrologue event = true)
    (led : ∀ next ∈ after.head?, isPrologue next = false) :
    (prologue ++ after).dropWhile isPrologue = after := by
  rw [List.dropWhile_append_of_pos leading]
  cases after with
  | nil => rfl
  | cons next rest => exact List.dropWhile_cons_of_neg (by simp [led next rfl])

theorem exact_empty (text : List Char) : (Node.mapping ⟨0, text.length⟩ []).Exact text :=
  Node.exact_mapping ⟨Nat.zero_le _, Nat.le_refl _⟩ nofun

/-- From a balanced stream the guarded composer makes the root that the composer makes, so every
scan ends and stays in the text. All spans of the tree lie in the text, a pair starts with its key
and stops with its key or its value, whichever stops later, and the scalars in a collection keep the
text under their spans. -/
theorem inText_root {events : List PlacedEvent} (balanced : OfStream text events) :
    Guarded.root text events = some (root text events) ∧
      (∀ element, (Element.node (root text events)).Holds element → element.InText text) ∧
      ((root text events).isContainer = true →
        (root text events).EachScalar fun s => s.raw.toList = s.span.slice text) := by
  cases balanced with
  | @written prologue events leading balanced after =>
      obtain ⟨n, own, made⟩ := balanced.exists_exact none nofun after
      obtain ⟨next, rest, rfl, begins⟩ := balanced.exists_cons
      obtain ⟨guarded, plain⟩ := made (steps (next :: rest ++ after)) (by
        simp only [steps, List.length_append]
        omega)
      have notLeading : isPrologue next = false := by
        have first : next.event ≠ .streamStart := ne_of_begins begins rfl
        have second : next.event ≠ .documentStart := ne_of_begins begins rfl
        simp [isPrologue, first, second]
      have running : ¬(next.event = .streamEnd ∨ next.event = .documentEnd) :=
        not_or.2 ⟨ne_of_begins begins rfl, ne_of_begins begins rfl⟩
      have skipped := dropWhile_prologue (next :: rest ++ after) leading (by simpa using notLeading)
      rw [List.cons_append] at guarded plain skipped
      simp only [Guarded.root, root, List.cons_append, skipped, if_neg running, guarded, plain]
      exact ⟨rfl, own.withSpan ⟨Nat.zero_le _, Nat.le_refl _⟩⟩
  | @empty prologue after leading ended =>
      have skipped := dropWhile_prologue after leading (by
        intro next first
        rcases ended next first with same | same <;> simp [isPrologue, same])
      have none : Guarded.root text (prologue ++ after) = some (.mapping ⟨0, text.length⟩ []) ∧
          root text (prologue ++ after) = .mapping ⟨0, text.length⟩ [] := by
        simp only [Guarded.root, root, skipped]
        cases after with
        | nil => exact ⟨rfl, rfl⟩
        | cons next rest => simp [ended next rfl]
      rw [none.1, none.2]
      exact ⟨rfl, (exact_empty text).inText, fun _ => (exact_empty text).raw⟩

/-- A block scalar that is marked below its header, a sequence as a key, and a value that is not
written. -/
def aliasedKey : List Char :=
  "a: &b |\n  c\n[*b]: \n".toList

def aliasedKeyLeading : List PlacedEvent :=
  [⟨0, .streamStart⟩, ⟨1, .documentStart⟩]

def aliasedKeyEvents : List PlacedEvent :=
  [⟨1, .mappingStart⟩, ⟨0, .scalar .plain ['a']⟩, ⟨10, .scalar .literal ['c', '\n']⟩,
    ⟨12, .sequenceStart⟩, ⟨13, .reference⟩, ⟨15, .sequenceEnd⟩, ⟨19, .scalar .plain []⟩,
    ⟨19, .mappingEnd⟩]

def aliasedKeyAfter : List PlacedEvent :=
  [⟨19, .documentEnd⟩, ⟨19, .streamEnd⟩]

theorem ofNode_aliasedKeyEvents : OfNode aliasedKey aliasedKeyEvents := by
  have key : OfNode aliasedKey [⟨12, .sequenceStart⟩, ⟨13, .reference⟩, ⟨15, .sequenceEnd⟩] :=
    .sequence (.cons (.reference (by decide)) .nil) (by decide) (by decide) (by decide)
  exact .mapping
    (.cons (.scalar _ _ (by decide)) (.scalar _ _ (by decide))
      (.cons key (.scalar _ _ (by decide)) .nil))
    (by decide) (by decide) (by decide)

theorem inText_root_aliasedKey :
    Snapshot.placedEvents aliasedKey =
        .ok (aliasedKeyLeading ++ (aliasedKeyEvents ++ aliasedKeyAfter)) ∧
      OfStream aliasedKey (aliasedKeyLeading ++ (aliasedKeyEvents ++ aliasedKeyAfter)) ∧
      ∃ root, Guarded.root aliasedKey
          (aliasedKeyLeading ++ (aliasedKeyEvents ++ aliasedKeyAfter)) = some root ∧
        (∀ element, (Element.node root).Holds element → element.InText aliasedKey) ∧
        root.isContainer = true ∧
        root.EachScalar fun s => s.raw.toList = s.span.slice aliasedKey := by
  have balanced : OfStream aliasedKey
      (aliasedKeyLeading ++ (aliasedKeyEvents ++ aliasedKeyAfter)) :=
    .written (by decide) ofNode_aliasedKeyEvents _
  have container : (root aliasedKey
      (aliasedKeyLeading ++ (aliasedKeyEvents ++ aliasedKeyAfter))).isContainer = true := by
    decide +kernel
  obtain ⟨made, inText, raw⟩ := inText_root balanced
  exact ⟨by decide +kernel, balanced, _, made, inText, container, raw container⟩

end Composer

end WorkflowScope
