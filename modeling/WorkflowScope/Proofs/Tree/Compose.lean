import WorkflowScope.Proofs.Tree.Fitting

/-!
# Composed nodes keep to their room

One lemma for each way to make a node, and the recursion of the composer over chained events. A
collection gets the room of its children; what remains is where its own span comes from.
-/

namespace WorkflowScope.Composer

open Extent (shownEnd shownAliasEnd)

variable {text : List Char} {lo mark hi mid top close : Nat} {bound : Option Nat}

/-! ## Leaves -/

theorem fitted_empty (behind : lo ≤ mark) (room : mark ≤ hi) (bounded : ∀ b ∈ bound, mark ≤ b) :
    Fitted text lo hi bound (.scalar (emptyScalar mark)) where
  start := .inr behind
  start_le := .inr room
  bounded := bounded
  stop := .inr room
  forward := Nat.le_refl _

theorem fitted_scalar {style : Yaml.Style} {value : List Char} (next : Nat) (behind : lo ≤ mark)
    (room : mark ≤ hi) (shown : shownEnd text value style mark ≤ hi) (inside : hi ≤ text.length)
    (bounded : ∀ b ∈ bound, mark ≤ b) :
    Fitted text lo hi bound
      (.scalar (scalarOver text (scalarSpan text value style mark next) value style)) where
  start := (scalarSpan_start_eq_or text value style mark next).symm.imp_right fun same => by
    simpa [Node.span, scalarOver, same] using behind
  start_le := .inr (Nat.le_trans (scalarSpan_start_le text value style mark next) room)
  bounded b given := Nat.le_trans (scalarSpan_start_le text value style mark next) (bounded b given)
  stop := (endInferred_scalarOver text value style mark next).imp_right fun ended =>
    Nat.le_trans ended shown
  forward := scalarSpan_forward value style next (Nat.le_trans room inside)

theorem fitted_reference (behind : lo ≤ mark) (room : mark ≤ hi)
    (shown : shownAliasEnd text mark ≤ hi) (bounded : ∀ b ∈ bound, mark ≤ b) :
    Fitted text lo hi bound (.scalar (reference text mark)) where
  start := .inr behind
  start_le := .inr room
  bounded := bounded
  stop := (endInferred_reference text mark).imp_right fun ended => Nat.le_trans ended shown
  forward := Nat.le_of_lt (Extent.lt_aliasEnd text mark)

/-! ## Brackets -/

/-- A collection from its mark past its closing bracket has its children inside. -/
theorem fitted_enclosed {n : Node} (span : n.span = ⟨mark, max (close + 1) mark⟩)
    (behind : lo ≤ mark) (room : mark < hi) (bounded : ∀ b ∈ bound, mark ≤ b)
    (strand : Strand text hi mid n.children) (closed : mid ≤ close + 1) (tail : close + 1 ≤ top)
    (inside : top ≤ text.length) : Fitted text lo top bound n ∧ Filled text lo n := by
  have reach := strand.le
  have start : n.span.start = mark := by rw [span]
  have stop : n.span.stop = max (close + 1) mark := by rw [span]
  constructor
  · constructor
    · exact .inr (by simpa only [Element.span, start] using behind)
    · exact .inr (by omega)
    · simpa only [start] using bounded
    · exact .inr (by omega)
    · omega
  · refine ⟨⟨hi, mid, by omega, by omega, strand⟩, .inr ?_, .inr ?_⟩
    · intro first front
      exact (strand.head front).imp_right fun later => by omega
    · intro last final
      exact (strand.last final).imp_right fun before => by omega

/-- Nothing is known of the end of a collection that has borrowed its bracket, nor of where its
children stand in it. -/
theorem fitted_borrowing {n : Node} (span : n.span = ⟨mark, max (close + 1) mark⟩)
    (marked : lo ≤ mark) (room : opensAt text mark '\x7b' = true ∨ mark ≤ top)
    (bounded : ∀ b ∈ bound, mark ≤ b) (borrowed : n.borrows text = true)
    (ended : n.endInferred text = true) (behind : lo ≤ hi) (strand : Strand text hi mid n.children)
    (inside : mid ≤ text.length) : Fitted text lo top bound n ∧ Filled text lo n := by
  have start : n.span.start = mark := by rw [span]
  have stop : n.span.stop = max (close + 1) mark := by rw [span]
  constructor
  · constructor
    · exact .inr (by simpa only [Element.span, start] using marked)
    · simpa only [start] using room
    · simpa only [start] using bounded
    · exact .inl ended
    · omega
  · exact ⟨⟨hi, mid, behind, inside, strand⟩, .inl borrowed, .inl borrowed⟩

/-! ## Sequences -/

theorem itemsEnd_cases (items : List Node) (start : Nat) :
    (items = [] ∧ itemsEnd items start = start) ∨
      ∃ last, items.getLast? = some last ∧ itemsEnd items start = last.span.stop := by
  cases found : items.getLast? with
  | none => exact .inl ⟨List.getLast?_eq_none_iff.1 found, by simp [itemsEnd, found]⟩
  | some last => exact .inr ⟨last, rfl, by simp [itemsEnd, found]⟩

/-- A block sequence reaches to the end of its last item. -/
theorem fitted_blockSequence {found : List Node} (behind : lo ≤ mark) (room : mark ≤ hi)
    (bounded : ∀ b ∈ bound, mark ≤ b) (block : opensAt text mark '[' = false)
    (strand : Strand text hi mid (found.map .node)) (tail : mid ≤ top) (inside : top ≤ text.length) :
    Fitted text lo top bound (sequenceOf text mark found (some close)) ∧
      Filled text lo (sequenceOf text mark found (some close)) := by
  have reach := strand.le
  have made : sequenceOf text mark found (some close) =
      .sequence ⟨mark, max (itemsEnd found mark) mark⟩ found := by
    simp [sequenceOf, block]
  rw [made]
  refine ⟨⟨.inr behind, .inr (by show mark ≤ top; omega), bounded, ?_, Nat.le_max_right _ _⟩,
    ⟨⟨hi, mid, by omega, by omega, strand⟩, .inr ?_, .inr ?_⟩⟩
  · rcases itemsEnd_cases found mark with ⟨_, ended⟩ | ⟨last, final, ended⟩
    · refine .inr ?_
      show max (itemsEnd found mark) mark ≤ top
      omega
    · have final' : last.endInferred text = true ∨ last.span.stop ≤ mid :=
        @Strand.last _ _ _ _ strand (.node last) (by simp [final])
      refine final'.imp (fun inferred => ?_) fun before => ?_
      · simpa [Node.endInferred, block, itemsEndInferred_eq, final] using inferred
      · show max (itemsEnd found mark) mark ≤ top
        omega
  · intro first front
    exact (strand.head front).imp_right fun later => Nat.le_trans room later
  · intro last final
    simp only [Node.children, List.getLast?_map, Option.mem_def, Option.map_eq_some_iff] at final
    obtain ⟨item, final, rfl⟩ := final
    refine .inr ?_
    show item.span.stop ≤ max (itemsEnd found mark) mark
    have reaches : itemsEnd found mark = item.span.stop := by simp [itemsEnd, final]
    omega

/-- A flow sequence reaches past its closing bracket. -/
theorem fitted_flowSequence {found : List Node} (behind : lo ≤ mark) (room : mark < hi)
    (bounded : ∀ b ∈ bound, mark ≤ b) (flow : opensAt text mark '[' = true)
    (strand : Strand text hi mid (found.map .node)) (closed : mid ≤ close + 1)
    (tail : close + 1 ≤ top) (inside : top ≤ text.length) :
    Fitted text lo top bound (sequenceOf text mark found (some close)) ∧
      Filled text lo (sequenceOf text mark found (some close)) := by
  have made : sequenceOf text mark found (some close) =
      .sequence ⟨mark, max (close + 1) mark⟩ found := by
    simp [sequenceOf, flow]
  rw [made]
  exact fitted_enclosed rfl behind room bounded strand closed tail inside

/-- A sequence at a bracket of its first item has borrowed it. -/
theorem fitted_borrowedSequence {first : Node} {more : List Node} (behind : lo ≤ mark)
    (room : mark ≤ hi) (bounded : ∀ b ∈ bound, mark ≤ b) (flow : opensAt text mark '[' = true)
    (front : first.span.start ≤ mark) (strand : Strand text hi mid ((first :: more).map .node))
    (tail : mid ≤ top) (inside : top ≤ text.length) :
    Fitted text lo top bound (sequenceOf text mark (first :: more) (some close)) ∧
      Filled text lo (sequenceOf text mark (first :: more) (some close)) := by
  have reach := strand.le
  have made : sequenceOf text mark (first :: more) (some close) =
      .sequence ⟨mark, max (close + 1) mark⟩ (first :: more) := by
    simp [sequenceOf, flow]
  have borrowed : (Node.sequence ⟨mark, max (close + 1) mark⟩ (first :: more)).borrows text =
      true := by
    simp [Node.borrows, flow, front]
  rw [made]
  exact fitted_borrowing rfl behind (.inr (by omega)) bounded borrowed
    (by simp [Node.endInferred, flow, borrowed]) (by omega) strand (by omega)

/-! ## Mappings -/

theorem pairsEnd_cases (pairs : List Entry) (start : Nat) :
    (pairs = [] ∧ pairsEnd pairs start = start) ∨
      ∃ last, pairs.getLast? = some last ∧ pairsEnd pairs start = last.span.stop := by
  cases found : pairs.getLast? with
  | none => exact .inl ⟨List.getLast?_eq_none_iff.1 found, by simp [pairsEnd, found]⟩
  | some last => exact .inr ⟨last, rfl, by simp [pairsEnd, found]⟩

theorem pairsStart_le (pairs : List Entry) (mark : Nat) : pairsStart pairs mark ≤ mark := by
  cases pairs with
  | nil => simp [pairsStart]
  | cons first more => exact Nat.min_le_right _ _

/-- A mapping without a brace reaches from its first to its last pair. -/
theorem filled_blockMapping {found : List Entry} (behind : lo ≤ hi)
    (keyed : ∀ pair ∈ found, pair.key.span.start = pair.span.start)
    (block : opensAt text mark '\x7b' = false) (strand : Strand text hi mid (found.map .pair))
    (inside : mid ≤ text.length) : Filled text lo (mappingOf text mark found (some close)) := by
  have made : mappingOf text mark found (some close) =
      .mapping ⟨pairsStart found mark, max (pairsEnd found mark) (pairsStart found mark)⟩ found := by
    simp [mappingOf, block]
  rw [made]
  refine ⟨⟨hi, mid, behind, inside, strand⟩, .inr ?_, .inr ?_⟩
  · intro c front
    simp only [Node.children, List.head?_map, Option.mem_def, Option.map_eq_some_iff] at front
    obtain ⟨first, front, rfl⟩ := front
    refine .inr ?_
    show pairsStart found mark ≤ first.span.start
    have same := keyed first (List.mem_of_head? front)
    simp only [pairsStart, front, Option.map_some, Option.getD_some, same]
    exact Nat.min_le_left _ _
  · intro c final
    simp only [Node.children, List.getLast?_map, Option.mem_def, Option.map_eq_some_iff] at final
    obtain ⟨last, final, rfl⟩ := final
    refine .inr ?_
    show last.span.stop ≤ max (pairsEnd found mark) (pairsStart found mark)
    have reaches : pairsEnd found mark = last.span.stop := by simp [pairsEnd, final]
    omega

/-- It ends with its last pair, unless it starts at a brace of its first key. -/
theorem stop_blockMapping {found : List Entry}
    (keyed : ∀ pair ∈ found, pair.key.span.start = pair.span.start)
    (block : opensAt text mark '\x7b' = false) (strand : Strand text hi mid (found.map .pair))
    (start : opensAt text (pairsStart found mark) '\x7b' = true ∨ pairsStart found mark ≤ top)
    (tail : mid ≤ top) :
    (mappingOf text mark found (some close)).endInferred text = true ∨
      (mappingOf text mark found (some close)).span.stop ≤ top := by
  have made : mappingOf text mark found (some close) =
      .mapping ⟨pairsStart found mark, max (pairsEnd found mark) (pairsStart found mark)⟩ found := by
    simp [mappingOf, block]
  rw [made]
  by_cases brace : opensAt text (pairsStart found mark) '\x7b' = true
  · cases found with
    | nil => simp [pairsStart, block] at brace
    | cons first more =>
        have same := keyed first (by simp)
        refine .inl ?_
        simp only [Node.endInferred, brace, if_true, Node.borrows, Bool.true_and,
          decide_eq_true_eq]
        by_cases early : first.span.start ≤ mark
        · simp [pairsStart, same, Nat.min_eq_left early]
        · have late : pairsStart (first :: more) mark = mark := by
            simp only [pairsStart, List.head?_cons, Option.map_some, Option.getD_some, same]
            omega
          rw [late, block] at brace
          cases brace
  · have start := start.resolve_left brace
    rcases pairsEnd_cases found mark with ⟨none, ended⟩ | ⟨last, final, ended⟩
    · refine .inr ?_
      show max (pairsEnd found mark) (pairsStart found mark) ≤ top
      subst none
      simp only [pairsStart, List.head?_nil, Option.map_none, Option.getD_none] at start ⊢
      omega
    · have final' : Entry.endInferred text last = true ∨ last.span.stop ≤ mid :=
        @Strand.last _ _ _ _ strand (.pair last) (by simp [final])
      refine final'.imp (fun inferred => ?_) fun before => ?_
      · simpa [Node.endInferred, brace, pairsEndInferred_eq, final] using inferred
      · show max (pairsEnd found mark) (pairsStart found mark) ≤ top
        omega

/-- A mapping that starts at its mark or at an earlier key. -/
theorem fitted_blockMapping {found : List Entry} (behind : lo ≤ mark) (room : mark ≤ hi)
    (bounded : ∀ b ∈ bound, mark ≤ b)
    (keyed : ∀ pair ∈ found, pair.key.span.start = pair.span.start)
    (block : opensAt text mark '\x7b' = false) (strand : Strand text hi mid (found.map .pair))
    (tail : mid ≤ top) (inside : top ≤ text.length) :
    Fitted text lo top bound (mappingOf text mark found (some close)) ∧
      Filled text lo (mappingOf text mark found (some close)) := by
  have reach := strand.le
  have early := pairsStart_le found mark
  have span : (mappingOf text mark found (some close)).span =
      ⟨pairsStart found mark, max (pairsEnd found mark) (pairsStart found mark)⟩ := by
    simp [mappingOf, block, Node.span]
  refine ⟨⟨?_, ?_, ?_, stop_blockMapping keyed block strand (.inr (by omega)) tail, ?_⟩,
    filled_blockMapping (by omega) keyed block strand (by omega)⟩
  · simp only [Element.startInferred, Element.span, span]
    cases found with
    | nil => exact .inr (by simpa [pairsStart] using behind)
    | cons first more =>
        have same := keyed first (by simp)
        by_cases late : mark ≤ first.span.start
        · refine .inr ?_
          simp only [pairsStart, List.head?_cons, Option.map_some, Option.getD_some, same]
          omega
        · have start : pairsStart (first :: more) mark = first.span.start := by
            simp only [pairsStart, List.head?_cons, Option.map_some, Option.getD_some, same]
            omega
          rw [start]
          exact (strand.head rfl).imp_right fun later => by
            have : hi ≤ first.span.start := later
            omega
  · rw [span]
    exact .inr (by show pairsStart found mark ≤ top; omega)
  · intro b given
    rw [span]
    exact Nat.le_trans early (bounded b given)
  · rw [span]
    exact Nat.le_max_right _ _

/-- A mapping that starts at its first key, which stands no later than its mark. -/
theorem fitted_looseMapping {first : Entry} {more : List Entry} (behind : lo ≤ hi)
    (front : first.span.start ≤ mark) (bounded : ∀ b ∈ bound, first.span.start ≤ b)
    (keyed : ∀ pair ∈ first :: more, pair.key.span.start = pair.span.start)
    (block : opensAt text mark '\x7b' = false)
    (strand : Strand text hi mid ((first :: more).map .pair))
    (brace : opensAt text first.span.start '\x7b' = true ∨ first.span.start ≤ mid)
    (tail : mid ≤ top) (inside : top ≤ text.length) :
    Fitted text lo top bound (mappingOf text mark (first :: more) (some close)) ∧
      Filled text lo (mappingOf text mark (first :: more) (some close)) := by
  have same := keyed first (by simp)
  have start : pairsStart (first :: more) mark = first.span.start := by
    simp only [pairsStart, List.head?_cons, Option.map_some, Option.getD_some, same]
    omega
  have span : (mappingOf text mark (first :: more) (some close)).span =
      ⟨first.span.start, max (pairsEnd (first :: more) mark) first.span.start⟩ := by
    simp [mappingOf, block, Node.span, start]
  have room : opensAt text first.span.start '\x7b' = true ∨ first.span.start ≤ top :=
    brace.imp_right fun before => Nat.le_trans before tail
  refine ⟨⟨?_, ?_, ?_, stop_blockMapping keyed block strand (by rwa [start]) tail, ?_⟩,
    filled_blockMapping behind keyed block strand (by omega)⟩
  · simp only [Element.startInferred, Element.span, span]
    exact (strand.head rfl).imp_right fun later => Nat.le_trans behind later
  · rw [span]
    exact room
  · intro b given
    rw [span]
    exact bounded b given
  · rw [span]
    exact Nat.le_max_right _ _

/-- A flow mapping reaches past its closing brace. -/
theorem fitted_flowMapping {found : List Entry} (behind : lo ≤ mark) (room : mark < hi)
    (bounded : ∀ b ∈ bound, mark ≤ b) (flow : opensAt text mark '\x7b' = true)
    (strand : Strand text hi mid (found.map .pair)) (closed : mid ≤ close + 1)
    (tail : close + 1 ≤ top) (inside : top ≤ text.length) :
    Fitted text lo top bound (mappingOf text mark found (some close)) ∧
      Filled text lo (mappingOf text mark found (some close)) := by
  have made : mappingOf text mark found (some close) =
      .mapping ⟨mark, max (close + 1) mark⟩ found := by
    simp [mappingOf, flow]
  rw [made]
  exact fitted_enclosed rfl behind room bounded strand closed tail inside

/-- A mapping at the brace of its first value has borrowed it. -/
theorem fitted_borrowedMapping {first : Entry} {more : List Entry} (behind : lo ≤ hi)
    (marked : lo ≤ mark) (bounded : ∀ b ∈ bound, mark ≤ b) (flow : opensAt text mark '\x7b' = true)
    (front : first.span.start ≤ mark) (strand : Strand text hi mid ((first :: more).map .pair))
    (inside : mid ≤ text.length) :
    Fitted text lo top bound (mappingOf text mark (first :: more) (some close)) ∧
      Filled text lo (mappingOf text mark (first :: more) (some close)) := by
  have made : mappingOf text mark (first :: more) (some close) =
      .mapping ⟨mark, max (close + 1) mark⟩ (first :: more) := by
    simp [mappingOf, flow]
  have borrowed : (Node.mapping ⟨mark, max (close + 1) mark⟩ (first :: more)).borrows text =
      true := by
    simp [Node.borrows, flow, front]
  rw [made]
  exact fitted_borrowing rfl marked (.inl flow) bounded borrowed
    (by simp [Node.endInferred, flow, borrowed]) behind strand inside

/-! ## The recursion -/

/-- What the composer makes of the events of one node. -/
def NodeFits (text : List Char) (fuel : Nat) : Prop :=
  ∀ {frame : Frame} {outer : List Frame} {lo : Nat} {bound emptyAt : Option Nat}
    {events : List PlacedEvent}, Chained text (frame :: outer) lo bound events →
    2 * events.length ≤ fuel → lo ≤ text.length →
    (∀ next ∈ events.head?, next.event ≠ .sequenceEnd ∧ next.event ≠ .mappingEnd) →
    (emptyAt.isSome = true → ∃ own, frame = .value own) →
    ∃ n rest hi, node text fuel emptyAt events = (n, rest) ∧ lo ≤ hi ∧ hi ≤ text.length ∧
      Chained text (Frame.afterNode (frame :: outer)) hi none rest ∧
      rest.length < events.length ∧ Filled text lo n ∧
      ((n.isMissing = true ∧ ∃ own, frame = .value own) ∨ Fitted text lo hi bound n)

def ItemsFit (text : List Char) (fuel : Nat) : Prop :=
  ∀ {own : Bool} {outer : List Frame} {lo : Nat} {inner : Option Nat} {events : List PlacedEvent},
    Chained text (.item own :: outer) lo inner events →
    2 * events.length + 1 ≤ fuel → lo ≤ text.length →
    ∃ found close rest mid hi, items text fuel events = (found, some close, rest) ∧
      Strand text lo mid (found.map .node) ∧ mid ≤ hi ∧ hi ≤ text.length ∧
      (own = true → mid ≤ close + 1 ∧ close + 1 ≤ hi) ∧
      Chained text outer hi none rest ∧ rest.length < events.length ∧
      ∀ b ∈ inner, ∃ first more, found = first :: more ∧ first.span.start ≤ b

def PairsFit (text : List Char) (fuel : Nat) : Prop :=
  ∀ {own : Bool} {outer : List Frame} {lo : Nat} {inner : Option Nat} {events : List PlacedEvent},
    Chained text (.key own :: outer) lo inner events →
    2 * events.length + 1 ≤ fuel → lo ≤ text.length →
    ∃ found close rest mid hi, pairs text fuel events = (found, some close, rest) ∧
      Strand text lo mid (found.map .pair) ∧ mid ≤ hi ∧ hi ≤ text.length ∧
      (own = true → mid ≤ close + 1 ∧ close + 1 ≤ hi) ∧
      Chained text outer hi none rest ∧ rest.length < events.length ∧
      (∀ pair ∈ found, pair.key.span.start = pair.span.start) ∧
      (∀ first ∈ found.head?,
        opensAt text first.span.start '\x7b' = true ∨ first.span.start ≤ mid) ∧
      ∀ b ∈ inner, ∃ first more, found = first :: more ∧ first.span.start ≤ b

/-- The events at an item are the end of the sequence or begin a node. -/
theorem items_cons {next : PlacedEvent} {rest : List PlacedEvent} {fuel : Nat} {n : Node}
    {after : List PlacedEvent} (more : next.event ≠ .sequenceEnd) (open_ : next.event ≠ .streamEnd)
    (made : node text fuel none (next :: rest) = (n, after)) :
    items text (fuel + 1) (next :: rest) =
      (n :: (items text fuel after).1, (items text fuel after).2) := by
  rw [items]
  split
  · contradiction
  · contradiction
  · simp [made]

theorem itemsFit_succ {fuel : Nat} (nodeFits : NodeFits text fuel) (itemsFit : ItemsFit text fuel) :
    ItemsFit text (fuel + 1) := by
  intro own outer lo inner events chained enough inside
  -- Only the end of the sequence is not an item.
  by_cases ended : ∃ mark rest, events = ⟨mark, .sequenceEnd⟩ :: rest
  · obtain ⟨mark, rest, rfl⟩ := ended
    cases chained with
    | @sequenceEnd _ _ _ _ hi _ behind inside closing more =>
        refine ⟨[], mark, rest, lo, hi, by simp [items], .nil (Nat.le_refl _), behind, inside,
          closing, more, by simp, by simp⟩
  · have item : ∃ next rest, events = next :: rest ∧ next.event ≠ .sequenceEnd ∧
        next.event ≠ .mappingEnd ∧ next.event ≠ .streamEnd := by
      cases chained with
      | sequenceEnd => simp at ended
      | _ => exact ⟨_, _, rfl, by simp, by simp, by simp⟩
    obtain ⟨next, rest, rfl, more, begins, running⟩ := item
    simp only [List.length_cons] at enough
    obtain ⟨n, after, hi, made, behind, insideHi, chained', shorter, filled, fits⟩ :=
      @nodeFits _ _ _ _ none _ chained (by simp only [List.length_cons]; omega) inside
        (by simpa using ⟨more, begins⟩) (by simp)
    have fitted := fits.resolve_left (by simp)
    simp only [List.length_cons] at shorter
    obtain ⟨found, close, rest', mid, top, made', strand, tail, insideTop, closing, chained'',
      shorter', -⟩ := itemsFit chained' (by omega) insideHi
    refine ⟨n :: found, close, rest', mid, top, ?_, ?_, tail, insideTop, closing, chained'',
      by simp only [List.length_cons]; omega, ?_⟩
    · rw [items_cons more running made, made']
    · exact .cons filled.settled_node fitted.forward fitted.start fitted.stop behind strand
    · exact fun b given => ⟨n, found, rfl, fitted.bounded b given⟩

theorem pairs_cons {next : PlacedEvent} {rest : List PlacedEvent} {fuel : Nat} {k v : Node}
    {between after : List PlacedEvent} (more : next.event ≠ .mappingEnd)
    (open_ : next.event ≠ .streamEnd)
    (madeKey : node text fuel none (next :: rest) = (k, between))
    (madeValue : node text fuel (some (Extent.afterColon text (keyOf text k).span.stop)) between =
      (v, after)) :
    pairs text (fuel + 1) (next :: rest) =
      (entryOf (keyOf text k) v :: (pairs text fuel after).1, (pairs text fuel after).2) := by
  rw [pairs]
  split
  · contradiction
  · contradiction
  · simp [madeKey, madeValue]

@[simp] theorem span_keyOf (n : Node) : (keyOf text n).span = n.span := by
  cases n <;> rfl

/-- A pair of a key and a value that keep to their rooms keeps to both. -/
theorem stop_entryOf {k v : Node} (fits : v.isMissing = true ∨ Fitted text lo hi none v) :
    Entry.endInferred text (entryOf (keyOf text k) v) = true ∨
      (entryOf (keyOf text k) v).span.stop ≤ hi := by
  rcases fits with missing | fitted
  · exact .inl (by simp [Entry.endInferred, entryOf, missing])
  · rcases fitted.stop with ended | ended
    · exact .inl (by simp [Entry.endInferred, entryOf, ended])
    · by_cases short : v.span.stop < k.span.stop
      · exact .inl (by simp [Entry.endInferred, entryOf, short])
      · refine .inr ?_
        simp only [entryOf, span_keyOf]
        omega

theorem pairsFit_succ {fuel : Nat} (nodeFits : NodeFits text fuel) (pairsFit : PairsFit text fuel) :
    PairsFit text (fuel + 1) := by
  intro own outer lo inner events chained enough inside
  by_cases ended : ∃ mark rest, events = ⟨mark, .mappingEnd⟩ :: rest
  · obtain ⟨mark, rest, rfl⟩ := ended
    cases chained with
    | @mappingEnd _ _ _ _ hi _ behind inside closing more =>
        refine ⟨[], mark, rest, lo, hi, by simp [pairs], .nil (Nat.le_refl _), behind, inside,
          closing, more, by simp, by simp, by simp, by simp⟩
  · have entry : ∃ next rest, events = next :: rest ∧ next.event ≠ .mappingEnd ∧
        next.event ≠ .sequenceEnd ∧ next.event ≠ .streamEnd := by
      cases chained with
      | mappingEnd => simp at ended
      | _ => exact ⟨_, _, rfl, by simp, by simp, by simp⟩
    obtain ⟨next, rest, rfl, more, begins, running⟩ := entry
    simp only [List.length_cons] at enough
    obtain ⟨k, between, hiKey, madeKey, behindKey, insideKey, chainedKey, shorterKey, -, fitsKey⟩ :=
      @nodeFits _ _ _ _ none _ chained (by simp only [List.length_cons]; omega) inside
        (by simpa using ⟨begins, more⟩) (by simp)
    have key := fitsKey.resolve_left (by simp)
    simp only [List.length_cons] at shorterKey
    obtain ⟨v, after, hi, madeValue, behind, insideHi, chainedValue, shorter, filled, fits⟩ :=
      @nodeFits _ _ _ _ (some (Extent.afterColon text (keyOf text k).span.stop)) _ chainedKey
        (by omega) insideKey (by cases chainedKey <;> simp [Yaml.Event.empty])
        (fun _ => ⟨own, rfl⟩)
    obtain ⟨found, close, rest', mid, top, made, strand, tail, insideTop, closing, chained',
      shorter', keyed, -, -⟩ := pairsFit chainedValue (by omega) insideHi
    refine ⟨entryOf (keyOf text k) v :: found, close, rest', mid, top, ?_, ?_, tail, insideTop,
      closing, chained', by simp only [List.length_cons]; omega, ?_, ?_, ?_⟩
    · rw [pairs_cons more running madeKey madeValue, made]
    · refine .cons ?_ ?_ ?_ (stop_entryOf (fits.imp_left And.left)) (Nat.le_trans behindKey behind)
        strand
      · exact filled.settled_pair (by simpa using key.start_le)
      · have forward := key.forward
        show (keyOf text k).span.start ≤ max v.span.stop (keyOf text k).span.stop
        rw [span_keyOf]
        omega
      · simpa [Element.startInferred, Element.span, entryOf] using key.start
    · intro pair member
      rcases List.mem_cons.1 member with rfl | member
      · rfl
      · exact keyed pair member
    · rintro first ⟨⟩
      have reach := strand.le
      refine key.start_le.imp (by simp [entryOf]) fun before => ?_
      simp only [entryOf, span_keyOf]
      omega
    · exact fun b given => ⟨_, _, rfl, by simpa [entryOf] using key.bounded b given⟩

theorem nodeFits_succ {fuel : Nat} (itemsFit : ItemsFit text fuel) (pairsFit : PairsFit text fuel) :
    NodeFits text (fuel + 1) := by
  intro frame outer lo bound emptyAt events chained enough inside begins valued
  cases chained with
  | sequenceEnd => simp at begins
  | mappingEnd => simp at begins
  | @missing own outer lo mark bound rest more =>
      refine ⟨.scalar (emptyScalar (emptyAt.getD mark)), rest, lo, ?_, Nat.le_refl _, inside, more,
        by simp, .scalar _ inside, .inl ⟨rfl, own, rfl⟩⟩
      simp [node, Yaml.Event.empty, scalar]
  | @scalar _ lo mark hi bound style value rest behind room shown insideHi bounded more =>
      by_cases empty : style = .plain ∧ value = []
      · refine ⟨.scalar (emptyScalar (emptyAt.getD mark)), rest, hi, by simp [node, scalar, empty],
          Nat.le_trans behind room, insideHi, more, by simp, .scalar _ inside, ?_⟩
        cases emptyAt with
        | none => exact .inr (fitted_empty behind room bounded)
        | some place => exact .inl ⟨rfl, valued rfl⟩
      · exact ⟨_, rest, hi, by simp only [node, scalar, empty, if_false]; rfl, Nat.le_trans behind room,
          insideHi, more, by simp, .scalar _ inside,
          .inr (fitted_scalar _ behind room shown insideHi bounded)⟩
  | @reference _ lo mark hi bound rest behind room shown insideHi bounded more =>
      exact ⟨.scalar (reference text mark), rest, hi, by simp only [node], Nat.le_trans behind room,
        insideHi, more, by simp, .scalar _ inside,
        .inr (fitted_reference behind room shown bounded)⟩
  | @sequence _ lo mark hi bound inner own rest behind room insideHi bounded opening more =>
      simp only [List.length_cons] at enough
      obtain ⟨found, close, rest', mid, top, made, strand, tail, insideTop, closing, chained,
        shorter, front⟩ := itemsFit more (by omega) insideHi
      have reach := strand.le
      refine ⟨sequenceOf text mark found (some close), rest', top, by simp [node, made], by omega,
        insideTop, chained, by simp only [List.length_cons]; omega, ?_⟩
      suffices both : Fitted text lo top bound (sequenceOf text mark found (some close)) ∧
          Filled text lo (sequenceOf text mark found (some close)) from ⟨both.2, .inr both.1⟩
      by_cases flow : opensAt text mark '[' = true
      · rcases opening flow with ⟨own, room⟩ | rfl
        · exact fitted_flowSequence behind room bounded flow strand (closing own).1 (closing own).2
            insideTop
        · obtain ⟨first, more, rfl, early⟩ := front mark rfl
          exact fitted_borrowedSequence behind room bounded flow early strand tail insideTop
      · exact fitted_blockSequence behind room bounded (by simpa using flow) strand tail insideTop
  | @mapping _ lo mark hi bound own rest behind room insideHi bounded opening more =>
      simp only [List.length_cons] at enough
      obtain ⟨found, close, rest', mid, top, made, strand, tail, insideTop, closing, chained,
        shorter, keyed, -, -⟩ := pairsFit more (by omega) insideHi
      have reach := strand.le
      refine ⟨mappingOf text mark found (some close), rest', top, by simp [node, made], by omega,
        insideTop, chained, by simp only [List.length_cons]; omega, ?_⟩
      suffices both : Fitted text lo top bound (mappingOf text mark found (some close)) ∧
          Filled text lo (mappingOf text mark found (some close)) from ⟨both.2, .inr both.1⟩
      by_cases flow : opensAt text mark '\x7b' = true
      · obtain ⟨own, room⟩ := opening flow
        exact fitted_flowMapping behind room bounded flow strand (closing own).1 (closing own).2
          insideTop
      · exact fitted_blockMapping behind room bounded keyed (by simpa using flow) strand tail
          insideTop
  | @loose _ lo mark hi inner bound own rest behind insideHi ahead marked bounded opening more =>
      simp only [List.length_cons] at enough
      obtain ⟨found, close, rest', mid, top, made, strand, tail, insideTop, closing, chained,
        shorter, keyed, brace, front⟩ := pairsFit more (by omega) insideHi
      have reach := strand.le
      refine ⟨mappingOf text mark found (some close), rest', top, by simp [node, made], by omega,
        insideTop, chained, by simp only [List.length_cons]; omega, ?_⟩
      suffices both : Fitted text lo top bound (mappingOf text mark found (some close)) ∧
          Filled text lo (mappingOf text mark found (some close)) from ⟨both.2, .inr both.1⟩
      obtain ⟨first, more, rfl, early⟩ := front inner rfl
      by_cases flow : opensAt text mark '\x7b' = true
      · exact fitted_borrowedMapping behind marked (opening flow) flow (by omega) strand (by omega)
      · exact fitted_looseMapping behind (by omega)
          (fun b given => Nat.le_trans early (bounded b given)) keyed (by simpa using flow) strand
          (brace first rfl) tail insideTop

/-- Nodes, items and pairs fit with any number of steps that is enough for their events. -/
theorem fits (text : List Char) (fuel : Nat) :
    NodeFits text fuel ∧ ItemsFit text fuel ∧ PairsFit text fuel := by
  induction fuel with
  | zero =>
      refine ⟨?_, ?_, ?_⟩
      · intro frame outer lo bound emptyAt events chained enough
        cases chained <;> simp at enough
      · intro own outer lo inner events chained enough
        omega
      · intro own outer lo inner events chained enough
        omega
  | succ fuel ih =>
      obtain ⟨nodeFits, itemsFit, pairsFit⟩ := ih
      exact ⟨nodeFits_succ itemsFit pairsFit, itemsFit_succ nodeFits itemsFit,
        pairsFit_succ nodeFits pairsFit⟩

/-! ## Roots -/

/-- The root covers the whole text, so its children lie in it wherever they stand. -/
theorem filled_root {n : Node} (filled : Filled text 0 n) :
    Filled text 0 (n.withSpan ⟨0, text.length⟩) := by
  have children : (n.withSpan ⟨0, text.length⟩).children = n.children := by
    cases n <;> rfl
  obtain ⟨first, last, behind, inside, strand⟩ := filled.strand
  rw [← children] at strand
  refine ⟨⟨first, last, behind, inside, strand⟩, .inr fun c _ => .inr ?_, .inr fun c final => ?_⟩
  · rw [Node.span_withSpan]
    exact Nat.zero_le _
  · rw [Node.span_withSpan]
    exact (strand.last final).imp_right fun before => Nat.le_trans before inside

theorem wellNested_mapping_nil (span : Span) : (Node.mapping span []).WellNested := by
  intro element holds
  rw [Element.holds_iff] at holds
  rcases holds with rfl | ⟨child, member, _⟩
  · exact ⟨by simp [Element.children, Element.value, Node.children], .nil⟩
  · cases member

/-- A tree of chained events is well nested, if it is nested at its inferred boundaries. -/
theorem wellNested_root {events : List PlacedEvent}
    (chained : Chained text [.root] 0 none (events.dropWhile isPrologue) ∨
      ∀ first ∈ (events.dropWhile isPrologue).head?,
        first.event = .streamEnd ∨ first.event = .documentEnd)
    (inferred : (root text events).InferredNested text) : (root text events).WellNested := by
  cases found : events.dropWhile isPrologue with
  | nil =>
      simp only [root, found]
      exact wellNested_mapping_nil _
  | cons first rest =>
      by_cases ended : first.event = .streamEnd ∨ first.event = .documentEnd
      · simp only [root, found, ended, if_true]
        exact wellNested_mapping_nil _
      · have chained := chained.resolve_right fun none => ended (none first (by simp [found]))
        rw [found] at chained
        obtain ⟨n, _, _, made, _, _, _, _, filled, -⟩ :=
          @(fits text (steps (first :: rest))).1 _ _ _ _ none _ chained
            (by simp only [steps]; omega) (Nat.zero_le _) (by cases chained <;> simp) (by simp)
        have tree : root text events = n.withSpan ⟨0, text.length⟩ := by
          simp only [root, found, ended, if_false, made]
        rw [tree] at inferred ⊢
        exact (filled_root filled).settled_node inferred

end WorkflowScope.Composer
