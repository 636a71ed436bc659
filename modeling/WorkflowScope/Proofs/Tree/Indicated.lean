import WorkflowScope.Command.Range
import WorkflowScope.Proofs.Tree.Headers
import WorkflowScope.Proofs.Tree.Leaves
import WorkflowScope.Proofs.Tree.Snapshot
import WorkflowScope.Proofs.Yaml.Seats
import WorkflowScope.Proofs.Yaml.Sources

/-!
# The indicator of a literal block

A scalar is taken for a literal block if its text begins with the indicator of one. Whether that
agrees with its style depends on what stands in the text: a block scalar is found by a search for its
header, and inside of a flow collection a plain scalar may begin with the indicator too.
-/

namespace WorkflowScope

open Composer (opensAt)
open Extent (Heads Bare Unmistaken taken blockStart)
open Yaml (Mark)
open Yaml.Layout (ReadInFlow)

def Yaml.Style.indicator? : Style → Option Char
  | .literal => some '|'
  | .folded => some '>'
  | .plain | .singleQuoted | .doubleQuoted => none

namespace Scalar

/-- The text of a scalar begins with the indicator of literal ones just if it is one, and that of a
folded scalar begins with its own. -/
structure Indicated (s : Scalar) : Prop where
  literal : s.raw.toList.head? = some '|' ↔ s.style = .literal
  folded : s.style = .folded → s.raw.toList.head? = some '>'

instance (s : Scalar) : Decidable s.Indicated :=
  decidable_of_iff
    ((s.raw.toList.head? = some '|' ↔ s.style = .literal) ∧
      (s.style = .folded → s.raw.toList.head? = some '>'))
    ⟨fun ⟨literal, folded⟩ => ⟨literal, folded⟩, fun shown => ⟨shown.literal, shown.folded⟩⟩

/-- Among scalars that are indicated, exactly the literal blocks are split into command lines. -/
theorem Indicated.spansOf_eq {s : Scalar} (shown : s.Indicated) :
    CommandRange.spansOf (.scalar s) =
      if s.style = .literal then CommandRange.blockSpans s.span.start s.raw.toList else [s.span] := by
  simp only [CommandRange.spansOf, shown.literal]

/-- The text of a scalar is what a text holds from an offset on. -/
def StandsAt (text : List Char) (offset : Nat) (s : Scalar) : Prop :=
  ∃ stop, s.raw = String.ofList (Span.slice ⟨offset, stop⟩ text)

/-- How a scalar is written in a text. -/
inductive Seat (text : List Char) (s : Scalar) where
  /-- It is not written. -/
  | missing (style : s.style = .plain) (raw : s.raw = "")
  /-- As an alias. -/
  | reference (style : s.style = .plain) (star : s.raw.toList.head? = some '*')
  /-- In quotes. -/
  | quoted (style : s.style = .singleQuoted ∨ s.style = .doubleQuoted)
      (quote : s.raw.toList.head? = some '\'' ∨ s.raw.toList.head? = some '"')
  /-- As it is; with the indicator of literal ones only inside of a flow collection. -/
  | plain (mark : Mark) (value : List Char) (style : s.style = .plain)
      (read : s.value = String.ofList value)
      (stands : s.StandsAt text (mark.offsetIn text))
      (flow : opensAt text (mark.offsetIn text) '|' = true →
        ReadInFlow text ⟨mark, .scalar .plain value⟩)
  /-- Below a header. -/
  | block (indicator : Char) (header mark : Nat) (style : s.style.indicator? = some indicator)
      (opens : opensAt text header indicator = true) (heads : Heads text header mark)
      (stands : s.StandsAt text (taken text header mark))
  /-- As a header below which nothing stands. -/
  | bare (indicator : Char) (header stop : Nat) (style : s.style.indicator? = some indicator)
      (opens : opensAt text header indicator = true) (bare : Bare text header stop)
      (stands : s.StandsAt text (blockStart text header))

/-- What is read there cannot be mistaken for anything else: a plain scalar does not begin with the
indicator of literal ones, and what is found in the search for a header is the header, or bears the
same indicator at least. -/
def Seat.Clear {text : List Char} {s : Scalar} : s.Seat text → Prop
  | .missing .. | .reference .. | .quoted .. => True
  | .plain mark .. => opensAt text (mark.offsetIn text) '|' = false
  | .block indicator header mark .. => Unmistaken text header mark ∨
      (taken text header mark ≠ header ∧ opensAt text (taken text header mark) indicator = true ∧
        s.raw ≠ "")
  | .bare indicator header .. => opensAt text (blockStart text header) indicator = true

variable {text : List Char} {s : Scalar}

/-- For a block scalar it is enough to know its own indicator. -/
theorem indicated_iff_of_indicator {indicator : Char} (style : s.style.indicator? = some indicator) :
    s.Indicated ↔ s.raw.toList.head? = some indicator := by
  cases kind : s.style with
  | literal =>
      rw [kind] at style
      cases style
      exact ⟨fun shown => shown.literal.2 kind,
        fun bar => ⟨⟨fun _ => kind, fun _ => bar⟩, by simp [kind]⟩⟩
  | folded =>
      rw [kind] at style
      cases style
      exact ⟨fun shown => shown.folded kind, fun angle => ⟨by simp [angle, kind], fun _ => angle⟩⟩
  | plain => rw [kind] at style; cases style
  | singleQuoted => rw [kind] at style; cases style
  | doubleQuoted => rw [kind] at style; cases style

/-- Any other scalar must not begin with the indicator of literal ones. -/
theorem indicated_iff_of_not_block (style : s.style.indicator? = none) :
    s.Indicated ↔ s.raw.toList.head? ≠ some '|' := by
  have other : s.style ≠ .literal ∧ s.style ≠ .folded := by
    constructor <;> intro same <;> rw [same] at style <;> cases style
  constructor
  · intro shown bar
    exact other.1 (shown.literal.1 bar)
  · intro bar
    exact ⟨⟨fun found => absurd found bar, fun same => absurd same other.1⟩,
      fun same => absurd same other.2⟩

/-! ## Where texts begin -/

theorem head?_slice {start stop : Nat} (before : start < stop) :
    (Span.slice ⟨start, stop⟩ text).head? = text[start]? := by
  rw [Span.slice, Span.length, List.head?_take, if_neg (by simp; omega), List.head?_drop]

theorem slice_of_le {start stop : Nat} (le : stop ≤ start) : Span.slice ⟨start, stop⟩ text = [] := by
  rw [Span.slice, Span.length, Nat.sub_eq_zero_of_le le, List.take_zero]

/-- A text that reaches further than its start begins with the character there. -/
theorem head?_of_raw {start stop : Nat} {char : Char}
    (raw : s.raw = String.ofList (Span.slice ⟨start, stop⟩ text)) (before : start < stop)
    (opens : opensAt text start char = true) : s.raw.toList.head? = some char := by
  rw [raw, String.toList_ofList, head?_slice before]
  exact beq_iff_eq.1 opens

/-- The text of a scalar that stands at an offset begins with the character there, or it is empty. -/
theorem StandsAt.head?_eq_some_iff {offset : Nat} {char : Char} (stands : s.StandsAt text offset) :
    s.raw.toList.head? = some char ↔ opensAt text offset char = true ∧ s.raw ≠ "" := by
  constructor
  · intro found
    have written : s.raw ≠ "" := by
      intro empty
      rw [empty] at found
      cases found
    obtain ⟨stop, raw⟩ := stands
    refine ⟨?_, written⟩
    rw [raw, String.toList_ofList] at found
    rcases Nat.lt_or_ge offset stop with before | le
    · rw [head?_slice before] at found
      exact beq_iff_eq.2 found
    · rw [slice_of_le le] at found
      cases found
  · rintro ⟨opens, written⟩
    obtain ⟨stop, raw⟩ := stands
    rcases Nat.lt_or_ge offset stop with before | le
    · exact head?_of_raw raw before opens
    · rw [slice_of_le le] at raw
      exact absurd raw written

theorem lt_blockEnd {start next : Nat} (before : start < next) :
    start < Extent.blockEnd text start next := by
  simp only [Extent.blockEnd]
  split
  · omega
  · exact Extent.le_lastBlockLineEnd _ _ (by omega) (by omega)

/-! ## Seats -/

/-- The scalar has a seat that tells whether it is indicated. -/
def HasSeat (text : List Char) (s : Scalar) : Prop :=
  ∃ seat : s.Seat text, (s.Indicated ↔ seat.Clear)

theorem hasSeat_missing (style : s.style = .plain) (raw : s.raw = "") : s.HasSeat text := by
  refine ⟨.missing style raw, ?_⟩
  rw [indicated_iff_of_not_block (by rw [style]; rfl), raw]
  exact ⟨fun _ => trivial, fun _ => nofun⟩

theorem hasSeat_reference (style : s.style = .plain) (star : s.raw.toList.head? = some '*') :
    s.HasSeat text := by
  refine ⟨.reference style star, ?_⟩
  rw [indicated_iff_of_not_block (by rw [style]; rfl), star]
  exact ⟨fun _ => trivial, fun _ => by decide⟩

theorem hasSeat_quoted (style : s.style = .singleQuoted ∨ s.style = .doubleQuoted)
    (quote : s.raw.toList.head? = some '\'' ∨ s.raw.toList.head? = some '"') : s.HasSeat text := by
  refine ⟨.quoted style quote, ?_⟩
  rw [indicated_iff_of_not_block (by rcases style with same | same <;> rw [same] <;> rfl)]
  refine ⟨fun _ => trivial, fun _ => ?_⟩
  rcases quote with same | same <;> rw [same] <;> decide

theorem hasSeat_plain {mark : Mark} {value : List Char} {stop : Nat} (style : s.style = .plain)
    (read : s.value = String.ofList value)
    (raw : s.raw = String.ofList (Span.slice ⟨mark.offsetIn text, stop⟩ text))
    (reaches : mark.offsetIn text < text.length → mark.offsetIn text < stop)
    (flow : opensAt text (mark.offsetIn text) '|' = true →
      ReadInFlow text ⟨mark, .scalar .plain value⟩) : s.HasSeat text := by
  refine ⟨.plain mark value style read ⟨stop, raw⟩ flow, ?_⟩
  refine (indicated_iff_of_not_block (by rw [style]; rfl)).trans ?_
  constructor
  · intro plain
    refine Bool.eq_false_iff.2 fun bar => plain (head?_of_raw raw (reaches ?_) bar)
    exact (List.getElem?_eq_some_iff.1 (beq_iff_eq.1 bar)).1
  · intro other bar
    exact Bool.eq_false_iff.1 other ((StandsAt.head?_eq_some_iff ⟨stop, raw⟩).1 bar).1

theorem hasSeat_block {indicator : Char} {header mark stop : Nat}
    (style : s.style.indicator? = some indicator) (opens : opensAt text header indicator = true)
    (heads : Heads text header mark)
    (raw : s.raw = String.ofList (Span.slice ⟨taken text header mark, stop⟩ text))
    (reaches : taken text header mark = header → header < stop) : s.HasSeat text := by
  refine ⟨.block indicator header mark style opens heads ⟨stop, raw⟩, ?_⟩
  refine (indicated_iff_of_indicator style).trans ?_
  constructor
  · intro found
    by_cases same : taken text header mark = header
    · exact Or.inl (heads.taken_eq_iff.1 same)
    · exact Or.inr ⟨same, (StandsAt.head?_eq_some_iff ⟨stop, raw⟩).1 found⟩
  · rintro (unmistaken | ⟨_, found⟩)
    · have same := heads.taken_eq_iff.2 unmistaken
      have before := reaches same
      rw [same] at raw
      exact head?_of_raw raw before opens
    · exact (StandsAt.head?_eq_some_iff ⟨stop, raw⟩).2 found

theorem hasSeat_bare {indicator : Char} {header ended stop : Nat}
    (style : s.style.indicator? = some indicator) (opens : opensAt text header indicator = true)
    (bare : Bare text header ended)
    (raw : s.raw = String.ofList (Span.slice ⟨blockStart text header, stop⟩ text))
    (reaches : blockStart text header < stop) : s.HasSeat text := by
  refine ⟨.bare indicator header ended style opens bare ⟨stop, raw⟩, ?_⟩
  refine (indicated_iff_of_indicator style).trans ?_
  constructor
  · intro found
    exact ((StandsAt.head?_eq_some_iff ⟨stop, raw⟩).1 found).1
  · exact head?_of_raw raw reaches

end Scalar

namespace Snapshot

open Yaml (MarkedEvent Seated Token)
open Yaml.Grammar (sourced_events)

variable {text : List Char} {events more : List MarkedEvent} {event : MarkedEvent}

/-- What the text shows of a leaf that is written, which the next event stands behind. -/
structure Shown (text : List Char) (event : MarkedEvent) (more : List MarkedEvent) (token : Token) :
    Prop where
  seated : Seated text (ReadInFlow text ⟨event.mark, token⟩)
    (∀ next ∈ more.head?, event.mark.offsetIn text < next.mark.offsetIn text) ⟨event.mark, token⟩
  ordered : ∀ next ∈ more.head?, event.mark.offsetIn text ≤ next.mark.offsetIn text

/-- A leaf that is written stands for a token of the text. -/
theorem exists_shown (read : Yaml.events text = .ok events) (part : event :: more <:+ events)
    (written : event.event.isWritten = true) :
    ∃ token, Shown text event more token ∧
      ((event.event = .reference ∧ ∃ name, token = .reference name) ∨
        ∃ style value, event.event = .scalar style value ∧ token = .scalar style value) := by
  obtain ⟨⟨mark, token, reached⟩, later, suffix, ⟨rfl, kind⟩, next⟩ :=
    sourced_events read part written
  refine ⟨token, ⟨?_, ?_⟩, kind⟩
  · refine ((Yaml.seats_tokenize text).of_suffix suffix).imp id fun alone other member => ?_
    rcases next other member with same | ⟨token, behind, same⟩
    · exact same ▸ alone.1
    · exact same ▸ alone.2 token behind
  · intro other member
    have leaf : token.isRead = true := by
      rcases kind with ⟨_, name, rfl⟩ | ⟨style, value, _, rfl⟩ <;> rfl
    rcases next other member with same | ⟨token, behind, same⟩
    · exact same ▸ Yaml.mark_le_reached (suffix.subset List.mem_cons_self)
    · exact same ▸ (Yaml.ahead_tokenize text).mark_le suffix leaf token behind

/-- What stands before the next event stands before the place that limits a scalar. -/
theorem lt_nextOffset {offset : Nat} (inside : offset < text.length)
    (before : ∀ next ∈ more.head?, offset < next.mark.offsetIn text) :
    offset < Composer.nextOffset text (more.map (place (Yaml.lineStarts text) text.length)) := by
  cases more with
  | nil => exact inside
  | cons next rest => exact Nat.lt_min.2 ⟨before next rfl, inside⟩

/-- An event that the composer meets is one of the text. -/
theorem exists_event_of_placed {offset : Nat} {kind : Yaml.Event} {rest : List PlacedEvent}
    (part : ⟨offset, kind⟩ :: rest <:+ events.map (place (Yaml.lineStarts text) text.length)) :
    ∃ event more, event :: more <:+ events ∧ event.mark.offsetIn text = offset ∧
      event.event = kind ∧ rest = more.map (place (Yaml.lineStarts text) text.length) := by
  obtain ⟨before, whole⟩ := part
  obtain ⟨first, last, rfl, -, same⟩ := List.map_eq_append_iff.1 whole.symm
  obtain ⟨event, more, rfl, front, back⟩ := List.map_eq_cons_iff.1 same
  cases front
  exact ⟨event, more, List.suffix_append _ _, rfl, rfl, back.symm⟩

theorem lt_length_of_opensAt {offset : Nat} {char : Char} (opens : opensAt text offset char = true) :
    offset < text.length :=
  (List.getElem?_eq_some_iff.1 (beq_iff_eq.1 opens)).1

/-- A block scalar is searched for from its mark. -/
theorem hasSeat_of_headed {s : Scalar} {indicator : Char} {mark : Nat}
    (style : s.style.indicator? = some indicator)
    (raw : s.raw = String.ofList (Span.slice ⟨blockStart text mark,
      Extent.blockEnd text (blockStart text mark)
        (Composer.nextOffset text (more.map (place (Yaml.lineStarts text) text.length)))⟩ text))
    (headed : Yaml.Headed text indicator (∀ next ∈ more.head?, mark < next.mark.offsetIn text) mark)
    (ordered : ∀ next ∈ more.head?, mark ≤ next.mark.offsetIn text) : s.HasSeat text := by
  obtain ⟨header, opens, heads | ⟨rfl, ⟨stop, bare⟩, alone⟩⟩ := headed
  · have next := lt_nextOffset (lt_length_of_opensAt opens) fun other member =>
      Nat.lt_of_lt_of_le heads.lt_mark (ordered other member)
    rw [heads.blockStart_eq] at raw
    refine Scalar.hasSeat_block style opens heads raw fun same => ?_
    rw [same]
    exact Scalar.lt_blockEnd next
  · have next := lt_nextOffset (lt_length_of_opensAt opens) alone
    exact Scalar.hasSeat_bare style opens bare raw
      (Scalar.lt_blockEnd (Nat.lt_of_le_of_lt (Extent.blockStart_le text mark) next))

/-- A plain scalar that is not empty takes a character at least. -/
theorem lt_plainEnd {value : List Char} {mark : Nat} (next : Nat) (some_value : value ≠ [])
    (inside : mark < text.length) : mark < Extent.plainEnd text value mark next := by
  have long := List.length_pos_iff.2 some_value
  unfold Extent.plainEnd
  split
  · omega
  · simp only
    omega

theorem hasSeat_of_scalar {s : Scalar} {style : Yaml.Style} {value : List Char}
    (written : ¬(style = .plain ∧ value = [])) (same : s.style = style)
    (read : s.value = String.ofList value)
    (raw : s.raw = String.ofList ((Composer.scalarSpan text value style (event.mark.offsetIn text)
      (Composer.nextOffset text (more.map (place (Yaml.lineStarts text) text.length)))).slice text))
    (shown : Shown text event more (.scalar style value)) : s.HasSeat text := by
  obtain ⟨seated, ordered⟩ := shown
  cases style with
  | plain =>
      exact Scalar.hasSeat_plain same read raw
        (fun inside => lt_plainEnd _ (fun empty => written ⟨rfl, empty⟩) inside) seated
  | singleQuoted =>
      have inside : event.mark.offsetIn text < text.length := lt_length_of_opensAt seated
      refine Scalar.hasSeat_quoted (.inl same) (.inl (Scalar.head?_of_raw raw ?_ seated))
      simp only [Extent.singleQuotedEnd]
      omega
  | doubleQuoted =>
      have inside : event.mark.offsetIn text < text.length := lt_length_of_opensAt seated
      refine Scalar.hasSeat_quoted (.inr same) (.inr (Scalar.head?_of_raw raw ?_ seated))
      simp only [Extent.doubleQuotedEnd]
      omega
  | literal => exact hasSeat_of_headed (by rw [same]; rfl) raw seated ordered
  | folded => exact hasSeat_of_headed (by rw [same]; rfl) raw seated ordered

/-- A scalar that has the text and the style of one that is made of an event. -/
theorem hasSeat_of_madeOf {s t : Scalar} (read : Yaml.events text = .ok events)
    (made : Composer.MadeOf text (events.map (place (Yaml.lineStarts text) text.length)) t)
    (raw : s.raw = t.raw) (style : s.style = t.style) (value : s.value = t.value) :
    s.HasSeat text := by
  cases made with
  | missing => exact Scalar.hasSeat_missing style raw
  | reference part =>
      obtain ⟨event, more, inner, rfl, kind, -⟩ := exists_event_of_placed part
      obtain ⟨token, shown, ⟨_, name, rfl⟩ | ⟨_, _, other, _⟩⟩ :=
        exists_shown read inner (by rw [kind]; rfl)
      · exact Scalar.hasSeat_reference style
          (Scalar.head?_of_raw raw (Extent.lt_aliasEnd _ _) shown.seated)
      · rw [kind] at other
        cases other
  | @written mark kind content rest emptyAt part =>
      by_cases empty : kind = .plain ∧ content = []
      · simp only [Composer.scalar, empty, and_self, if_true] at raw style
        exact Scalar.hasSeat_missing style raw
      · simp only [Composer.scalar, empty, if_false] at raw style value
        obtain ⟨event, more, inner, rfl, same, rfl⟩ := exists_event_of_placed part
        have shows : event.event.isWritten = true := by
          rw [same, Yaml.Event.isWritten]
          simpa [imp_iff_not_or] using empty
        obtain ⟨token, shown, ⟨other, _⟩ | ⟨_, _, other, rfl⟩⟩ := exists_shown read inner shows
        · rw [same] at other
          cases other
        · rw [same] at other
          cases other
          exact hasSeat_of_scalar empty style value raw shown

/-- Whether the text of a scalar begins with the indicator of its style, and with that of literal
ones only if it is literal, depends on what can be mistaken for it where it is read. -/
theorem indicated_iff_clear {root : Node} (read : tree text = .ok root) :
    root.EachScalar fun s => ∃ seat : s.Seat text, (s.Indicated ↔ seat.Clear) := by
  obtain ⟨events, found, rfl⟩ := exists_events_of_tree read
  intro element held s member
  obtain ⟨span, made⟩ := Composer.madeOf_root text _ element held s member
  exact hasSeat_of_madeOf found made rfl rfl rfl

/-- A folded scalar whose content looks like the header of a literal one. -/
def mistaken : List Char :=
  "a: >\n  |\n  foo\n".toList

theorem indicated_iff_clear_mistaken :
    ∃ root, tree mistaken = .ok root ∧ ∃ element, (Element.node root).Holds element ∧
      ∃ s ∈ element.value.scalar?, ¬ s.Indicated ∧ ∃ seat : s.Seat mistaken, ¬ seat.Clear := by
  have checked : (tree mistaken).toOption.any (fun root =>
      (Element.node root :: root.elements).any fun element =>
        element.value.scalar?.any fun s => decide (¬ s.Indicated)) = true := by
    decide +kernel
  cases read : tree mistaken with
  | error fault =>
      rw [read] at checked
      cases checked
  | ok root =>
      rw [read] at checked
      obtain ⟨element, member, failing⟩ := List.any_eq_true.1 checked
      have held := root.holds_iff_mem.2 member
      cases found : element.value.scalar? with
      | none =>
          rw [found] at failing
          cases failing
      | some s =>
          rw [found] at failing
          have failing : ¬ s.Indicated := of_decide_eq_true failing
          obtain ⟨seat, clear⟩ := indicated_iff_clear read element held s found
          exact ⟨root, rfl, element, held, s, found, failing, seat, fun c => failing (clear.2 c)⟩

end Snapshot

end WorkflowScope
