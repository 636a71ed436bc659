import WorkflowScope.Command.Range
import WorkflowScope.Proofs.Text.Lines
import WorkflowScope.Proofs.Text.Positions
import WorkflowScope.Proofs.Tree.Nesting

/-!
# Where commands stand

The commands in a value lie in its span, one behind the other, and two of them never touch: there is
a line feed in between. So a position lies on at most one of them.
-/

namespace WorkflowScope.CommandRange

open Text

theorem lineSpan_bounds (offset : Nat) (line : List Char) :
    offset ≤ (lineSpan offset line).start ∧
      (lineSpan offset line).start ≤ (lineSpan offset line).stop ∧
      (lineSpan offset line).stop ≤ offset + line.length := by
  have indented := (List.dropWhile_sublist (l := line) fun c => c == ' ' || c == '\t').length_le
  have trimmed := (List.dropWhile_sublist
    (l := (line.dropWhile fun c => c == ' ' || c == '\t').reverse) (· == '\r')).length_le
  simp only [lineSpan]
  simp only [List.length_reverse] at trimmed
  omega

theorem mem_lineSpans_bounds {offset : Nat} {lines : List (List Char)} {span : Span}
    (member : span ∈ lineSpans offset lines) :
    offset ≤ span.start ∧ span.start ≤ span.stop ∧
      span.stop ≤ offset + (joinLines lines).length := by
  induction lines generalizing offset with
  | nil => simp [lineSpans] at member
  | cons line rest ih =>
      have own := lineSpan_bounds offset line
      cases rest with
      | nil =>
          simp only [lineSpans] at member
          split at member
          · cases member
          · obtain rfl := List.mem_singleton.1 member
            simpa [joinLines] using own
      | cons next rest =>
          simp only [lineSpans, List.mem_cons] at member
          simp only [joinLines, List.length_append, List.length_cons]
          rcases member with rfl | later
          · omega
          · have inner := ih later
            omega

/-- The spans of lines follow each other, with a line feed between each two. -/
theorem lineSpans_apart (offset : Nat) (lines : List (List Char)) :
    (lineSpans offset lines).Pairwise fun first second => first.stop < second.start := by
  induction lines generalizing offset with
  | nil => simp [lineSpans]
  | cons line rest ih =>
      cases rest with
      | nil =>
          simp only [lineSpans]
          split <;> simp
      | cons next rest =>
          simp only [lineSpans]
          refine List.pairwise_cons.2 ⟨fun span member => ?_, ih _⟩
          have own := lineSpan_bounds offset line
          have later := mem_lineSpans_bounds member
          omega

theorem mem_blockSpans_bounds {offset : Nat} {raw : List Char} {span : Span}
    (member : span ∈ blockSpans offset raw) :
    offset ≤ span.start ∧ span.start ≤ span.stop ∧ span.stop ≤ offset + raw.length := by
  simp only [blockSpans] at member
  split at member
  · cases member
  · next header rest lines =>
      have joined := joinLines_splitLines raw
      rw [lines] at joined
      cases rest with
      | nil => simp [lineSpans] at member
      | cons next rest =>
          have inner := mem_lineSpans_bounds member
          rw [← joined]
          simp only [joinLines, List.length_append, List.length_cons]
          omega

theorem blockSpans_apart (offset : Nat) (raw : List Char) :
    (blockSpans offset raw).Pairwise fun first second => first.stop < second.start := by
  unfold blockSpans
  split
  · exact .nil
  · exact lineSpans_apart _ _

/-- The commands of a scalar lie in its span, if that is where its text stands. -/
theorem mem_spansOf_within {text : List Char} {scalar : Scalar} {span : Span}
    (raw : scalar.raw.toList = scalar.span.slice text)
    (forward : scalar.span.start ≤ scalar.span.stop) (member : span ∈ spansOf (.scalar scalar)) :
    span.Within scalar.span ∧ span.start ≤ span.stop := by
  simp only [spansOf] at member
  split at member
  · have inner := mem_blockSpans_bounds member
    have short := scalar.span.length_slice_le text
    simp only [raw, Span.length] at inner short
    exact ⟨⟨inner.1, by omega⟩, inner.2.1⟩
  · obtain rfl := List.mem_singleton.1 member
    exact ⟨.refl _, forward⟩

theorem spansOf_apart (value : Node) :
    (spansOf value).Pairwise fun first second => first.stop < second.start := by
  cases value with
  | mapping span pairs => exact .nil
  | sequence span items => exact .nil
  | scalar s =>
      simp only [spansOf]
      split
      · exact blockSpans_apart _ _
      · exact List.pairwise_singleton _ _

/-- Of spans that do not touch, at most one holds an offset. -/
theorem eq_of_apart {spans : List Span}
    (apart : spans.Pairwise fun first second => first.stop < second.start) {first second : Span}
    (inFirst : first ∈ spans) (inSecond : second ∈ spans) {offset : Nat}
    (onFirst : first.contains offset = true) (onSecond : second.contains offset = true) :
    first = second := by
  rw [Span.contains_eq_true] at onFirst onSecond
  induction apart with
  | nil => cases inFirst
  | @cons span rest before _ ih =>
      rcases List.mem_cons.1 inFirst with rfl | laterFirst <;>
        rcases List.mem_cons.1 inSecond with rfl | laterSecond
      · rfl
      · have gap := before second laterSecond
        omega
      · have gap := before first laterFirst
        omega
      · exact ih laterFirst laterSecond

theorem getElem?_ofValue {snapshot : Snapshot} {value : Node} {k : Nat} {command : CommandRange} :
    (ofValue snapshot value)[k]? = some command ↔
      (spansOf value)[k]? = some command.span ∧ command.range = snapshot.rangeOf command.span := by
  simp only [ofValue, List.getElem?_map, Option.map_eq_some_iff]
  constructor
  · rintro ⟨span, found, rfl⟩
    exact ⟨found, rfl⟩
  · rintro ⟨found, same⟩
    exact ⟨command.span, found, by rw [← same]⟩

theorem mem_ofValue {snapshot : Snapshot} {value : Node} {command : CommandRange} :
    command ∈ ofValue snapshot value ↔
      command.span ∈ spansOf value ∧ command.range = snapshot.rangeOf command.span := by
  simp only [List.mem_iff_getElem?, getElem?_ofValue, exists_and_right]

end WorkflowScope.CommandRange
