import Mathlib.Order.Bounds.Defs
import WorkflowScope.Proofs.Text.Positions

/-!
# The offset of a position as a floor

Positions are ordered as the offsets that they name. Not every position is the position of an offset:
a column may fall inside of a wide character, behind the content of its line or inside of the line
end. The offset of a position is the last offset with content whose own position is no later, so that
going from an offset to its position and back loses no more than a carriage return at a line end.
-/

namespace WorkflowScope

namespace Position

/-- The strict order of places in a text: by line, then by column. -/
def Before (a b : Position) : Prop :=
  a.line < b.line ∨ (a.line = b.line ∧ a.character < b.character)

theorem le_refl (a : Position) : a.le a = true :=
  le_iff.2 (.inr ⟨rfl, Nat.le_refl _⟩)

theorem before_iff {a b : Position} : a.Before b ↔ b.le a = false := by
  rw [Bool.eq_false_iff, Ne, le_iff, Before]
  omega

theorem Before.le {a b : Position} (before : a.Before b) : a.le b = true := by
  rw [le_iff]
  rcases before with earlier | ⟨same, narrower⟩
  · exact .inl earlier
  · exact .inr ⟨same, Nat.le_of_lt narrower⟩

end Position

namespace Text

/-- Behind a carriage return inside of a line end there is nothing to keep, before it there is. -/
theorem isContent_pred {text : List Char} {offset : Nat} (inEnd : ¬IsContent text offset) :
    0 < offset ∧ IsContent text (offset - 1) := by
  obtain ⟨after, returned, -⟩ := Decidable.not_not.1 inEnd
  refine ⟨after, ?_⟩
  rintro ⟨-, -, nothing | feed⟩
  · rw [returned] at nothing
    cases nothing
  · rw [returned] at feed
    cases feed

end Text

namespace LineIndex

open Text

variable {text : List Char}

/-! ## The order of positions -/

/-- A later offset has a later position. -/
theorem positionAt_before (small : text.length < 0x80000000) {first second : Nat}
    (ordered : first < second) (bound : second ≤ text.length) :
    ((ofText text).positionAt first).Before ((ofText text).positionAt second) :=
  Position.before_iff.2 (positionAt_lt small ordered bound)

theorem le_of_positionAt_le (small : text.length < 0x80000000) {first second : Nat}
    (bound : first ≤ text.length)
    (ordered : ((ofText text).positionAt first).le ((ofText text).positionAt second) = true) :
    first ≤ second := by
  apply Nat.not_lt.1
  intro later
  rw [positionAt_lt small later bound] at ordered
  cases ordered

theorem positionAt_beyond {offset : Nat} (beyond : text.length ≤ offset) :
    (ofText text).positionAt offset = (ofText text).positionAt text.length := by
  have ends : min offset (ofText text).length = min text.length (ofText text).length := by
    rw [show (ofText text).length = text.length from rfl, Nat.min_eq_right beyond, Nat.min_self]
  simp only [positionAt, ends]

theorem positionAt_line_lt (small : text.length < 0x80000000) {offset : Nat}
    (bound : offset ≤ text.length) :
    ((ofText text).positionAt offset).line < (ofText text).lineCount := by
  rw [positionAt_eq small bound]
  exact lineOf_lt_lineCount offset

/-! ## Offsets with content -/

theorem exists_lineStart {start : Nat} (member : start ∈ lineStarts text) :
    ∃ line, line < (ofText text).lineCount ∧ (ofText text).lineStart line = start := by
  obtain ⟨line, there, found⟩ := List.getElem_of_mem member
  refine ⟨line, there, ?_⟩
  have same := getElem?_lineStarts there
  rw [List.getElem?_eq_getElem there, found] at same
  exact (Option.some.inj same).symm

theorem isContent_lineStart {line : Nat} (there : line < (ofText text).lineCount) :
    IsContent text ((ofText text).lineStart line) := by
  rintro ⟨positive, returned, -⟩
  obtain start | ⟨feed, here, same⟩ := mem_lineStarts.1 (lineStart_mem there)
  · exact Nat.lt_irrefl 0 (start ▸ positive)
  · rw [same, Nat.add_sub_cancel, here] at returned
    cases returned

/-- Up to the end of a line no line feed is read. -/
theorem getElem?_ne_feed {line offset : Nat} (there : line < (ofText text).lineCount)
    (after : (ofText text).lineStart line ≤ offset) (before : offset < (ofText text).lineStop line) :
    text[offset]? ≠ some '\n' := by
  intro feed
  obtain ⟨other, otherThere, starts⟩ :=
    exists_lineStart (mem_lineStarts.2 (.inr ⟨offset, feed, rfl⟩))
  -- A line that starts behind the feed is a later one, so the line stops at the feed.
  have later : line + 1 ≤ other := by
    apply Nat.not_lt.1
    intro earlier
    rcases Nat.lt_or_eq_of_le (Nat.le_of_lt_succ earlier) with below | rfl
    · have ordered := lineStart_lt_lineStart below there
      omega
    · omega
  have next : line + 1 < (ofText text).lineCount := Nat.lt_of_le_of_lt later otherThere
  have ordered : (ofText text).lineStart (line + 1) ≤ (ofText text).lineStart other := by
    rcases Nat.lt_or_eq_of_le later with below | same
    · exact Nat.le_of_lt (lineStart_lt_lineStart below otherThere)
    · exact Nat.le_of_eq (congrArg _ same)
  rw [lineStop_of_next next] at before
  omega

theorem isContent_lineContentEnd {line : Nat} (there : line < (ofText text).lineCount) :
    IsContent text ((ofText text).lineContentEnd line) := by
  rw [lineContentEnd_eq]
  split
  · next returned =>
      rintro ⟨-, -, ends⟩
      rw [returned.2] at ends
      simp at ends
  · next kept =>
      rcases Nat.lt_or_eq_of_le (lineStop_spec there).1 with before | empty
      · rintro ⟨-, returned, -⟩
        exact kept ⟨before, returned⟩
      · rw [← empty]
        exact isContent_lineStart there

/-- Every offset from the start of a line to the end of its content has content. -/
theorem isContent_of_le {line offset : Nat} (there : line < (ofText text).lineCount)
    (after : (ofText text).lineStart line ≤ offset)
    (before : offset ≤ (ofText text).lineContentEnd line) : IsContent text offset := by
  rcases Nat.lt_or_eq_of_le before with inside | rfl
  · have stop := Nat.lt_of_lt_of_le inside (lineContentEnd_le_lineStop line)
    have bound := Nat.lt_of_lt_of_le stop (lineStop_spec there).2.1
    rintro ⟨-, -, nothing | feed⟩
    · exact Nat.not_le.2 bound (List.getElem?_eq_none_iff.1 nothing)
    · exact getElem?_ne_feed there after stop feed
  · exact isContent_lineContentEnd there

theorem isContent_offsetAt {position : Position} (there : position.line < (ofText text).lineCount) :
    IsContent text ((ofText text).offsetAt position) := by
  apply isContent_of_le there
  · rw [offsetAt_eq there]
    exact Nat.le_add_right _ _
  · exact offsetAt_le_lineContentEnd there

/-! ## The floor -/

theorem offsetAt_of_le {position : Position} (past : (ofText text).lineCount ≤ position.line) :
    (ofText text).offsetAt position = text.length := by
  simp only [offsetAt, if_pos past]
  rfl

theorem offsetAt_le_length (position : Position) :
    (ofText text).offsetAt position ≤ text.length := by
  by_cases there : position.line < (ofText text).lineCount
  · exact Nat.le_trans (offsetAt_le_lineContentEnd there)
      (Nat.le_trans (lineContentEnd_le_lineStop _) (lineStop_spec there).2.1)
  · exact Nat.le_of_eq (offsetAt_of_le (Nat.not_lt.1 there))

theorem positionAt_offsetAt_le (small : text.length < 0x80000000) {position : Position}
    (there : position.line < (ofText text).lineCount) :
    ((ofText text).positionAt ((ofText text).offsetAt position)).le position = true :=
  (le_offsetAt_iff small (offsetAt_le_length position) (isContent_offsetAt there) there).1
    (Nat.le_refl _)

/-- The offset of a position on a line of the text is the last one with content whose position is no
later. -/
theorem isGreatest_offsetAt (small : text.length < 0x80000000) {position : Position}
    (there : position.line < (ofText text).lineCount) :
    IsGreatest {offset | offset ≤ text.length ∧ IsContent text offset ∧
        ((ofText text).positionAt offset).le position = true}
      ((ofText text).offsetAt position) := by
  constructor
  · exact ⟨offsetAt_le_length position, isContent_offsetAt there,
      positionAt_offsetAt_le small there⟩
  · rintro offset ⟨bound, content, before⟩
    exact (le_offsetAt_iff small bound content there).2 before

theorem offsetAt_mono (small : text.length < 0x80000000) {first second : Position}
    (ordered : first.le second = true) :
    (ofText text).offsetAt first ≤ (ofText text).offsetAt second := by
  by_cases there : second.line < (ofText text).lineCount
  · have earlier : first.line < (ofText text).lineCount := by
      have lines := Position.le_iff.1 ordered
      omega
    apply (isGreatest_offsetAt small there).2
    exact ⟨offsetAt_le_length first, isContent_offsetAt earlier,
      Position.le_trans (positionAt_offsetAt_le small earlier) ordered⟩
  · rw [offsetAt_of_le (Nat.not_lt.1 there)]
    exact offsetAt_le_length first

theorem offsetAt_positionAt_le (small : text.length < 0x80000000) {offset : Nat}
    (bound : offset ≤ text.length) :
    (ofText text).offsetAt ((ofText text).positionAt offset) ≤ offset :=
  le_of_positionAt_le small (offsetAt_le_length _)
    (positionAt_offsetAt_le small (positionAt_line_lt small bound))

theorem offsetAt_positionAt (small : text.length < 0x80000000) {offset : Nat}
    (bound : offset ≤ text.length) (content : IsContent text offset) :
    (ofText text).offsetAt ((ofText text).positionAt offset) = offset := by
  apply Nat.le_antisymm (offsetAt_positionAt_le small bound)
  exact (le_offsetAt_iff small bound content (positionAt_line_lt small bound)).2
    (Position.le_refl _)

theorem offsetAt_positionAt_inEnd (small : text.length < 0x80000000) {offset : Nat}
    (bound : offset ≤ text.length) (inEnd : ¬IsContent text offset) :
    (ofText text).offsetAt ((ofText text).positionAt offset) = offset - 1 := by
  obtain ⟨positive, content⟩ := isContent_pred inEnd
  have there := positionAt_line_lt small bound
  have atMost := offsetAt_positionAt_le small bound
  have notHere : (ofText text).offsetAt ((ofText text).positionAt offset) ≠ offset := by
    intro here
    exact inEnd (here ▸ isContent_offsetAt there)
  have before := positionAt_before small (Nat.sub_lt positive Nat.one_pos) bound
  have atLeast := (le_offsetAt_iff small (Nat.le_trans (Nat.sub_le _ _) bound) content there).2
    before.le
  omega

/-- The two conversions of a text whose counts do not wrap around. Positions are ordered as their
offsets up to the end of the text and stay the same behind it. The offset of a position is the floor
of the position among the offsets with content, the end of the text for a line that is not there.
So it grows with the position and stays in the text, and an offset is found again from its position,
or the one before it if a line end is in between. -/
theorem offsetAt_floors_positionAt (small : text.length < 0x80000000) :
    (∀ first second, first < second → second ≤ text.length →
      ((ofText text).positionAt first).Before ((ofText text).positionAt second)) ∧
    (∀ offset, text.length ≤ offset →
      (ofText text).positionAt offset = (ofText text).positionAt text.length) ∧
    (∀ position : Position, position.line < (ofText text).lineCount →
      IsGreatest {offset | offset ≤ text.length ∧ IsContent text offset ∧
        ((ofText text).positionAt offset).le position = true}
        ((ofText text).offsetAt position)) ∧
    (∀ position : Position, (ofText text).lineCount ≤ position.line →
      (ofText text).offsetAt position = text.length) ∧
    (∀ first second : Position, first.le second = true →
      (ofText text).offsetAt first ≤ (ofText text).offsetAt second) ∧
    (∀ position, (ofText text).offsetAt position ≤ text.length) ∧
    (∀ offset, offset ≤ text.length →
      (IsContent text offset →
        (ofText text).offsetAt ((ofText text).positionAt offset) = offset) ∧
      (¬IsContent text offset →
        (ofText text).offsetAt ((ofText text).positionAt offset) = offset - 1)) := by
  refine ⟨?_, ?_, ?_, ?_, ?_, ?_, ?_⟩
  · intro first second ordered bound
    exact positionAt_before small ordered bound
  · intro offset beyond
    exact positionAt_beyond beyond
  · intro position there
    exact isGreatest_offsetAt small there
  · intro position past
    exact offsetAt_of_le past
  · intro first second ordered
    exact offsetAt_mono small ordered
  · intro position
    exact offsetAt_le_length position
  · intro offset bound
    exact ⟨offsetAt_positionAt small bound, offsetAt_positionAt_inEnd small bound⟩

/-- A carriage return before a line feed, a character of two units and a carriage return at the end:
offset 3 falls back before the line feed, and a column inside of the wide character before it. -/
theorem offsetAt_floors_positionAt_wide :
    (ofText "ab\r\n😀c\r".toList).offsetAt ((ofText "ab\r\n😀c\r".toList).positionAt 3) = 2 ∧
      IsGreatest {offset | offset ≤ "ab\r\n😀c\r".toList.length ∧
          IsContent "ab\r\n😀c\r".toList offset ∧
          ((ofText "ab\r\n😀c\r".toList).positionAt offset).le ⟨1, 1⟩ = true} 4 := by
  have small : "ab\r\n😀c\r".toList.length < 0x80000000 := by decide
  obtain ⟨-, -, greatest, -, -, -, back⟩ := offsetAt_floors_positionAt small
  have inEnd : ¬IsContent "ab\r\n😀c\r".toList 3 := by simp [IsContent]
  constructor
  · exact (back 3 (by decide)).2 inEnd
  · exact greatest ⟨1, 1⟩ (by decide)

end LineIndex

end WorkflowScope
