import WorkflowScope.Proofs.Text.Lines
import WorkflowScope.Proofs.Tree.Inferred

/-!
# Bounds of scalars

No scalar ends before it starts or behind the end of the text, and the header of a block scalar is
found at its mark or above it. A scalar whose end is not inferred ends where the characters at its
mark show it to.
-/

namespace WorkflowScope

namespace Extent

theorem le_singleQuotedEnd {text : List Char} {mark : Nat} (inside : mark ≤ text.length) :
    mark ≤ singleQuotedEnd text mark := by
  unfold singleQuotedEnd
  omega

theorem le_doubleQuotedEnd {text : List Char} {mark : Nat} (inside : mark ≤ text.length) :
    mark ≤ doubleQuotedEnd text mark := by
  unfold doubleQuotedEnd
  omega

theorem lt_aliasEnd (text : List Char) (mark : Nat) : mark < aliasEnd text mark := by
  unfold aliasEnd
  omega

theorem le_plainEnd {text : List Char} {mark : Nat} (value : List Char) (next : Nat)
    (inside : mark ≤ text.length) : mark ≤ plainEnd text value mark next := by
  unfold plainEnd
  split
  · omega
  · simp only
    omega

theorem le_lastBlockLineEnd (lines : List (List Char)) {offset found least : Nat}
    (floor : Option Nat) (start : least ≤ offset) (before : least ≤ found) :
    least ≤ lastBlockLineEnd offset found floor lines := by
  induction lines generalizing offset found floor with
  | nil => exact before
  | cons line rest ih =>
      simp only [lastBlockLineEnd]
      split
      · exact ih _ (by omega) before
      · refine ih _ (by omega) ?_
        split
        · exact before
        · split <;> omega

theorem le_blockEnd (text : List Char) (start next : Nat) : start ≤ blockEnd text start next := by
  simp only [blockEnd]
  split
  · omega
  · exact le_lastBlockLineEnd _ _ (by omega) (by omega)

/-! ## The characters between quotes -/

theorem singleQuotedLength_char {c : Char} (plain : c ≠ '\'') (rest : List Char) :
    singleQuotedLength (c :: rest) = singleQuotedLength rest + 1 := by
  rw [singleQuotedLength.eq_3 _ _ fun _ same => absurd same plain, if_neg plain]

theorem singleQuotedLength_close {rest : List Char} (single : rest.head? ≠ some '\'') :
    singleQuotedLength ('\'' :: rest) = 1 := by
  rw [singleQuotedLength.eq_3, if_pos rfl]
  rintro more - rfl
  exact single rfl

theorem doubleQuotedLength_char {c : Char} (unescaped : c ≠ '\\') (plain : c ≠ '"')
    (rest : List Char) : doubleQuotedLength (c :: rest) = doubleQuotedLength rest + 1 := by
  rw [doubleQuotedLength.eq_3 _ _ fun _ _ same => absurd same unescaped, if_neg plain]

theorem doubleQuotedLength_close (rest : List Char) : doubleQuotedLength ('"' :: rest) = 1 := by
  rw [doubleQuotedLength.eq_3 _ _ fun _ _ same => absurd same (by decide), if_pos rfl]

/-- A backslash at the end of the text takes nothing along. -/
theorem doubleQuotedLength_backslash : doubleQuotedLength ['\\'] = 1 := rfl

/-! ## Ends in the text -/

section

variable {text : List Char} {mark next : Nat}

theorem singleQuotedEnd_le (text : List Char) (mark : Nat) :
    singleQuotedEnd text mark ≤ text.length :=
  Nat.min_le_right _ _

theorem doubleQuotedEnd_le (text : List Char) (mark : Nat) :
    doubleQuotedEnd text mark ≤ text.length :=
  Nat.min_le_right _ _

theorem aliasEnd_le (inside : mark < text.length) : aliasEnd text mark ≤ text.length := by
  have begins := List.takeWhile_prefix (!endsAlias ·) (l := text.drop (mark + 1))
  have short := begins.length_le
  rw [List.length_drop] at short
  unfold aliasEnd
  omega

theorem plainEnd_le (value : List Char) (next : Nat) (inside : mark ≤ text.length) :
    plainEnd text value mark next ≤ text.length := by
  unfold plainEnd
  split
  · next verbatim =>
      simp only [standsVerbatim, Bool.and_eq_true, beq_iff_eq] at verbatim
      have long := congrArg List.length verbatim.2
      rw [List.length_take, List.length_drop] at long
      omega
  · exact Nat.min_le_right _ _

theorem lastBlockLineEnd_le (lines : List (List Char)) {offset found most : Nat}
    (floor : Option Nat) (upTo : offset + (Text.joinLines lines).length ≤ most)
    (before : found ≤ most) : lastBlockLineEnd offset found floor lines ≤ most := by
  induction lines generalizing offset found floor with
  | nil => exact before
  | cons line rest ih =>
      cases rest with
      | nil =>
          simp only [Text.joinLines] at upTo
          simp only [lastBlockLineEnd, List.isEmpty_nil, if_true]
          split
          · exact before
          · split <;> assumption
      | cons second more =>
          simp only [Text.joinLines, List.length_append, List.length_cons] at upTo
          have later :
              offset + line.length + 1 + (Text.joinLines (second :: more)).length ≤ most := by
            omega
          rw [lastBlockLineEnd]
          simp only [List.isEmpty_cons, Bool.false_eq_true, if_false]
          split
          · exact ih _ later before
          · refine ih _ later ?_
            split
            · exact before
            · omega

theorem blockEnd_le (inside : mark ≤ text.length) (nextIn : next ≤ text.length) :
    blockEnd text mark next ≤ text.length := by
  have most := Span.length_slice_le ⟨mark, max next mark⟩ text
  simp only [blockEnd]
  split
  · omega
  · refine lastBlockLineEnd_le _ none ?_ ?_
    · rw [Text.joinLines_splitLines, List.length_drop]
      simp only [Span.length] at most
      omega
    · simp only [Span.length] at most
      omega

theorem afterColon_le (inside : mark ≤ text.length) : afterColon text mark ≤ text.length := by
  simp only [afterColon]
  split
  · next colon =>
      have there := (List.getElem?_eq_some_iff.1 (beq_iff_eq.1 colon)).1
      rw [List.length_drop] at there
      omega
  · exact inside

end

theorem opensAt_of_isHeaderAt {text : List Char} {offset : Nat}
    (header : isHeaderAt text offset = true) :
    (Composer.opensAt text offset '|' || Composer.opensAt text offset '>') = true := by
  unfold isHeaderAt at header
  cases rest : text.drop offset with
  | nil => simp [rest] at header
  | cons c after =>
      have here : text[offset]? = some c := by
        have head := List.head?_drop (l := text) (i := offset)
        rw [rest] at head
        simpa using head.symm
      simp only [rest, Bool.and_eq_true, Bool.or_eq_true] at header
      simpa [Composer.opensAt, here] using header.1.1

theorem lineStartBefore_le (text : List Char) (offset : Nat) :
    lineStartBefore text offset ≤ offset := by
  simp only [lineStartBefore]
  omega

theorem headerBetween?_spec {text : List Char} {start stop found : Nat}
    (between : headerBetween? text start stop = some found) :
    found < stop ∧ isHeaderAt text found = true := by
  have member := List.mem_of_find?_eq_some between
  have header := List.find?_some between
  rw [List.mem_range'_1] at member
  exact ⟨by omega, header⟩

theorem headerAbove?_spec {text : List Char} {fuel stop found : Nat}
    (above : headerAbove? text fuel stop = some found) :
    found < stop ∧ isHeaderAt text found = true := by
  induction fuel generalizing stop with
  | zero => simp [headerAbove?] at above
  | succ fuel ih =>
      simp only [headerAbove?] at above
      split at above
      · rename_i here
        cases above
        exact headerBetween?_spec here
      · split at above
        · cases above
        · obtain ⟨before, header⟩ := ih above
          refine ⟨?_, header⟩
          have line := lineStartBefore_le text stop
          have last : lineAboveEnd text (lineStartBefore text stop) ≤ stop := by
            simp only [lineAboveEnd]
            split <;> omega
          omega

theorem blockStart_le (text : List Char) (mark : Nat) : blockStart text mark ≤ mark := by
  unfold blockStart
  split
  · exact Nat.le_refl _
  · cases above : headerAbove? text (mark + 1) mark with
    | none => simp
    | some found => exact Nat.le_of_lt (headerAbove?_spec above).1

/-- A block scalar starts at its mark, unless it starts at a header. -/
theorem blockStart_eq_or (text : List Char) (mark : Nat) :
    blockStart text mark = mark ∨
      (Composer.opensAt text (blockStart text mark) '|' ||
        Composer.opensAt text (blockStart text mark) '>') = true := by
  unfold blockStart
  split
  · exact .inl rfl
  · cases above : headerAbove? text (mark + 1) mark with
    | none => exact .inl rfl
    | some found => exact .inr (opensAt_of_isHeaderAt (headerAbove?_spec above).2)

/-- How far the characters at a mark show a scalar to reach. -/
def shownEnd (text value : List Char) (style : Yaml.Style) (mark : Nat) : Nat :=
  match style with
  | .singleQuoted => singleQuotedEnd text mark
  | .doubleQuoted => doubleQuotedEnd text mark
  | .plain => if standsVerbatim text value mark then mark + value.length else mark
  | .literal | .folded => mark

/-- How far the characters at a mark show an alias to reach. -/
def shownAliasEnd (text : List Char) (mark : Nat) : Nat :=
  if Scalar.overrunsName (Span.slice ⟨mark, aliasEnd text mark⟩ text) then mark
  else aliasEnd text mark

end Extent

namespace Composer

open Extent

/-- A plain text that is its own value stands verbatim. -/
theorem standsVerbatim_of_slice {text value : List Char} {mark stop : Nat}
    (same : Span.slice ⟨mark, stop⟩ text = value) (unbroken : value.contains '\n' = false) :
    standsVerbatim text value mark = true := by
  subst same
  simp only [standsVerbatim, unbroken, Bool.not_false, Bool.true_and, beq_iff_eq]
  simp [Span.slice]

theorem scalarSpan_start_le (text value : List Char) (style : Yaml.Style) (mark next : Nat) :
    (scalarSpan text value style mark next).start ≤ mark := by
  cases style <;> simp [scalarSpan, blockStart_le]

theorem scalarSpan_forward {text : List Char} {mark : Nat} (value : List Char)
    (style : Yaml.Style) (next : Nat) (inside : mark ≤ text.length) :
    (scalarSpan text value style mark next).start ≤
      (scalarSpan text value style mark next).stop := by
  cases style with
  | plain => exact le_plainEnd value next inside
  | singleQuoted => exact le_singleQuotedEnd inside
  | doubleQuoted => exact le_doubleQuotedEnd inside
  | literal => exact le_blockEnd _ _ _
  | folded => exact le_blockEnd _ _ _

theorem scalarSpan_stop_le {text : List Char} {mark next : Nat} (value : List Char)
    (style : Yaml.Style) (inside : mark ≤ text.length) (nextIn : next ≤ text.length) :
    (scalarSpan text value style mark next).stop ≤ text.length := by
  have start := Nat.le_trans (blockStart_le text mark) inside
  cases style with
  | plain => exact plainEnd_le value next inside
  | singleQuoted => exact singleQuotedEnd_le text mark
  | doubleQuoted => exact doubleQuotedEnd_le text mark
  | literal => exact blockEnd_le start nextIn
  | folded => exact blockEnd_le start nextIn

theorem scalarSpan_start_eq_or (text value : List Char) (style : Yaml.Style) (mark next : Nat) :
    (scalarSpan text value style mark next).start = mark ∨
      (opensAt text (scalarSpan text value style mark next).start '|' ||
        opensAt text (scalarSpan text value style mark next).start '>') = true := by
  cases style with
  | plain => exact .inl rfl
  | singleQuoted => exact .inl rfl
  | doubleQuoted => exact .inl rfl
  | literal => exact blockStart_eq_or text mark
  | folded => exact blockStart_eq_or text mark

theorem endInferred_scalarOver (text value : List Char) (style : Yaml.Style) (mark next : Nat) :
    (scalarOver text (scalarSpan text value style mark next) value style).endInferred = true ∨
      (scalarSpan text value style mark next).stop ≤ shownEnd text value style mark := by
  cases style with
  | singleQuoted => exact .inr (Nat.le_refl _)
  | doubleQuoted => exact .inr (Nat.le_refl _)
  | literal => exact .inl rfl
  | folded => exact .inl rfl
  | plain =>
      by_cases verbatim : standsVerbatim text value mark = true
      · exact .inr (by simp [scalarSpan, shownEnd, plainEnd, verbatim])
      · refine .inl ?_
        simp only [Scalar.endInferred, scalarOver, scalarSpan, Bool.or_eq_true, bne_iff_ne,
          String.toList_ofList]
        by_contra settled
        simp only [not_or, not_not, Bool.not_eq_true] at settled
        have same := congrArg String.toList settled.1.1
        simp only [String.toList_ofList] at same
        exact verbatim (standsVerbatim_of_slice same settled.1.2)

theorem endInferred_reference (text : List Char) (mark : Nat) :
    (reference text mark).endInferred = true ∨
      (reference text mark).span.stop ≤ shownAliasEnd text mark := by
  by_cases overruns : Scalar.overrunsName (Span.slice ⟨mark, aliasEnd text mark⟩ text) = true
  · exact .inl (by simp [Scalar.endInferred, reference, scalarOver, overruns])
  · exact .inr (by simp [shownAliasEnd, overruns, reference, scalarOver])

end Composer

end WorkflowScope
