import WorkflowScope.Proofs.Lint.Duplicates
import WorkflowScope.Proofs.Yaml.EventFaults

/-!
# The lines of errors

A text that is no document is reported twice: by a line and a column, which are counted from one,
and by a diagnostic, whose place an editor counts from zero. Both come from one mark, and they agree
on the line wherever the mark was reached in the text.
-/

namespace WorkflowScope

open Yaml (Mark Told)

/-- An error tells the mark at which the text was refused. -/
theorem Snapshot.refusal_mark {text : String} {error : DocumentError}
    (refusal : Snapshot.ofText text = .error error) :
    ∃ mark, Told text.toList mark ∧ error.line = mark.line ∧ error.column = mark.column + 1 ∧
      error.offset = mark.offsetIn text.toList := by
  rcases bind_eq_error.1 refusal with failed | ⟨root, _, failed⟩
  · rcases bind_eq_error.1 failed with failed | ⟨events, _, failed⟩
    · unfold placedEvents at failed
      split at failed
      · cases failed
      · rename_i fault mark refused
        cases failed
        exact ⟨mark, Yaml.Grammar.failsAt_events text.toList _ refused, rfl, rfl, rfl⟩
    · cases failed
  · cases failed

namespace Lint

variable {text : List Char}

/-- A mark that was reached is on the line of its offset; or on the line that is put behind the last
one, if that has begun; or on the line of a NUL behind which it tells an offset on a later line. -/
theorem line_of_told (paired : Mark.Paired text) {mark : Mark} (told : Told text mark) :
    mark.line = (Mark.behind text (mark.offsetIn text)).line ∨
      (mark.line = (Mark.behind text text.length).line + 1 ∧ mark.column = 0 ∧
        mark.offsetIn text = text.length ∧ (Mark.behind text text.length).column ≠ 0) ∨
      (mark.line < (Mark.behind text (mark.offsetIn text)).line ∧
        ∃ k < mark.offsetIn text, text[k]? = some '\x00' ∧
          mark.line = (Mark.behind text k).line) := by
  cases told with
  | reached inside line offset => exact .inl (offset ▸ line)
  | @stopped n stops line past =>
      have later := Mark.line_behind_le paired past
      rcases Nat.eq_or_lt_of_le (line ▸ later) with same | below
      · exact .inl same
      · refine .inr (.inr ⟨below, n, Nat.lt_of_le_of_ne past ?_, ?_, line⟩)
        · rintro here
          rw [line, ← here] at below
          exact Nat.lt_irrefl _ below
        · rcases stops.nul_or_length with nul | rfl
          · exact nul
          · -- No line is behind the last one.
            have last := Nat.le_antisymm (mark.offsetIn_le text) past
            rw [line, last] at below
            exact absurd below (Nat.lt_irrefl _)
  | beyond stops line column begun =>
      rcases Yaml.offsetIn_of_lineBelow stops.inside line column with same | ⟨offset, last, wider⟩
      · exact .inl same
      · exact .inr (.inl ⟨by rw [line, last], column, offset, by omega⟩)

/-- The one diagnostic of a text that is no document begins at the offset of the error. -/
theorem diagnose_of_refusal {text source : String} {error : DocumentError}
    (refusal : Snapshot.ofText text = .error error) :
    ∃ diagnostic, diagnose (LineIndex.ofText text.toList) source (check text) = [diagnostic] ∧
      diagnostic.range.start = (LineIndex.ofText text.toList).positionAt error.offset := by
  obtain ⟨mark, -, -, -, offset⟩ := Snapshot.refusal_mark refusal
  have inside := mark.offsetIn_le text.toList
  rw [check_of_refusal refusal]
  refine ⟨_, rfl, ?_⟩
  simp only [Finding.diagnose, LineIndex.rangeOf, Finding.span, refused]
  congr 1
  omega

/-- The mark behind every prefix of a text tells the length of the prefix, and no mark tells an
offset behind the text. Where every carriage return stands before a line feed, the editor's line of
an offset is that of the mark; and the line of an error is that of its diagnostic, with two
exceptions. The end of a text is put on a line of its own if the last line has begun, so an error
there is one line below its diagnostic. On the line of a NUL, which is taken for the end, a mark may
tell an offset behind the NUL; where that is on a later line, the diagnostic is below the error. -/
theorem marks_tell_offsets_and_lines (text : String) :
    (∀ k ≤ text.toList.length,
      (Mark.behind text.toList k).offset (Yaml.lineStarts text.toList) text.toList.length = k) ∧
    (∀ mark : Mark,
      mark.offset (Yaml.lineStarts text.toList) text.toList.length ≤ text.toList.length) ∧
    (text.toList.length < 0x80000000 → Mark.Paired text.toList →
      (∀ k ≤ text.toList.length,
        ((LineIndex.ofText text.toList).positionAt k).line =
          (Mark.behind text.toList k).line - 1) ∧
      ∀ error source, Snapshot.ofText text = .error error →
        ∃ diagnostic, diagnose (LineIndex.ofText text.toList) source (check text) = [diagnostic] ∧
          (error.line = diagnostic.range.start.line + 1 ∨
            (error.line = diagnostic.range.start.line + 2 ∧ error.column = 1 ∧
              error.offset = text.toList.length ∧
              (Mark.behind text.toList text.toList.length).column ≠ 0) ∨
            (error.line ≤ diagnostic.range.start.line ∧
              ∃ k < error.offset, text.toList[k]? = some '\x00' ∧
                error.line = (Mark.behind text.toList k).line))) := by
  refine ⟨fun k => Mark.offset_behind, fun mark => mark.offset_le _ _, fun small paired => ⟨?_, ?_⟩⟩
  · intro k inside
    rw [← Mark.line_behind small paired inside, Nat.add_sub_cancel]
  · intro error source refusal
    obtain ⟨mark, told, line, column, offset⟩ := Snapshot.refusal_mark refusal
    obtain ⟨diagnostic, same, start⟩ := diagnose_of_refusal refusal
    have editor := Mark.line_behind small paired (mark.offsetIn_le text.toList)
    refine ⟨diagnostic, same, ?_⟩
    rw [start, line, column, offset]
    rcases line_of_told paired told with agree | ⟨behind, first, last, begun⟩ | ⟨above, nul⟩
    · exact .inl (agree.trans editor.symm)
    · rw [last] at editor ⊢
      exact .inr (.inl ⟨by omega, by rw [first], rfl, begun⟩)
    · exact .inr (.inr ⟨by omega, nul⟩)

/-- A bracket that closes nothing is reported on its own line, behind a carriage return and a line
feed. -/
theorem marks_tell_line_of_bracket :
    "a: 1\r\n]".toList.length < 0x80000000 ∧ Mark.Paired "a: 1\r\n]".toList ∧
      Snapshot.ofText "a: 1\r\n]" = .error ⟨.blockKeyExpected, 2, 1, 6⟩ ∧
      ∃ diagnostic, diagnose (LineIndex.ofText "a: 1\r\n]".toList) "lint" (check "a: 1\r\n]") =
        [diagnostic] ∧ diagnostic.range.start.line = 1 := by
  have small : "a: 1\r\n]".toList.length < 0x80000000 := by decide
  have paired : Mark.Paired "a: 1\r\n]".toList := by decide
  have refusal : Snapshot.ofText "a: 1\r\n]" = .error ⟨.blockKeyExpected, 2, 1, 6⟩ := by rfl
  obtain ⟨diagnostic, same, agree | ⟨-, -, ends, -⟩ | ⟨-, k, -, nul, -⟩⟩ :=
    ((marks_tell_offsets_and_lines "a: 1\r\n]").2.2 small paired).2 _ "lint" refusal
  · exact ⟨small, paired, refusal, diagnostic, same, (Nat.succ.inj agree).symm⟩
  · cases ends
  · exact absurd (List.mem_of_getElem? nul) (by decide)

/-- Two errors that are not on the line of their diagnostic. A sequence that is not closed is refused
at the end of the stream, on a line that the text does not have. A block scalar that may not stand
where it does is refused at the NUL that ends it, in a column that counts the bytes before the NUL,
so that the offset is behind the line. -/
theorem errors_leave_their_lines :
    (¬∀ text : String, text.toList.length < 0x80000000 → Mark.Paired text.toList →
      ∀ error source, Snapshot.ofText text = .error error →
        ∀ diagnostic ∈ diagnose (LineIndex.ofText text.toList) source (check text),
          diagnostic.range.start.line = error.line - 1) ∧
      (Snapshot.ofText "jobs: [unclosed" = .error ⟨.flowSequenceSeparator, 2, 1, 15⟩ ∧
        (diagnose (LineIndex.ofText "jobs: [unclosed".toList) "lint"
          (check "jobs: [unclosed")).map (·.range.start.line) = [0]) ∧
      Snapshot.ofText "a: 1\n|\n ééé\x00\n" = .error ⟨.simpleKeyUnfinished, 3, 7, 13⟩ ∧
      (diagnose (LineIndex.ofText "a: 1\n|\n ééé\x00\n".toList) "lint"
        (check "a: 1\n|\n ééé\x00\n")).map (·.range.start.line) = [3] := by
  have unclosed : Snapshot.ofText "jobs: [unclosed" =
      .error ⟨.flowSequenceSeparator, 2, 1, 15⟩ := by
    rfl
  have above : (diagnose (LineIndex.ofText "jobs: [unclosed".toList) "lint"
      (check "jobs: [unclosed")).map (·.range.start.line) = [0] := by
    decide +kernel
  have stopped : Snapshot.ofText "a: 1\n|\n ééé\x00\n" = .error ⟨.simpleKeyUnfinished, 3, 7, 13⟩ := by
    rfl
  have below : (diagnose (LineIndex.ofText "a: 1\n|\n ééé\x00\n".toList) "lint"
      (check "a: 1\n|\n ééé\x00\n")).map (·.range.start.line) = [3] := by
    decide +kernel
  refine ⟨fun agree => ?_, ⟨unclosed, above⟩, stopped, below⟩
  obtain ⟨diagnostic, same, -⟩ := @diagnose_of_refusal _ "lint" _ unclosed
  have line := agree _ (by decide) (by decide) _ _ unclosed diagnostic
    (same ▸ List.mem_singleton_self _)
  rw [same, List.map_singleton, line] at above
  cases above

end Lint

end WorkflowScope
