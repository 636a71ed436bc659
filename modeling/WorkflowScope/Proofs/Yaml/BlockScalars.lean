import WorkflowScope.Proofs.Yaml.Scalars

/-!
# Block scalars in a text

A block scalar is read line by line. Columns are counted by bytes on a line that is longer than what
was read ahead, so the mark behind its last line may lie too far when no line break follows; it is
exact again behind a line break.
-/

namespace WorkflowScope.Yaml.Block

open Cursor

theorem plain_of_ofChar? {char : Char} {chomp : Chomp} (found : Chomp.ofChar? char = some chomp) :
    isBreakOrEnd char = false :=
  plain_of_class (p := fun char => (Chomp.ofChar? char).isSome) (by decide) (by decide) (by decide)
    (by simp [found])

theorem leads_readIndicator {start : Mark} {c d : Cursor} {indent : Option Nat}
    (read : readIndicator start c = .ok (d, indent)) : Leads c d ∧ ∀ n ∈ indent, 0 < n := by
  rw [readIndicator] at read
  split at read
  · rename_i digit
    obtain ⟨zero, read⟩ := refuse_eq_ok.1 read
    cases read
    have plain := plain_of_class (p := Char.isDigit) (by decide) (by decide) (by decide) digit
    refine ⟨⟨1, reads_skip_one plain⟩, fun n found => ?_⟩
    cases found
    have least : 48 ≤ c.peek.toNat := by
      simp only [Char.isDigit, Bool.and_eq_true, decide_eq_true_eq] at digit
      exact digit.1
    have other : c.peek.toNat ≠ 48 := fun same => zero (beq_iff_eq.2 (Char.toNat_inj.1 same))
    exact Nat.sub_pos_of_lt (Nat.lt_of_le_of_ne least other.symm)
  · cases read
    exact ⟨.refl _, nofun⟩

theorem leads_readHeader {start : Mark} {c d : Cursor} {header : Header}
    (read : readHeader start c = .ok (d, header)) : Leads c d ∧ ∀ n ∈ header.indent, 0 < n := by
  rw [readHeader] at read
  split at read
  · rename_i chomp found
    obtain ⟨⟨next, indent⟩, indicator, last⟩ := bind_eq_ok.1 read
    cases last
    obtain ⟨leads, positive⟩ := leads_readIndicator indicator
    exact ⟨Leads.trans ⟨1, reads_skip_one (plain_of_ofChar? found)⟩ leads, positive⟩
  · obtain ⟨⟨next, indent⟩, indicator, last⟩ := bind_eq_ok.1 read
    obtain ⟨leads, positive⟩ := leads_readIndicator indicator
    simp only at last
    split at last
    · rename_i chomp found
      cases last
      exact ⟨leads.trans ⟨1, reads_skip_one (plain_of_ofChar? found)⟩, positive⟩
    · cases last
      exact ⟨leads, positive⟩

/-- Spaces are read as far as they are wanted. -/
theorem leads_skipSpace {c : Cursor} {count : Nat}
    (few : count ≤ (c.upcoming (· == ' ')).length) : Leads c (c.skipBlank count) := by
  obtain ⟨plain, inside⟩ := upcoming_plain (p := (· == ' '))
    (fun _ => plain_of_class (p := (· == ' ')) (by decide) (by decide) (by decide)) c
  refine ⟨count, reads_skipBlank (fun char member => plain char ?_) (by omega)⟩
  exact List.take_subset_take_left _ few member

theorem leads_skipIndent (indent fuel : Nat) (c : Cursor) : Leads c (skipIndent indent fuel c).1 := by
  induction fuel generalizing c with
  | zero => exact .refl c
  | succ fuel ih =>
      simp only [skipIndent]
      have spaces := leads_skipSpace (c := c)
        (Nat.min_le_left (c.upcoming (· == ' ')).length (indent - c.mark.column))
      split
      · refine Leads.trans (Leads.trans ?_ (reads_skipBreak _).leads) (ih _)
        exact spaces.trans ⟨0, reads_of_eq rfl rfl⟩
      · exact spaces.trans ⟨0, reads_of_eq rfl rfl⟩

theorem leads_skipSpaces (fuel : Nat) (c : Cursor) : Leads c (skipSpaces fuel c).1 := by
  induction fuel generalizing c with
  | zero => exact .refl c
  | succ fuel ih =>
      simp only [skipSpaces]
      have spaces := leads_skipSpace (c := c) (Nat.le_refl (c.upcoming (· == ' ')).length)
      split
      · exact (spaces.trans (leads_skipBreak 2 _)).trans (ih _)
      · exact spaces

theorem length_le_width8 (text : List Char) : text.length ≤ width8 text := by
  induction text with
  | nil => exact Nat.le_refl _
  | cons c rest ih =>
      have positive := c.utf8Size_pos
      simp only [width8, List.length_cons]
      omega

/-- Behind the rest of a line, the line breaks or the text ends. -/
theorem breaks_readLine (c : Cursor) : isBreakOrEnd (readLine c).1.peek = true := by
  have rest : (readLine c).1.rest = c.rest.dropWhile (!isBreakOrEnd ·) := by
    have parts := List.takeWhile_append_dropWhile (p := (!isBreakOrEnd ·)) (l := c.rest)
    have after := congrArg (List.drop (c.rest.takeWhile (!isBreakOrEnd ·)).length) parts
    rw [List.drop_left] at after
    exact after.symm
  rw [peek, rest]
  cases found : c.rest.dropWhile (!isBreakOrEnd ·) with
  | nil => rfl
  | cons char rest =>
      have stop := List.head?_dropWhile_not (!isBreakOrEnd ·) c.rest
      simpa [found] using stop

/-- The rest of a line is read, and the columns that are counted are enough. -/
theorem onLine_readLine {text : List Char} {n : Nat} {c : Cursor} (here : c.At text n) :
    (readLine c).1.OnLine text (n + (readLine c).2.length) ∧
      c.mark.column ≤ (readLine c).1.mark.column := by
  obtain ⟨plain, inside⟩ := upcoming_plain (p := (!isBreakOrEnd ·)) (by simp) c
  obtain ⟨passed, start, starts, line, column, fresh⟩ :=
    ((reads_skipBlank plain inside).moves text n here).lines
  have there := (reads_skipBlank plain inside).moves text n here
  have wide := length_le_width8 ((c.upcoming (!isBreakOrEnd ·)).drop c.ahead)
  rw [List.length_drop] at wide
  simp only [skipBlank] at column line fresh
  refine ⟨⟨there.rest_eq, there.le_length, passed, start, starts, line, ?_, fun first => ?_⟩, ?_⟩
  · simp only [readLine]
    omega
  · -- Nothing is read of a line whose start is not left.
    have none := fresh first
    have empty : c.upcoming (!isBreakOrEnd ·) = [] := List.eq_nil_of_length_eq_zero (by omega)
    simp only [readLine, empty, width8, List.length_nil, List.drop_nil, Nat.zero_min]
    omega
  · simp only [readLine]
    omega

/-- Where the lines of a block scalar have been read: at an exact mark, or at the end of the text in
a column behind the indentation. -/
theorem onLine_readLines {text : List Char} {n : Nat} {c : Cursor} (folded : Bool)
    (indent fuel : Nat) (gap : Gap) (here : c.At text n) :
    ∃ k, (readLines folded indent fuel c gap).1.OnLine text (n + k) ∧
      ((readLines folded indent fuel c gap).1.At text (n + k) ∨
        (isEnd (readLines folded indent fuel c gap).1.peek = true ∧
          indent ≤ (readLines folded indent fuel c gap).1.mark.column)) := by
  induction fuel generalizing c gap n with
  | zero => exact ⟨0, here.toOnLine, .inl here⟩
  | succ fuel ih =>
      simp only [readLines]
      split
      · exact ⟨0, here.toOnLine, .inl here⟩
      · rename_i more
        simp only [Bool.or_eq_true, bne_iff_ne, ne_eq, not_or, not_not, Bool.not_eq_true] at more
        -- What was read ahead decides how columns are counted, but not where the cursor stands.
        obtain ⟨first, same, here⟩ : ∃ first, (if indent = 0 then c.lookAhead 4 else c) = first ∧
            first.At text n ∧ first.mark.column = indent := by
          split
          · exact ⟨_, rfl, here.of_eq rfl rfl, more.1⟩
          · exact ⟨_, rfl, here, more.1⟩
        rw [same]
        split
        · exact ⟨0, here.1.toOnLine, .inl here.1⟩
        · obtain ⟨onLine, column⟩ := onLine_readLine here.1
          split
          · rename_i ended
            exact ⟨_, onLine, .inr ⟨ended, here.2 ▸ column⟩⟩
          · rename_i running
            have broken : isBreak (readLine first).1.peek = true := by
              have stop := breaks_readLine first
              simpa [isBreakOrEnd, running] using stop
            have next := (onLine.of_eq (d := (readLine first).1.lookAhead 2) rfl rfl).at_skipBreak
              broken
            obtain ⟨j, indented⟩ := leads_skipIndent indent
              (((readLine first).1.lookAhead 2).skipBreak.rest.length + 1)
              ((readLine first).1.lookAhead 2).skipBreak
            obtain ⟨k, last, exact⟩ := ih { broken := true, afterBlank := _, empties := _ }
              (indented.moves text _ next)
            rw [Nat.add_assoc, Nat.add_assoc, Nat.add_assoc] at last exact
            exact ⟨_, last, exact⟩

theorem lt_contentIndent {parent : Int} {relative : Option Nat} (widest : Nat)
    (positive : ∀ n ∈ relative, 0 < n) : parent < contentIndent parent relative widest := by
  cases relative with
  | none =>
      simp only [contentIndent]
      omega
  | some n =>
      have more := positive n rfl
      simp only [contentIndent]
      split <;> omega

/-- Where a block scalar whose content begins at a cursor has been read. -/
theorem onLine_content {text : List Char} {folded : Bool} {parent : Int} {header : Header}
    {n j empties indent : Nat} {c content d : Cursor} {value : List Char} {mark : Mark}
    (here : c.At text n) (there : content.At text (n + j)) (inner : parent < indent)
    (found : (if isEnd content.peek then
        Except.ok (content, emptyValue header.chomp (content.mark.line == c.mark.line) empties, c.mark)
      else if content.mark.column < indent && parent < content.column then
        content.fail .blockIndentation
      else
        let lines := readLines folded indent (content.rest.length + 1) content { empties }
        .ok (lines.1, lines.2.1 ++ tail header.chomp indent lines.1 lines.2.2, content.mark)) =
      .ok (d, value, mark)) :
    ∃ j k, j ≤ k ∧ mark.offsetIn text = n + j ∧ d.OnLine text (n + k) ∧
      (d.At text (n + k) ∨ (isEnd d.peek = true ∧ parent < d.column)) := by
  split at found
  · cases found
    exact ⟨0, j, Nat.zero_le _, here.offset_eq, there.toOnLine, .inl there⟩
  · obtain ⟨_, found⟩ := refuse_eq_ok.1 found
    obtain ⟨k, last, settled⟩ := onLine_readLines folded indent (content.rest.length + 1)
      { empties } there
    cases found
    rw [Nat.add_assoc] at last settled
    refine ⟨j, j + k, by omega, there.offset_eq, last, ?_⟩
    refine settled.imp_right fun ended => ⟨ended.1, ?_⟩
    rw [Cursor.column]
    omega

/-- A block scalar is read to the end of its lines. Its mark lies on the way. -/
theorem onLine_read {text : List Char} {folded : Bool} {parent : Int} {n : Nat} {c d : Cursor}
    {value : List Char} {mark : Mark} (here : c.At text n) (plain : isBreakOrEnd c.peek = false)
    (found : read folded parent c = .ok (d, value, mark)) :
    ∃ j k, j ≤ k ∧ mark.offsetIn text = n + j ∧ d.OnLine text (n + k) ∧
      (d.At text (n + k) ∨ (isEnd d.peek = true ∧ parent < d.column)) := by
  obtain ⟨⟨next, header⟩, first, found⟩ := bind_eq_ok.1 found
  obtain ⟨⟨after, gap⟩, blanks, found⟩ := bind_eq_ok.1 found
  obtain ⟨_, found⟩ := refuse_eq_ok.1 found
  obtain ⟨_, found⟩ := refuse_eq_ok.1 found
  obtain ⟨headed, positive⟩ := leads_readHeader first
  have opened : Leads c (after.lookAhead 2).skipBreak :=
    ((Leads.trans ⟨1, reads_skip_one plain⟩ headed).trans (leads_skipToLineEnd blanks)).trans
      (leads_skipBreak 2 _)
  cases given : header.indent with
  | some relative =>
      rw [given] at found positive
      cases scanned : skipIndent (contentIndent parent (some relative) 0)
          ((after.lookAhead 2).skipBreak.rest.length + 1) (after.lookAhead 2).skipBreak with
      | mk content empties =>
          obtain ⟨j, indented⟩ := opened.trans (leads_skipIndent _ _ _)
          rw [scanned] at indented
          simp only [scanned] at found
          exact onLine_content here (indented.moves text n here) (lt_contentIndent 0 positive) found
  | none =>
      rw [given] at found
      cases scanned : skipSpaces ((after.lookAhead 2).skipBreak.rest.length + 1)
          (after.lookAhead 2).skipBreak with
      | mk content rest =>
          obtain ⟨j, indented⟩ := opened.trans (leads_skipSpaces _ _)
          rw [scanned] at indented
          simp only [scanned] at found
          exact onLine_content here (indented.moves text n here) (lt_contentIndent rest.2 (by simp))
            found

end WorkflowScope.Yaml.Block
