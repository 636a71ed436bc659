import WorkflowScope.Proofs.Text.Readings
import WorkflowScope.Proofs.Yaml.Room

/-!
# Cursors in a text

A cursor stands at an offset of a text when the rest of the text follows it and its mark tells the
offset. Every reading moves it on: lines and columns are counted along, so that marks can be turned
back into offsets.
-/

namespace WorkflowScope.Yaml

/-! ## Line starts -/

theorem startsAfterBreaks_drop {rest : List Char} {count : Nat} (base : Nat)
    (plain : ∀ c ∈ rest.take count, isBreakOrEnd c = false) (inside : count ≤ rest.length) :
    startsAfterBreaks base rest = startsAfterBreaks (base + count) (rest.drop count) := by
  induction count generalizing base rest with
  | zero => simp
  | succ count ih =>
      cases rest with
      | nil => simp at inside
      | cons c rest =>
          have here := plain c (by simp)
          simp only [isBreakOrEnd, isBreak, Bool.or_eq_false_iff, beq_eq_false_iff_ne] at here
          have later := @ih rest (base + 1) (fun d member => plain d (by simp [member]))
            (by simpa using inside)
          rw [startsAfterBreaks, if_neg (by simp [here.1.1, here.1.2]), later, List.drop_succ_cons,
            Nat.add_assoc, Nat.add_comm 1]

namespace Cursor

/-- The cursor stands at an offset on its line, in a column that is not too small; at the start of
the line that is the first one. -/
structure OnLine (text : List Char) (n : Nat) (c : Cursor) : Prop where
  rest_eq : c.rest = text.drop n
  le_length : n ≤ text.length
  lines : ∃ passed start, lineStarts text = passed ++ start :: startsAfterBreaks n c.rest ∧
    passed.length + 1 = c.mark.line ∧ n ≤ start + c.mark.column ∧ (start = n → c.mark.column = 0)

/-- The cursor stands at an offset, and its mark tells so. -/
structure At (text : List Char) (n : Nat) (c : Cursor) : Prop extends OnLine text n c where
  offset_eq : c.mark.offsetIn text = n

theorem OnLine.offsetIn_eq {text : List Char} {n : Nat} {c : Cursor} (onLine : c.OnLine text n) :
    ∃ passed start, lineStarts text = passed ++ start :: startsAfterBreaks n c.rest ∧
      passed.length + 1 = c.mark.line ∧ n ≤ start + c.mark.column ∧
      c.mark.offsetIn text = min (start + c.mark.column) text.length := by
  obtain ⟨passed, start, starts, line, column, _⟩ := onLine.lines
  refine ⟨passed, start, starts, line, column, ?_⟩
  rw [Mark.offsetIn, Mark.offset, ← line, starts]
  simp

theorem OnLine.le_offsetIn {text : List Char} {n : Nat} {c : Cursor} (onLine : c.OnLine text n) :
    n ≤ c.mark.offsetIn text := by
  obtain ⟨_, _, _, _, column, offset⟩ := onLine.offsetIn_eq
  have inside := onLine.le_length
  omega

theorem at_initial (text : List Char) : Cursor.At text 0 { rest := text } where
  rest_eq := rfl
  le_length := Nat.zero_le _
  lines := ⟨[], 0, rfl, rfl, Nat.le_refl _, fun _ => rfl⟩
  offset_eq := by simp [Mark.offsetIn, Mark.offset, lineStarts]

/-- Reading `k` characters leads from one cursor to another. -/
structure Reads (k : Nat) (c d : Cursor) : Prop where
  rest_eq : d.rest = c.rest.drop k
  le_length : k ≤ c.rest.length
  moves : ∀ text n, c.At text n → d.At text (n + k)

theorem Reads.refl (c : Cursor) : Reads 0 c c :=
  ⟨rfl, Nat.zero_le _, fun _ _ here => here⟩

theorem Reads.trans {j k : Nat} {c d e : Cursor} (first : Reads j c d) (second : Reads k d e) :
    Reads (j + k) c e where
  rest_eq := by rw [second.rest_eq, first.rest_eq, List.drop_drop]
  le_length := by
    have long := second.le_length
    have inside := first.le_length
    rw [first.rest_eq, List.length_drop] at long
    omega
  moves text n here := by
    have there := second.moves text (n + j) (first.moves text n here)
    rwa [Nat.add_assoc] at there

/-- How much has been read ahead does not matter. -/
theorem OnLine.of_eq {text : List Char} {n : Nat} {c d : Cursor} (here : c.OnLine text n)
    (rest : d.rest = c.rest) (mark : d.mark = c.mark) : d.OnLine text n := by
  refine ⟨rest.trans here.rest_eq, here.le_length, ?_⟩
  rw [rest, mark]
  exact here.lines

theorem At.of_eq {text : List Char} {n : Nat} {c d : Cursor} (here : c.At text n)
    (rest : d.rest = c.rest) (mark : d.mark = c.mark) : d.At text n :=
  ⟨here.toOnLine.of_eq rest mark, mark ▸ here.offset_eq⟩

theorem reads_of_eq {c d : Cursor} (rest : d.rest = c.rest) (mark : d.mark = c.mark) :
    Reads 0 c d :=
  ⟨rest, Nat.zero_le _, fun _ _ here => here.of_eq rest mark⟩

theorem Reads.of_lookAhead {k count : Nat} {c d : Cursor} (reads : Reads k (c.lookAhead count) d) :
    Reads k c d := by
  simpa using (reads_of_eq (c := c) (d := c.lookAhead count) rfl rfl).trans reads

theorem Reads.lookAhead {k : Nat} {c d : Cursor} (reads : Reads k c d) (count : Nat) :
    Reads k c (d.lookAhead count) := by
  simpa using reads.trans (reads_of_eq (d := d.lookAhead count) rfl rfl)

theorem peek_eq {c : Cursor} {char : Char} {rest : List Char} (found : c.rest = char :: rest) :
    c.peek = char := by
  simp [peek, found]

theorem exists_cons_of_peek {c : Cursor} (running : isEnd c.peek = false) :
    ∃ rest, c.rest = c.peek :: rest := by
  cases found : c.rest with
  | nil => simp [peek, found, isEnd] at running
  | cons char rest => exact ⟨rest, by rw [peek_eq found]⟩

/-- Characters that neither break the line nor end the text. -/
theorem reads_skipBlank {k : Nat} {c : Cursor}
    (plain : ∀ char ∈ c.rest.take k, isBreakOrEnd char = false) (inside : k ≤ c.rest.length) :
    Reads k c (c.skipBlank k) := by
  refine ⟨rfl, inside, fun text n here => ?_⟩
  cases k with
  | zero => exact ⟨⟨here.rest_eq, here.le_length, here.lines⟩, here.offset_eq⟩
  | succ k =>
      obtain ⟨passed, start, starts, line, _, offset⟩ := here.toOnLine.offsetIn_eq
      have here_eq := here.offset_eq
      have length : c.rest.length = text.length - n := by rw [here.rest_eq, List.length_drop]
      have column : n = start + c.mark.column := by omega
      have later : lineStarts text =
          passed ++ start :: startsAfterBreaks (n + (k + 1)) (c.skipBlank (k + 1)).rest := by
        rw [starts, startsAfterBreaks_drop n plain inside]
        rfl
      have onLine : (c.skipBlank (k + 1)).OnLine text (n + (k + 1)) := by
        refine ⟨?_, by omega, passed, start, later, line, ?_, ?_⟩
        · rw [rest_skipBlank, here.rest_eq, List.drop_drop]
        · simp only [skipBlank]
          omega
        · omega
      refine ⟨onLine, ?_⟩
      obtain ⟨passed', start', starts', line', _, offset'⟩ := onLine.offsetIn_eq
      have same : passed = passed' ∧ start = start' := by
        have both := later.symm.trans starts'
        have lengths : passed.length = passed'.length := by
          have := line.trans line'.symm
          simpa [skipBlank] using this
        obtain ⟨h1, h2⟩ := List.append_inj both lengths
        exact ⟨h1, by simpa using (List.cons.inj h2).1⟩
      rw [offset', ← same.2]
      simp only [skipBlank]
      omega

theorem reads_skip {k : Nat} {c : Cursor}
    (plain : ∀ char ∈ c.rest.take k, isBreakOrEnd char = false) (inside : k ≤ c.rest.length) :
    Reads k c (c.skip k) := by
  simpa using (reads_skipBlank plain inside).trans (reads_of_eq (d := c.skip k) rfl rfl)

/-- One character that is seen to be plain. -/
theorem reads_skip_one {c : Cursor} (plain : isBreakOrEnd c.peek = false) :
    Reads 1 c (c.skip 1) := by
  obtain ⟨rest, found⟩ := exists_cons_of_peek (c := c) (by simp_all [isBreakOrEnd])
  refine reads_skip ?_ (by simp [found])
  rw [found]
  simpa using plain

theorem reads_skipBlank_one {c : Cursor} (plain : isBreakOrEnd c.peek = false) :
    Reads 1 c (c.skipBlank 1) := by
  obtain ⟨rest, found⟩ := exists_cons_of_peek (c := c) (by simp_all [isBreakOrEnd])
  refine reads_skipBlank ?_ (by simp [found])
  rw [found]
  simpa using plain

/-- The characters of a class without breaks. -/
theorem upcoming_plain {p : Char → Bool} (plain : ∀ char, p char = true → isBreakOrEnd char = false)
    (c : Cursor) :
    (∀ char ∈ c.rest.take (c.upcoming p).length, isBreakOrEnd char = false) ∧
      (c.upcoming p).length ≤ c.rest.length := by
  have start : c.upcoming p <+: c.rest := List.takeWhile_prefix p
  refine ⟨fun char member => ?_, start.length_le⟩
  rw [← List.prefix_iff_eq_take.1 start] at member
  exact plain char (List.all_eq_true.1 List.all_takeWhile char member)

/-- Reading some characters leads from one cursor to another. -/
def Leads (c d : Cursor) : Prop :=
  ∃ k, Reads k c d

theorem Reads.leads {k : Nat} {c d : Cursor} (reads : Reads k c d) : Leads c d :=
  ⟨k, reads⟩

theorem Leads.refl (c : Cursor) : Leads c c :=
  ⟨0, .refl c⟩

theorem Leads.trans {c d e : Cursor} (first : Leads c d) (second : Leads d e) : Leads c e := by
  obtain ⟨j, first⟩ := first
  obtain ⟨k, second⟩ := second
  exact ⟨j + k, first.trans second⟩

theorem leads_skip_upcoming {p : Char → Bool}
    (plain : ∀ char, p char = true → isBreakOrEnd char = false) (c : Cursor) :
    Leads c (c.skip (c.upcoming p).length) := by
  obtain ⟨plain, inside⟩ := upcoming_plain plain c
  exact ⟨_, reads_skip plain inside⟩

theorem leads_skipComment (c : Cursor) : Leads c c.skipComment := by
  unfold skipComment
  split
  · exact .refl c
  · obtain ⟨plain, inside⟩ := upcoming_plain (p := (!isBreakOrEnd ·)) (by simp) c
    exact ⟨_, reads_skip plain inside⟩

theorem isBreakOrEnd_of_isBlank {char : Char} (blank : isBlank char = true) :
    isBreakOrEnd char = false := by
  simp only [isBlank, Bool.or_eq_true, beq_iff_eq] at blank
  rcases blank with rfl | rfl <;> rfl

theorem leads_skipToLineEnd {c d : Cursor} {gap : Gap} (read : c.skipToLineEnd = .ok (d, gap)) :
    Leads c d := by
  obtain ⟨plain, inside⟩ := upcoming_plain (p := isBlank) (fun _ => isBreakOrEnd_of_isBlank) c
  have blanks := reads_skipBlank plain inside
  simp only [skipToLineEnd] at read
  split at read
  · split at read
    · cases read
    · cases read
      obtain ⟨k, comment⟩ := leads_skipComment (c.skipBlank (c.upcoming isBlank).length)
      exact ⟨_, blanks.trans comment⟩
  · cases read
    exact ⟨_, blanks⟩

/-! ## Line breaks -/

/-- The break that ends a line is of one or two characters, and the next line starts behind it. -/
theorem startsAfterBreaks_break {c : Cursor} (broken : isBreak c.peek = true) (base : Nat) :
    0 < c.breakWidth ∧ c.breakWidth ≤ c.rest.length ∧
      startsAfterBreaks base c.rest =
        (base + c.breakWidth) ::
          startsAfterBreaks (base + c.breakWidth) (c.rest.drop c.breakWidth) := by
  have running : isEnd c.peek = false := by
    simp only [isBreak, Bool.or_eq_true, beq_iff_eq] at broken
    rcases broken with same | same <;> rw [same] <;> rfl
  obtain ⟨rest, found⟩ := exists_cons_of_peek running
  cases pair : (c.peek == '\r' && c.peekAt 1 == '\n') with
  | true =>
      have two : c.breakWidth = 2 := by simp [breakWidth, pair]
      simp only [Bool.and_eq_true, beq_iff_eq] at pair
      rw [pair.1] at found
      cases rest with
      | nil => simp [peekAt, found] at pair
      | cons next rest =>
          have feed : next = '\n' := by simpa [peekAt, found] using pair.2
          rw [two, found, feed]
          simp [startsAfterBreaks]
  | false =>
      have one : c.breakWidth = 1 := by simp [breakWidth, pair, broken]
      have ends : (c.peek = '\n' || (c.peek = '\r' && rest.head? ≠ some '\n')) = true := by
        simp only [isBreak, Bool.or_eq_true, beq_iff_eq] at broken
        rcases broken with same | same
        · simp [same]
        · cases rest with
          | nil => simp [same]
          | cons next rest => simpa [same, peekAt, found] using pair
      rw [one, found, startsAfterBreaks, if_pos ends]
      simp

/-- Behind the break of a line the column is known again. -/
theorem OnLine.at_skipBreak {text : List Char} {n : Nat} {c : Cursor} (here : c.OnLine text n)
    (broken : isBreak c.peek = true) : c.skipBreak.At text (n + c.breakWidth) := by
  obtain ⟨positive, inside, later⟩ := startsAfterBreaks_break broken n
  obtain ⟨passed, start, starts, line, _⟩ := here.lines
  obtain ⟨width, same⟩ : ∃ width, c.breakWidth = width + 1 := ⟨c.breakWidth - 1, by omega⟩
  have skipped : c.skipBreak =
      { rest := c.rest.drop c.breakWidth
        mark := { index := c.mark.index + c.breakWidth, line := c.mark.line + 1, column := 0 }
        atLineStart := true
        ahead := max (c.ahead - c.breakWidth) 1 } := by
    simp only [skipBreak, same]
  have length : c.rest.length = text.length - n := by rw [here.rest_eq, List.length_drop]
  have onLine : c.skipBreak.OnLine text (n + c.breakWidth) := by
    rw [skipped]
    refine ⟨by rw [here.rest_eq, List.drop_drop], by omega, passed ++ [start], n + c.breakWidth, ?_,
      by simp [line], Nat.le_refl _, fun _ => rfl⟩
    rw [starts, later, List.append_assoc, List.singleton_append]
  refine ⟨onLine, ?_⟩
  rw [skipped, Mark.offsetIn, Mark.offset, starts, later, ← line]
  have inner : n + c.breakWidth ≤ text.length := onLine.le_length
  simp [inner]

theorem reads_skipBreak (c : Cursor) : Reads c.breakWidth c c.skipBreak := by
  cases broken : isBreak c.peek with
  | true =>
      obtain ⟨positive, inside, _⟩ := startsAfterBreaks_break broken 0
      obtain ⟨width, same⟩ : ∃ width, c.breakWidth = width + 1 := ⟨c.breakWidth - 1, by omega⟩
      refine ⟨?_, inside, fun text n here => here.toOnLine.at_skipBreak broken⟩
      simp only [skipBreak, same]
  | false =>
      have none : c.breakWidth = 0 := by
        simp only [isBreak, Bool.or_eq_false_iff, beq_eq_false_iff_ne] at broken
        simp [breakWidth, isBreak, broken]
      have still : c.skipBreak = c := by simp only [skipBreak, none]
      rw [none, still]
      exact .refl c

theorem leads_skipBreak (count : Nat) (c : Cursor) : Leads c (c.lookAhead count).skipBreak :=
  ⟨_, .of_lookAhead (reads_skipBreak _)⟩

theorem breakWidth_pos {c : Cursor} (broken : isBreak c.peek = true) : 0 < c.breakWidth :=
  (startsAfterBreaks_break broken 0).1

end Cursor

end WorkflowScope.Yaml
