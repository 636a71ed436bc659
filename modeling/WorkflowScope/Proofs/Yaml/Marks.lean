import WorkflowScope.Proofs.Text.Positions
import WorkflowScope.Proofs.Yaml.Cursor

/-!
# The marks of a text

A reader that counts lines and columns reaches a mark behind every character of a text. Such a mark
tells its offset; and where carriage returns stand before line feeds only, its line is the one that
an editor counts.
-/

namespace WorkflowScope.Yaml

namespace Mark

/-- The mark behind a character that `rest` follows. -/
def next (mark : Mark) (c : Char) (rest : List Char) : Mark :=
  if c = '\n' || (c = '\r' && rest.head? ≠ some '\n') then
    { index := mark.index + 1, line := mark.line + 1, column := 0 }
  else { mark with index := mark.index + 1, column := mark.column + 1 }

/-- The mark behind `k` further characters. -/
def after (mark : Mark) : Nat → List Char → Mark
  | 0, _ => mark
  | _ + 1, [] => mark
  | k + 1, c :: rest => (mark.next c rest).after k rest

/-- The mark behind the first `k` characters of a text. -/
def behind (text : List Char) (k : Nat) : Mark :=
  ({} : Mark).after k text

/-! ## Offsets -/

/-- The mark stands at the offset `n`, `mark.column` characters behind the start of its line. -/
def Tells (text : List Char) (n : Nat) (mark : Mark) : Prop :=
  ∃ passed start, lineStarts text = passed ++ start :: startsAfterBreaks n (text.drop n) ∧
    passed.length + 1 = mark.line ∧ start + mark.column = n

theorem tells_start (text : List Char) : Tells text 0 {} :=
  ⟨[], 0, rfl, rfl, rfl⟩

theorem drop_succ_of_drop {text rest : List Char} {n : Nat} {c : Char}
    (found : text.drop n = c :: rest) : text.drop (n + 1) = rest := by
  rw [List.drop_add_one_eq_tail_drop, found, List.tail_cons]

/-- A character that ends its line adds the start of the next one. -/
theorem Tells.next {text rest : List Char} {n : Nat} {mark : Mark} {c : Char}
    (tells : Tells text n mark) (found : text.drop n = c :: rest) :
    Tells text (n + 1) (mark.next c rest) := by
  obtain ⟨passed, start, starts, line, column⟩ := tells
  rw [found, startsAfterBreaks] at starts
  rw [Tells, drop_succ_of_drop found]
  unfold Mark.next
  split at starts
  · rename_i broken
    rw [if_pos broken]
    exact ⟨passed ++ [start], n + 1, by simpa using starts, by simp [line], rfl⟩
  · rename_i running
    rw [if_neg running]
    exact ⟨passed, start, starts, line, by simp only; omega⟩

theorem Tells.after {text rest : List Char} {n k : Nat} {mark : Mark} (tells : Tells text n mark)
    (found : text.drop n = rest) (inside : k ≤ rest.length) :
    Tells text (n + k) (mark.after k rest) := by
  induction k generalizing n mark rest with
  | zero => exact tells
  | succ k ih =>
      cases rest with
      | nil => simp at inside
      | cons c rest =>
          have later := ih (tells.next found) (drop_succ_of_drop found) (by simpa using inside)
          rwa [Nat.add_assoc, Nat.add_comm 1] at later

theorem tells_behind {text : List Char} {k : Nat} (inside : k ≤ text.length) :
    Tells text k (behind text k) := by
  have tells := (tells_start text).after rfl inside
  rwa [Nat.zero_add] at tells

theorem Tells.offset_eq {text : List Char} {n : Nat} {mark : Mark} (tells : Tells text n mark)
    (inside : n ≤ text.length) : mark.offset (lineStarts text) text.length = n := by
  obtain ⟨passed, start, starts, line, column⟩ := tells
  rw [Mark.offset, starts, ← line]
  simp [column, inside]

/-- Marks that tell one offset are on one line. -/
theorem Tells.line_eq {text : List Char} {n : Nat} {first second : Mark}
    (tells : Tells text n first) (again : Tells text n second) : first.line = second.line := by
  obtain ⟨passed, start, starts, line, _⟩ := tells
  obtain ⟨passed', start', starts', line', _⟩ := again
  have lengths := congrArg List.length (starts.symm.trans starts')
  simp only [List.length_append, List.length_cons] at lengths
  omega

/-- The line that starts next is the one below. -/
theorem Tells.next_line {text : List Char} {n start : Nat} {later : List Nat} {mark : Mark}
    (tells : Tells text n mark) (below : startsAfterBreaks n (text.drop n) = start :: later) :
    start ≤ text.length ∧ ∃ next, Tells text start next ∧ next.line = mark.line + 1 := by
  generalize found : text.drop n = rest at below
  induction rest generalizing n mark with
  | nil => cases below
  | cons c rest ih =>
      have moved := tells.next found
      rw [startsAfterBreaks] at below
      split at below
      · rename_i broken
        obtain ⟨rfl, -⟩ := List.cons.inj below
        have inside := congrArg List.length found
        rw [List.length_drop, List.length_cons] at inside
        exact ⟨by omega, _, moved, by rw [Mark.next, if_pos broken]⟩
      · rename_i running
        have same : (mark.next c rest).line = mark.line := by rw [Mark.next, if_neg running]
        rw [← same]
        exact ih moved (drop_succ_of_drop found) below

/-- Turning the mark behind a prefix into an offset gives the length of the prefix. -/
theorem offset_behind {text : List Char} {k : Nat} (inside : k ≤ text.length) :
    (behind text k).offset (lineStarts text) text.length = k :=
  (tells_behind inside).offset_eq inside

/-! ## Lines -/

/-- Every carriage return stands before a line feed. -/
def Paired (text : List Char) : Prop :=
  ∀ i : Nat, text[i]? = some '\r' → text[i + 1]? = some '\n'

theorem paired_iff {text : List Char} :
    Paired text ↔ ∀ i < text.length, text[i]? = some '\r' → text[i + 1]? = some '\n' :=
  ⟨fun paired i _ => paired i, fun paired i found =>
    paired i (List.getElem?_eq_some_iff.1 found).1 found⟩

instance (text : List Char) : Decidable (Paired text) :=
  decidable_of_iff _ paired_iff.symm

theorem Paired.tail {text : List Char} {c : Char} (paired : Paired (c :: text)) : Paired text :=
  fun i found => paired (i + 1) found

theorem line_next {c : Char} {rest : List Char} (paired : Paired (c :: rest)) (mark : Mark) :
    (mark.next c rest).line = mark.line + [c].count '\n' := by
  have feed : c = '\r' → rest.head? = some '\n' := by
    rintro rfl
    simpa [List.head?_eq_getElem?] using paired 0 rfl
  unfold next
  by_cases line : c = '\n'
  · simp [line]
  · by_cases back : c = '\r'
    · simp [back, feed back]
    · simp [line, back]

/-- The line is the number of line feeds that have been passed. -/
theorem line_after {text : List Char} (paired : Paired text) (mark : Mark) (k : Nat) :
    (mark.after k text).line = mark.line + (text.take k).count '\n' := by
  induction text generalizing mark k with
  | nil => cases k <;> simp [after]
  | cons c rest ih =>
      cases k with
      | zero => simp [after]
      | succ k =>
          rw [after, ih paired.tail, line_next paired, Nat.add_assoc, ← List.count_append,
            List.singleton_append, List.take_succ_cons]

/-- Readers and editors count the same lines, readers from one and editors from zero. -/
theorem line_behind {text : List Char} (small : text.length < 0x80000000) (paired : Paired text)
    {k : Nat} (inside : k ≤ text.length) :
    ((LineIndex.ofText text).positionAt k).line + 1 = (behind text k).line := by
  rw [LineIndex.line_positionAt small inside, behind, line_after paired, Nat.add_comm]

/-- Lines do not go back. -/
theorem line_behind_le {text : List Char} (paired : Paired text) {first second : Nat}
    (ordered : first ≤ second) : (behind text first).line ≤ (behind text second).line := by
  have fewer := (List.take_sublist_take_left (l := text) ordered).count_le '\n'
  rw [behind, behind, line_after paired, line_after paired]
  omega

end Mark

/-- A cursor is on the line that its offset lies on. -/
theorem Cursor.OnLine.line_eq {text : List Char} {n : Nat} {c : Cursor} (here : c.OnLine text n) :
    c.mark.line = (Mark.behind text n).line := by
  obtain ⟨passed, start, starts, line, _⟩ := here.lines
  obtain ⟨passed', start', starts', line', _⟩ := Mark.tells_behind here.le_length
  have lengths := congrArg List.length (starts.symm.trans starts')
  rw [here.rest_eq] at lengths
  simp only [List.length_append, List.length_cons] at lengths
  omega

/-- At the start of a line the column is the first one. -/
theorem Cursor.OnLine.column_eq_zero {text : List Char} {n : Nat} {c : Cursor}
    (here : c.OnLine text n) (first : (Mark.behind text n).column = 0) : c.mark.column = 0 := by
  have same := here.line_eq
  obtain ⟨passed, start, starts, line, _, fresh⟩ := here.lines
  obtain ⟨passed', start', starts', line', column⟩ := Mark.tells_behind here.le_length
  obtain ⟨-, lines⟩ := List.append_inj (starts.symm.trans starts') (by omega)
  refine fresh ((List.cons.inj lines).1.trans ?_)
  omega

/-- The mark at the start of the line below an offset is on the line of the offset that it tells. If
there is no such line, it tells the end of the text. -/
theorem offsetIn_of_lineBelow {text : List Char} {n : Nat} {mark : Mark} (inside : n ≤ text.length)
    (line : mark.line = (Mark.behind text n).line + 1) (first : mark.column = 0) :
    mark.line = (Mark.behind text (mark.offsetIn text)).line ∨
      (mark.offsetIn text = text.length ∧
        (Mark.behind text text.length).line = (Mark.behind text n).line ∧
        (Mark.behind text n).column ≤ (Mark.behind text text.length).column) := by
  obtain ⟨passed, start, starts, passedLine, column⟩ := Mark.tells_behind inside
  cases below : startsAfterBreaks n (text.drop n) with
  | nil =>
      right
      rw [below] at starts
      obtain ⟨passed', start', starts', line', column'⟩ :=
        Mark.tells_behind (Nat.le_refl text.length)
      rw [List.drop_length, startsAfterBreaks, starts] at starts'
      obtain ⟨rfl, same⟩ := List.append_inj' starts' rfl
      obtain ⟨rfl, -⟩ := List.cons.inj same
      refine ⟨?_, line'.symm.trans passedLine, by omega⟩
      rw [Mark.offsetIn, Mark.offset, line, starts, ← passedLine]
      simp
  | cons next later =>
      left
      obtain ⟨nextIn, other, told, otherLine⟩ := (Mark.tells_behind inside).next_line below
      have offset : mark.offsetIn text = next := by
        rw [Mark.offsetIn, Mark.offset, line, starts, below, ← passedLine, first]
        simp [nextIn]
      rw [offset, line, ← otherLine]
      exact told.line_eq (Mark.tells_behind nextIn)

end WorkflowScope.Yaml
