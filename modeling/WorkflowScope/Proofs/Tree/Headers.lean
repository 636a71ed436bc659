import WorkflowScope.Proofs.Tree.Extents
import WorkflowScope.Yaml.Alphabet

/-!
# The search for a header

A block scalar is marked at its content, and its header is searched for from there: at the mark
itself, then on the line above that is not blank. The search comes to the line of the header, but
there it takes the first place that looks like one.
-/

namespace WorkflowScope

theorem Span.all_slice_iff {text : List Char} {start stop : Nat} {p : Char → Bool} :
    (Span.slice ⟨start, stop⟩ text).all p = true ↔
      ∀ i c, start ≤ i → i < stop → text[i]? = some c → p c = true := by
  simp only [List.all_eq_true, Span.slice, Span.length]
  constructor
  · intro all i c after before found
    obtain ⟨k, rfl⟩ := Nat.exists_eq_add_of_le after
    apply all c
    apply List.mem_of_getElem? (i := k)
    rwa [List.getElem?_take_of_lt (by omega), List.getElem?_drop]
  · intro each c member
    obtain ⟨k, found⟩ := List.mem_iff_getElem?.1 member
    have inside : k < stop - start := by
      apply Nat.lt_of_not_le
      intro beyond
      rw [List.getElem?_take_eq_none beyond] at found
      cases found
    rw [List.getElem?_take_of_lt inside, List.getElem?_drop] at found
    exact each (start + k) c (Nat.le_add_right _ _) (by omega) found

namespace Extent

open Yaml (isBreak isEnd)
open Composer (opensAt)

/-- The end of the line that holds an offset, without its break. -/
def lineEnd (text : List Char) (offset : Nat) : Nat :=
  offset + ((text.drop offset).takeWhile (!isBreak ·)).length

/-- A block scalar whose header stands at `header` is marked at `mark`: the header ends its line,
and only spaces and line breaks follow up to the mark. -/
structure Heads (text : List Char) (header mark : Nat) : Prop where
  opens : (opensAt text header '|' || opensAt text header '>') = true
  finishes : finishesHeader (text.drop (header + 1)) = true
  below : lineEnd text header < mark
  inside : mark ≤ text.length
  blank : (Span.slice ⟨lineEnd text header, mark⟩ text).all (fun c => c == ' ' || isBreak c) = true

/-- A block scalar without content: the text ends at `stop`, on the line of the header or below it,
and nothing is written in between. -/
structure Bare (text : List Char) (header stop : Nat) : Prop where
  ends : isEnd (text[stop]?.getD '\x00') = true
  after : header < stop
  blank : Heads text header stop ∨ stop ≤ lineEnd text header

/-- The place that is taken for the header: the mark if its text looks like a header, or else the
first place on the line of the header that does. -/
def taken (text : List Char) (header mark : Nat) : Nat :=
  if isHeaderAt text mark then mark
  else (headerBetween? text (lineStartBefore text header) (lineEnd text header)).getD mark

/-- Nothing looks like the header but the header: neither the text at the mark nor what stands
before the header on its line. -/
structure Unmistaken (text : List Char) (header mark : Nat) : Prop where
  itself : isHeaderAt text header = true
  content : isHeaderAt text mark = false
  before : ∀ place, lineStartBefore text header ≤ place → place < header →
    isHeaderAt text place = false

variable {text : List Char} {header mark place start stop : Nat}

/-! ## Lines -/

theorem le_lineEnd (text : List Char) (offset : Nat) : offset ≤ lineEnd text offset :=
  Nat.le_add_right _ _

/-- Up to the end of the line there is no break. -/
theorem isBreak_of_lt_lineEnd {c : Char} (after : start ≤ place) (before : place < lineEnd text start)
    (found : text[place]? = some c) : isBreak c = false := by
  obtain ⟨i, rfl⟩ := Nat.exists_eq_add_of_le after
  have inLine : i < ((text.drop start).takeWhile (!isBreak ·)).length := by
    unfold lineEnd at before
    omega
  have parts := List.takeWhile_append_dropWhile (p := (!isBreak ·)) (l := text.drop start)
  rw [← List.getElem?_drop, ← parts, List.getElem?_append_left inLine] at found
  have plain := List.all_eq_true.1 List.all_takeWhile c (List.mem_of_getElem? found)
  simpa using plain

/-- At the end of a line that is not the last there is a break. -/
theorem exists_break_lineEnd (more : lineEnd text start < text.length) :
    ∃ c, text[lineEnd text start]? = some c ∧ isBreak c = true := by
  refine ⟨_, List.getElem?_eq_getElem more, ?_⟩
  have parts := List.takeWhile_append_dropWhile (p := (!isBreak ·)) (l := text.drop start)
  have rest : (text.drop start).dropWhile (!isBreak ·) = text.drop (lineEnd text start) := by
    have after := congrArg (List.drop ((text.drop start).takeWhile (!isBreak ·)).length) parts
    rw [List.drop_left, List.drop_drop] at after
    exact after
  have stop := List.head?_dropWhile_not (!isBreak ·) (text.drop start)
  rw [rest, List.head?_drop, List.getElem?_eq_getElem more] at stop
  simpa using stop

theorem lineStartBefore_succ {c : Char} (found : text[place]? = some c) :
    lineStartBefore text (place + 1) = if isBreak c then place + 1 else lineStartBefore text place := by
  obtain ⟨inside, same⟩ := List.getElem?_eq_some_iff.1 found
  have plain : (c != '\n' && c != '\r') = !isBreak c := by simp [isBreak, bne]
  have short := (List.takeWhile_sublist (l := (text.take place).reverse)
    fun c => c != '\n' && c != '\r').length_le
  rw [List.length_reverse, List.length_take] at short
  simp only [lineStartBefore, List.take_add_one, found, Option.toList_some, List.reverse_append,
    List.reverse_singleton, List.singleton_append, List.takeWhile_cons, plain]
  cases isBreak c with
  | true =>
      have whole : min (place + 1) text.length = place + 1 := Nat.min_eq_left inside
      simpa using whole
  | false =>
      simp only [Bool.not_false, if_true, List.length_cons, Bool.false_eq_true, if_false]
      omega

theorem isWhite_of_isBreak {c : Char} (broken : isBreak c = true) : Text.isWhite c = true := by
  simp only [isBreak, Bool.or_eq_true, beq_iff_eq] at broken
  rcases broken with rfl | rfl <;> decide

/-- On one line all offsets have the same line start. -/
theorem lineStartBefore_eq (ordered : start ≤ stop) (inside : stop ≤ text.length)
    (unbroken : ∀ i c, start ≤ i → i < stop → text[i]? = some c → isBreak c = false) :
    lineStartBefore text stop = lineStartBefore text start := by
  induction stop, ordered using Nat.le_induction with
  | base => rfl
  | succ stop ordered ih =>
      have found := List.getElem?_eq_getElem inside
      rw [lineStartBefore_succ found, if_neg (by
        simp [unbroken stop _ ordered (Nat.lt_succ_self _) found])]
      exact ih (Nat.le_of_lt inside) fun i c after before =>
        unbroken i c after (Nat.lt_succ_of_lt before)

/-- A line starts behind the breaks before it. -/
theorem lt_lineStartBefore {c : Char} (found : text[start]? = some c) (broken : isBreak c = true)
    (after : start < stop) (inside : stop ≤ text.length) : start < lineStartBefore text stop := by
  induction stop, after using Nat.le_induction with
  | base => simp [lineStartBefore_succ found, broken]
  | succ stop after ih =>
      rw [lineStartBefore_succ (List.getElem?_eq_getElem inside)]
      split
      · exact Nat.lt_succ_of_lt after
      · exact ih (Nat.le_of_lt inside)

/-! ## The search -/

/-- What a header begins with is neither blank nor a break. -/
theorem exists_of_opens (opens : (opensAt text place '|' || opensAt text place '>') = true) :
    ∃ c, text[place]? = some c ∧ c ≠ ' ' ∧ isBreak c = false ∧ Text.isWhite c = false := by
  simp only [opensAt, Bool.or_eq_true, beq_iff_eq] at opens
  rcases opens with found | found
  · exact ⟨_, found, by decide, rfl, by decide⟩
  · exact ⟨_, found, by decide, rfl, by decide⟩

theorem headerBetween?_eq_none_iff :
    headerBetween? text start stop = none ↔
      ∀ i, start ≤ i → i < stop → isHeaderAt text i = false := by
  simp only [headerBetween?, List.find?_eq_none, List.mem_range'_1, Bool.not_eq_true]
  constructor
  · intro none i after before
    exact none i ⟨after, by omega⟩
  · rintro none i ⟨after, before⟩
    exact none i after (by omega)

/-- The first place that looks like a header. -/
theorem headerBetween?_eq_some_iff {found : Nat} :
    headerBetween? text start stop = some found ↔
      start ≤ found ∧ found < stop ∧ isHeaderAt text found = true ∧
        ∀ i, start ≤ i → i < found → isHeaderAt text i = false := by
  simp only [headerBetween?, List.find?_eq_some_iff_getElem, List.length_range', List.getElem_range',
    Nat.one_mul, Bool.not_eq_eq_eq_not, Bool.not_true]
  constructor
  · rintro ⟨header, i, inside, rfl, before⟩
    refine ⟨Nat.le_add_right _ _, by omega, header, fun j after earlier => ?_⟩
    obtain ⟨k, rfl⟩ := Nat.exists_eq_add_of_le after
    exact before k (by omega)
  · rintro ⟨after, inside, header, before⟩
    obtain ⟨i, rfl⟩ := Nat.exists_eq_add_of_le after
    exact ⟨header, i, by omega, rfl, fun j earlier => before _ (Nat.le_add_right _ _) (by omega)⟩

namespace Heads

/-- Between the line of the header and the mark nothing is written. -/
theorem unwritten (heads : Heads text header mark) {c : Char} (after : lineEnd text header ≤ place)
    (before : place < mark) (found : text[place]? = some c) : c = ' ' ∨ isBreak c = true := by
  simpa using Span.all_slice_iff.1 heads.blank place c after before found

theorem header_lt (heads : Heads text header mark) : header < lineEnd text header := by
  obtain ⟨c, here, -, plain, -⟩ := exists_of_opens heads.opens
  obtain ⟨b, ends, broken⟩ := exists_break_lineEnd (Nat.lt_of_lt_of_le heads.below heads.inside)
  apply Nat.lt_of_le_of_ne (le_lineEnd text header)
  intro same
  rw [← same, here] at ends
  cases ends
  rw [broken] at plain
  cases plain

theorem lt_mark (heads : Heads text header mark) : header < mark :=
  Nat.lt_trans heads.header_lt heads.below

/-- Nothing below the line of the header looks like one, up to the mark. -/
theorem isHeaderAt_eq_false (heads : Heads text header mark) (after : lineEnd text header ≤ place)
    (before : place < mark) : isHeaderAt text place = false := by
  by_contra header
  obtain ⟨c, found, space, plain, -⟩ := exists_of_opens (opensAt_of_isHeaderAt (by simpa using header))
  rcases heads.unwritten after before found with blank | broken
  · exact space blank
  · rw [broken] at plain
    cases plain

/-- The line above one that starts below the line of the header ends there at the earliest. -/
theorem le_lineAboveEnd (heads : Heads text header mark) (below : lineEnd text header < start) :
    lineEnd text header ≤ lineAboveEnd text start ∧ lineAboveEnd text start < start := by
  simp only [lineAboveEnd]
  split
  · next pair =>
      simp only [Bool.and_eq_true, decide_eq_true_eq, beq_iff_eq] at pair
      refine ⟨Nat.le_of_not_lt fun early => ?_, by omega⟩
      -- The carriage return would stand on the line of the header.
      have after : header ≤ start - 1 - 1 := by
        have line := heads.header_lt
        omega
      cases isBreak_of_lt_lineEnd after early pair.2
  · omega

/-- From the mark the search comes to the line of the header. -/
theorem headerAbove?_eq (heads : Heads text header mark) {fuel : Nat} (enough : stop < fuel)
    (after : lineEnd text header ≤ stop) (before : stop ≤ mark) :
    headerAbove? text fuel stop =
      headerBetween? text (lineStartBefore text header) (lineEnd text header) := by
  have inside := Nat.le_trans before heads.inside
  induction fuel generalizing stop with
  | zero => cases enough
  | succ fuel ih =>
      rw [headerAbove?]
      rcases Nat.eq_or_lt_of_le after with rfl | below
      · -- The line of the header is not blank, so the search ends there.
        have line : lineStartBefore text (lineEnd text header) = lineStartBefore text header :=
          lineStartBefore_eq (le_lineEnd text header) inside
            fun i c after before found => isBreak_of_lt_lineEnd after before found
        have written : (Span.slice ⟨lineStartBefore text header, lineEnd text header⟩ text).all
            Text.isWhite = false := by
          obtain ⟨c, here, -, -, shown⟩ := exists_of_opens heads.opens
          by_contra all
          have white := Span.all_slice_iff.1 (by simpa using all) header c
            (lineStartBefore_le text header) heads.header_lt here
          rw [shown] at white
          cases white
        simp only [line, written]
        split
        · next found => exact found.symm
        · next none => simp [none]
      · -- A line below it is blank.
        obtain ⟨b, ends, broken⟩ :=
          exists_break_lineEnd (Nat.lt_of_lt_of_le heads.below heads.inside)
        have start := lt_lineStartBefore ends broken below inside
        have above := lineStartBefore_le text stop
        have none : headerBetween? text (lineStartBefore text stop) stop = none :=
          headerBetween?_eq_none_iff.2 fun i after earlier =>
            heads.isHeaderAt_eq_false (by omega) (by omega)
        have white : (Span.slice ⟨lineStartBefore text stop, stop⟩ text).all Text.isWhite = true := by
          rw [Span.all_slice_iff]
          intro i c after earlier found
          rcases heads.unwritten (by omega) (by omega) found with rfl | broken
          · decide
          · exact isWhite_of_isBreak broken
        obtain ⟨next, earlier⟩ := heads.le_lineAboveEnd start
        simp only [none, white]
        rw [if_neg (by simp; omega)]
        exact ih (by omega) next (by omega) (by omega)

/-- Where a block scalar is found to start. -/
theorem blockStart_eq (heads : Heads text header mark) :
    blockStart text mark = taken text header mark := by
  rw [blockStart, taken, heads.headerAbove?_eq (Nat.lt_succ_self mark) (Nat.le_of_lt heads.below)
    (Nat.le_refl mark)]

/-- A block scalar starts at its header just if nothing else looks like it. -/
theorem taken_eq_iff (heads : Heads text header mark) :
    taken text header mark = header ↔ Unmistaken text header mark := by
  have apart := heads.lt_mark
  have line := lineStartBefore_le text header
  rw [taken]
  constructor
  · intro same
    split at same
    · omega
    · next content =>
        cases between : headerBetween? text (lineStartBefore text header) (lineEnd text header) with
        | none =>
            rw [between, Option.getD_none] at same
            omega
        | some found =>
            rw [between, Option.getD_some] at same
            subst same
            obtain ⟨-, -, itself, before⟩ := headerBetween?_eq_some_iff.1 between
            exact ⟨itself, by simpa using content, before⟩
  · intro unmistaken
    have between : headerBetween? text (lineStartBefore text header) (lineEnd text header) =
        some header :=
      headerBetween?_eq_some_iff.2 ⟨line, heads.header_lt, unmistaken.itself, unmistaken.before⟩
    rw [if_neg (by simp [unmistaken.content]), between, Option.getD_some]

end Heads

end Extent

end WorkflowScope
