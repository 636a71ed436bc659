import WorkflowScope.Proofs.Tree.Scanning

/-!
# Where a block scalar ends

A block scalar ends with its last line that counts. Blank lines do not count, nor do comments that
stand further out than the first line that is not blank. Lines are told here by their places in the
text, so that what is left behind the end can be said without the loop that finds it.
-/

namespace WorkflowScope

namespace Span

variable {text : List Char} {start stop : Nat}

theorem mem_slice_iff {c : Char} :
    c ∈ slice ⟨start, stop⟩ text ↔ ∃ i, start ≤ i ∧ i < stop ∧ text[i]? = some c := by
  have all := @all_slice_iff text start stop (· != c)
  have absent : (slice ⟨start, stop⟩ text).all (· != c) = true ↔ c ∉ slice ⟨start, stop⟩ text := by
    simp only [List.all_eq_true, bne_iff_ne]
    exact ⟨fun other member => other c member rfl,
      fun missing d member same => missing (same ▸ member)⟩
  rw [← not_iff_not, ← absent, all]
  simp only [bne_iff_ne, not_exists, not_and]
  constructor
  · exact fun other i after before found => other i c after before found rfl
  · exact fun missing i d after before found same => missing i after before (same ▸ found)

end Span

/-- A line of the text between `start` and `limit`, without its line feed. -/
structure IsLine (text : List Char) (start limit : Nat) (line : Span) : Prop where
  begins : line.start = start ∨ (start < line.start ∧ text[line.start - 1]? = some '\n')
  ends : line.stop = limit ∨ (line.stop < limit ∧ text[line.stop]? = some '\n')
  forward : line.start ≤ line.stop
  plain : '\n' ∉ line.slice text

namespace IsLine

variable {text : List Char} {start limit : Nat} {line : Span}

theorem le_start (here : IsLine text start limit line) : start ≤ line.start := by
  rcases here.begins with same | later <;> omega

theorem stop_le (here : IsLine text start limit line) : line.stop ≤ limit := by
  rcases here.ends with same | earlier <;> omega

/-- A line feed does not stand on a line. -/
theorem not_feed (here : IsLine text start limit line) {i : Nat} (after : line.start ≤ i)
    (before : i < line.stop) : text[i]? ≠ some '\n' :=
  fun feed => here.plain (Span.mem_slice_iff.2 ⟨i, after, before, feed⟩)

/-- A line that ends before a place on another line ends before that line begins. -/
theorem stop_lt_start {place : Nat} {other : Span} (here : IsLine text start limit line)
    (there : IsLine text start limit other) (on : place < line.stop) (past : other.stop ≤ place) :
    other.stop < line.start := by
  rcases there.ends with whole | ⟨_, feed⟩
  · have upTo := here.stop_le
    omega
  · exact Nat.lt_of_not_le fun behind =>
      here.not_feed behind (Nat.lt_of_le_of_lt past on) feed

/-- A line that begins no later than the first one ends is the first one. -/
theorem eq_of_start_le {first : Nat} (here : IsLine text start limit line)
    (front : IsLine text start limit ⟨start, first⟩) (early : line.start ≤ first) :
    line = ⟨start, first⟩ := by
  have same : line.start = start := by
    rcases here.begins with same | ⟨later, feed⟩
    · exact same
    · exact absurd feed
        (front.not_feed (i := line.start - 1) (by simp only; omega) (by simp only; omega))
  have upTo := here.stop_le
  have front_le : first ≤ limit := front.stop_le
  have behind : first ≤ line.stop := by
    rcases here.ends with whole | ⟨_, feed⟩
    · omega
    · have forward := here.forward
      exact Nat.le_of_not_lt fun before => front.not_feed (by simp only; omega) before feed
  have before : line.stop ≤ first := by
    rcases front.ends with whole | ⟨_, feed⟩
    · simp only at whole
      omega
    · exact Nat.le_of_not_lt fun past => here.not_feed early past feed
  obtain ⟨lineStart, lineStop⟩ := line
  simp only at same behind before ⊢
  obtain rfl := same
  rw [Nat.le_antisymm before behind]

end IsLine

namespace Extent

open Text (isWhite splitLines)
open Guarded (firstOf firstIn linesFrom)

variable {text : List Char} {start limit : Nat} {line : Span}

/-! ## Lines by their places -/

/-- The first of some offsets at which a character has a property: no character before it has it. -/
theorem firstOf_spec {p : Char → Bool} {count offset found : Nat}
    (first : firstOf text p count offset = some found) :
    offset ≤ found ∧ found ≤ offset + count ∧
      (∀ i c, offset ≤ i → i < found → text[i]? = some c → p c = false) ∧
      (found < offset + count → ∃ c, text[found]? = some c ∧ p c = true) := by
  induction count generalizing offset with
  | zero =>
      cases first
      exact ⟨Nat.le_refl _, Nat.le_refl _, fun i _ after before => by omega, fun past => by omega⟩
  | succ count ih =>
      rw [firstOf] at first
      obtain ⟨c, here, first⟩ := Option.bind_eq_some_iff.1 first
      cases holds : p c with
      | true =>
          rw [holds, if_pos rfl] at first
          cases first
          exact ⟨Nat.le_refl _, by omega, fun i _ after before => by omega,
            fun _ => ⟨c, here, holds⟩⟩
      | false =>
          rw [holds, if_neg Bool.false_ne_true] at first
          obtain ⟨after, upTo, none, there⟩ := ih first
          refine ⟨by omega, by omega, fun i d behind before found => ?_,
          fun past => there (by omega)⟩
          rcases Nat.eq_or_lt_of_le behind with rfl | later
          · rw [here] at found
            cases found
            exact holds
          · exact none i d later before found

theorem isLine_of_firstIn {found : Nat} (ordered : start ≤ limit)
    (first : firstIn text (· == '\n') start limit = some found) :
    IsLine text start limit ⟨start, found⟩ := by
  obtain ⟨after, upTo, none, there⟩ := firstOf_spec first
  refine ⟨.inl rfl, ?_, after, fun feed => ?_⟩
  · rcases Nat.eq_or_lt_of_le (show found ≤ limit by omega) with whole | past
    · exact .inl whole
    · obtain ⟨c, found, feed⟩ := there (by omega)
      exact .inr ⟨past, by rw [found, beq_iff_eq.1 feed]⟩
  · obtain ⟨i, behind, before, found⟩ := Span.mem_slice_iff.1 feed
    exact absurd (none i '\n' behind before found) (by decide)

/-- The first line of a stretch of text, and the lines behind it. -/
theorem exists_first_line (ordered : start ≤ limit) (inside : limit ≤ text.length) :
    ∃ stop, IsLine text start limit ⟨start, stop⟩ ∧
      linesFrom text start limit =
        Span.slice ⟨start, stop⟩ text :: linesFrom text (stop + 1) limit := by
  rcases Nat.eq_or_lt_of_le ordered with rfl | before
  · refine ⟨start, ⟨.inl rfl, .inl rfl, Nat.le_refl _, by simp [Span.slice_self]⟩, ?_⟩
    rw [Guarded.linesFrom_eq (Nat.le_refl _), Span.slice_self, splitLines, linesFrom,
      if_neg (Nat.not_succ_le_self _)]
  · obtain ⟨stop, -, -, first, lines⟩ := Guarded.exists_line before inside
    exact ⟨stop, isLine_of_firstIn ordered first, lines⟩

/-- A line is the first one, or one of those behind it. -/
theorem isLine_iff {stop : Nat} (front : IsLine text start limit ⟨start, stop⟩) :
    IsLine text start limit line ↔ line = ⟨start, stop⟩ ∨ IsLine text (stop + 1) limit line := by
  have forward : start ≤ stop := front.forward
  constructor
  · intro here
    by_cases early : line.start ≤ stop
    · exact .inl (here.eq_of_start_le front early)
    · refine .inr ⟨?_, here.ends, here.forward, here.plain⟩
      rcases here.begins with same | ⟨_, feed⟩
      · omega
      · by_cases next : line.start = stop + 1
        · exact .inl next
        · exact .inr ⟨by omega, feed⟩
  · rintro (rfl | here)
    · exact front
    · have past := here.le_start
      have upTo := here.stop_le
      have along := here.forward
      refine ⟨.inr ⟨by omega, ?_⟩, here.ends, here.forward, here.plain⟩
      rcases here.begins with next | ⟨_, feed⟩
      · rcases front.ends with whole | ⟨_, feed⟩
        · simp only at whole
          omega
        · rw [next]
          exact feed
      · exact feed

/-- Every character that is no line feed stands on a line. -/
theorem exists_isLine {c : Char} {place : Nat} (inside : limit ≤ text.length) (start : Nat)
    (after : start ≤ place) (before : place < limit) (found : text[place]? = some c)
    (plain : c ≠ '\n') : ∃ line, IsLine text start limit line ∧ line.start ≤ place ∧
      place < line.stop := by
  obtain ⟨stop, front, -⟩ :=
    exists_first_line (Nat.le_of_lt (Nat.lt_of_le_of_lt after before)) inside
  have forward : start ≤ stop := front.forward
  rcases Nat.lt_trichotomy place stop with on | rfl | past
  · exact ⟨_, front, after, on⟩
  · rcases front.ends with whole | ⟨_, feed⟩
    · exact absurd whole (Nat.ne_of_lt before)
    · rw [found] at feed
      exact absurd (Option.some.inj feed) plain
  · obtain ⟨line, here, begins, ends⟩ := exists_isLine inside (stop + 1) past before found plain
    exact ⟨line, (isLine_iff front).2 (.inr here), begins, ends⟩
termination_by limit - start

/-! ## Lines that do not count -/

def indentation (text : List Char) (line : Span) : Nat :=
  ((line.slice text).takeWhile (· == ' ')).length

def IsBlank (text : List Char) (line : Span) : Prop :=
  (line.slice text).all isWhite = true

def IsComment (text : List Char) (line : Span) : Prop :=
  ((line.slice text).drop (indentation text line)).head? = some '#'

instance (text : List Char) (line : Span) : Decidable (IsBlank text line) :=
  inferInstanceAs (Decidable (_ = true))

instance (text : List Char) (line : Span) : Decidable (IsComment text line) :=
  inferInstanceAs (Decidable (_ = some '#'))

structure IsFirstWritten (text : List Char) (start limit : Nat) (line : Span) : Prop where
  isLine : IsLine text start limit line
  written : ¬ IsBlank text line
  before : ∀ other, IsLine text start limit other → other.start < line.start → IsBlank text other

/-- A comment that stands further out than the first line that is not blank. -/
def IsOuterComment (text : List Char) (start limit : Nat) (line : Span) : Prop :=
  IsComment text line ∧
    ∃ first, IsFirstWritten text start limit first ∧ indentation text line < indentation text first

/-- Lines that do not count if `least` spaces are asked for. -/
def Skipped (text : List Char) (least : Nat) (line : Span) : Prop :=
  IsBlank text line ∨ (IsComment text line ∧ indentation text line < least)

/-- The place behind a line, its line feed included. -/
def behindLine (limit : Nat) (line : Span) : Nat :=
  min (line.stop + 1) limit

/-- Of the lines between `start` and `limit` all that begin at `stop` or behind are skipped. The one
that ends there is not; where all are skipped, `stop` is the place that was given. -/
structure Ends (text : List Char) (start limit : Nat) (skips : Span → Prop) (given stop : Nat) :
    Prop where
  behind : ∀ line, IsLine text start limit line → stop ≤ line.start → skips line
  last : (stop = given ∧ ∀ line, IsLine text start limit line → skips line) ∨
    ∃ line, IsLine text start limit line ∧ ¬ skips line ∧ behindLine limit line = stop

theorem Ends.imp {skips other : Span → Prop} {given stop : Nat}
    (ends : Ends text start limit skips given stop)
    (same : ∀ line, IsLine text start limit line → (skips line ↔ other line)) :
    Ends text start limit other given stop where
  behind line here after := (same line here).1 (ends.behind line here after)
  last := ends.last.imp (fun all => ⟨all.1, fun line here => (same line here).1 (all.2 line here)⟩)
    fun ⟨line, here, kept, place⟩ => ⟨line, here, mt (same line here).2 kept, place⟩

section

variable {skips : Span → Prop} {given stop last : Nat}

theorem Ends.le_max (ends : Ends text start limit skips given stop) : stop ≤ max given limit := by
  rcases ends.last with ⟨same, -⟩ | ⟨line, -, -, same⟩
  · omega
  · simp only [behindLine] at same
    omega

/-- A line that counts does not stand behind the end. -/
theorem Ends.lt_of_not_skips {place : Nat} (ends : Ends text start limit skips given stop)
    (here : IsLine text start limit line) (early : given ≤ line.start) (on : place < line.stop)
    (kept : ¬ skips line) : place < stop := by
  refine Nat.lt_of_not_le fun past => kept (ends.behind line here ?_)
  rcases ends.last with ⟨rfl, -⟩ | ⟨other, there, -, same⟩
  · exact early
  · have upTo := here.stop_le
    have before := here.stop_lt_start there on (by simp only [behindLine] at same; omega)
    simp only [behindLine] at same
    omega

theorem Ends.none (empty : ∀ line, ¬ IsLine text start limit line) :
    Ends text start limit skips given given where
  behind line here := absurd here (empty line)
  last := .inl ⟨rfl, fun line here => absurd here (empty line)⟩

/-- A first line that is skipped leaves the end where it is. -/
theorem Ends.skip (front : IsLine text start limit ⟨start, stop⟩) (skipped : skips ⟨start, stop⟩)
    (rest : Ends text (stop + 1) limit skips given last) :
    Ends text start limit skips given last where
  behind line here after := by
    rcases (isLine_iff front).1 here with rfl | later
    · exact skipped
    · exact rest.behind line later after
  last := by
    rcases rest.last with ⟨same, all⟩ | ⟨line, later, kept, place⟩
    · refine .inl ⟨same, fun line here => ?_⟩
      rcases (isLine_iff front).1 here with rfl | later
      · exact skipped
      · exact all line later
    · exact .inr ⟨line, (isLine_iff front).2 (.inr later), kept, place⟩

/-- A first line that counts moves the end behind it. -/
theorem Ends.keep (front : IsLine text start limit ⟨start, stop⟩) (written : start < stop)
    (kept : ¬ skips ⟨start, stop⟩)
    (rest : Ends text (stop + 1) limit skips (behindLine limit ⟨start, stop⟩) last) :
    Ends text start limit skips given last where
  behind line here after := by
    rcases (isLine_iff front).1 here with rfl | later
    · -- The end stands behind the first line.
      have upTo : stop ≤ limit := front.stop_le
      have past : start < last := by
        rcases rest.last with ⟨same, -⟩ | ⟨other, later, -, place⟩
        · simp only [behindLine] at same
          omega
        · have begins := later.le_start
          have along := later.forward
          have most := later.stop_le
          simp only [behindLine] at place
          omega
      simp only at after
      omega
    · exact rest.behind line later after
  last := by
    rcases rest.last with ⟨same, -⟩ | ⟨line, later, kept, place⟩
    · exact .inr ⟨_, front, kept, same.symm⟩
    · exact .inr ⟨line, (isLine_iff front).2 (.inr later), kept, place⟩

end

/-! ## The loop over the lines -/

/-- The spaces in front of a line do not make it blank or keep it from being so. -/
theorem all_isWhite_drop (line : List Char) :
    (line.drop (line.takeWhile (· == ' ')).length).all isWhite = line.all isWhite := by
  induction line with
  | nil => rfl
  | cons c rest ih =>
      by_cases space : c = ' '
      · simpa [space, Text.isWhite_space] using ih
      · simp [space]

theorem not_isBlank_forward (written : ¬ IsBlank text line) : line.start < line.stop := by
  apply Nat.lt_of_not_le
  intro reversed
  apply written
  simp [IsBlank, Span.slice, Span.length, Nat.sub_eq_zero_of_le reversed]

/-- One line of the loop. -/
theorem lastBlockLineEnd_linesFrom {stop : Nat} (found : Nat) (floor : Option Nat)
    (front : IsLine text start limit ⟨start, stop⟩) (inside : limit ≤ text.length)
    (lines : linesFrom text start limit =
      Span.slice ⟨start, stop⟩ text :: linesFrom text (stop + 1) limit) :
    lastBlockLineEnd start found floor (linesFrom text start limit) =
      if IsBlank text ⟨start, stop⟩ then
        lastBlockLineEnd (stop + 1) found floor (linesFrom text (stop + 1) limit)
      else
        let least := floor.getD (indentation text ⟨start, stop⟩)
        lastBlockLineEnd (stop + 1)
          (if IsComment text ⟨start, stop⟩ ∧ indentation text ⟨start, stop⟩ < least then found
            else behindLine limit ⟨start, stop⟩)
          (some least) (linesFrom text (stop + 1) limit) := by
  have upTo : stop ≤ limit := front.stop_le
  have forward : start ≤ stop := front.forward
  have size := @Span.length_slice start stop text (Nat.le_trans upTo inside)
  have next : start + (Span.slice ⟨start, stop⟩ text).length + 1 = stop + 1 := by omega
  have place : (if (linesFrom text (stop + 1) limit).isEmpty
      then start + (Span.slice ⟨start, stop⟩ text).length else stop + 1) =
        behindLine limit ⟨start, stop⟩ := by
    simp only [Guarded.isEmpty_linesFrom, behindLine]
    split <;> omega
  rw [lines, lastBlockLineEnd]
  simp only [next, place, all_isWhite_drop]
  refine if_congr Iff.rfl rfl ?_
  congr 1
  exact if_congr (by simp [IsComment, indentation]) rfl rfl

/-- The loop, once the indentation of the first line that is not blank is known. -/
theorem ends_of_floor (inside : limit ≤ text.length) (start least found : Nat) :
    Ends text start limit (Skipped text least) found
      (lastBlockLineEnd start found (some least) (linesFrom text start limit)) := by
  rcases Nat.lt_or_ge limit start with done | ordered
  · rw [linesFrom, if_neg (Nat.not_le.2 done), lastBlockLineEnd]
    refine .none fun line here => ?_
    have := here.le_start
    have := here.forward
    have := here.stop_le
    omega
  · obtain ⟨stop, front, lines⟩ := exists_first_line ordered inside
    have forward : start ≤ stop := front.forward
    have rest (found : Nat) := ends_of_floor inside (stop + 1) least found
    rw [lastBlockLineEnd_linesFrom found (some least) front inside lines, Option.getD_some]
    split
    · next blank => exact .skip front (.inl blank) (rest found)
    · next written =>
        simp only
        split
        · next outer => exact .skip front (.inr outer) (rest found)
        · next counts =>
            refine .keep front (not_isBlank_forward written) ?_ (rest _)
            exact fun skipped => skipped.elim written counts
termination_by limit + 1 - start

/-- Which line is the first that is not blank does not depend on blank lines in front. -/
theorem isFirstWritten_iff_of_blank {stop : Nat} (front : IsLine text start limit ⟨start, stop⟩)
    (blank : IsBlank text ⟨start, stop⟩) :
    IsFirstWritten text start limit line ↔ IsFirstWritten text (stop + 1) limit line := by
  constructor
  · intro first
    have later : IsLine text (stop + 1) limit line := by
      rcases (isLine_iff front).1 first.isLine with rfl | later
      · exact absurd blank first.written
      · exact later
    exact ⟨later, first.written,
      fun other here => first.before other ((isLine_iff front).2 (.inr here))⟩
  · intro first
    refine ⟨(isLine_iff front).2 (.inr first.isLine), first.written, fun other here earlier => ?_⟩
    rcases (isLine_iff front).1 here with rfl | later
    · exact blank
    · exact first.before other later earlier

theorem isFirstWritten_iff_of_written {stop : Nat} (front : IsLine text start limit ⟨start, stop⟩)
    (written : ¬ IsBlank text ⟨start, stop⟩) :
    IsFirstWritten text start limit line ↔ line = ⟨start, stop⟩ := by
  constructor
  · intro first
    rcases (isLine_iff front).1 first.isLine with same | later
    · exact same
    · have past := later.le_start
      have forward : start ≤ stop := front.forward
      exact absurd (first.before _ front (by simp only; omega)) written
  · rintro rfl
    refine ⟨front, written, fun other here earlier => ?_⟩
    have behind := here.le_start
    simp only at earlier
    omega

/-- The loop from the first line on. -/
theorem ends_of_start (inside : limit ≤ text.length) (start found : Nat) :
    Ends text start limit (fun line => IsBlank text line ∨ IsOuterComment text start limit line)
      found (lastBlockLineEnd start found none (linesFrom text start limit)) := by
  rcases Nat.lt_or_ge limit start with done | ordered
  · rw [linesFrom, if_neg (Nat.not_le.2 done), lastBlockLineEnd]
    refine .none fun line here => ?_
    have := here.le_start
    have := here.forward
    have := here.stop_le
    omega
  · obtain ⟨stop, front, lines⟩ := exists_first_line ordered inside
    have forward : start ≤ stop := front.forward
    rw [lastBlockLineEnd_linesFrom found none front inside lines, Option.getD_none]
    split
    · next blank =>
        have later := ends_of_start inside (stop + 1) found
        refine .skip front (.inl blank) (later.imp fun line _ => ?_)
        simp only [IsOuterComment, isFirstWritten_iff_of_blank front blank]
    · next written =>
        have outer (line : Span) : IsOuterComment text start limit line ↔ IsComment text line ∧
            indentation text line < indentation text ⟨start, stop⟩ := by
          simp only [IsOuterComment, isFirstWritten_iff_of_written front written, exists_eq_left]
        simp only [Nat.lt_irrefl, and_false, if_false]
        refine .keep front (not_isBlank_forward written) ?_
          ((ends_of_floor inside (stop + 1) _ _).imp fun line _ => ?_)
        · rw [outer]
          exact fun skipped => skipped.elim written fun comment => Nat.lt_irrefl _ comment.2
        · rw [outer]
          rfl
termination_by limit + 1 - start

/-! ## The end of a block scalar -/

theorem blockEnd_cases {mark next : Nat} (markIn : mark ≤ text.length)
    (nextIn : next ≤ text.length) :
    ∃ headerEnd, firstIn text (· == '\n') mark (max mark next) = some headerEnd ∧
      blockEnd text mark next =
        if max mark next ≤ headerEnd then max mark next
        else lastBlockLineEnd (headerEnd + 1) (headerEnd + 1) none
          (linesFrom text (headerEnd + 1) (max mark next)) := by
  have ordered := Nat.le_max_left mark next
  have limitIn := Nat.max_le.2 ⟨markIn, nextIn⟩
  have guarded := Guarded.blockEnd_eq markIn nextIn
  have first := Guarded.firstIn_eq (p := (· == '\n')) ordered limitIn
  refine ⟨_, first, ?_⟩
  rw [Guarded.blockEnd, Nat.max_comm next mark, first, Option.bind_eq_bind, Option.bind_some]
    at guarded
  split at guarded
  · next whole => rw [if_pos whole, Option.some.inj guarded]
  · next part =>
      rw [Guarded.lastBlockLineEnd_eq (by omega) limitIn] at guarded
      rw [if_neg part, Option.some.inj guarded]

/-- A block scalar that begins at `mark`, before an event at `next`, ends behind its last line that
is neither blank nor a comment further out than its first line; it ends behind its header if all of
its lines are of these kinds. -/
theorem blockEnd_spec {text : List Char} {mark next : Nat} (markIn : mark ≤ text.length)
    (nextIn : next ≤ text.length) :
    let limit := max mark next
    let stop := blockEnd text mark next
    ('\n' ∉ Span.slice ⟨mark, limit⟩ text → stop = limit) ∧
      ∀ feed, mark ≤ feed → feed < limit → text[feed]? = some '\n' →
        '\n' ∉ Span.slice ⟨mark, feed⟩ text →
          feed + 1 ≤ stop ∧ stop ≤ limit ∧ (stop = limit ∨ text[stop - 1]? = some '\n') ∧
            (∀ line, IsLine text (feed + 1) limit line → stop ≤ line.start →
              IsBlank text line ∨ IsOuterComment text (feed + 1) limit line) ∧
            (feed + 1 < stop → ∃ line, IsLine text (feed + 1) limit line ∧
              behindLine limit line = stop ∧ ¬ IsBlank text line ∧
                ¬ IsOuterComment text (feed + 1) limit line) := by
  intro limit stop
  have ordered : mark ≤ limit := Nat.le_max_left mark next
  have limitIn : limit ≤ text.length := Nat.max_le.2 ⟨markIn, nextIn⟩
  obtain ⟨headerEnd, first, found⟩ := blockEnd_cases markIn nextIn
  have header := isLine_of_firstIn ordered first
  have upTo : headerEnd ≤ limit := header.stop_le
  constructor
  · intro whole
    have all : limit ≤ headerEnd := by
      rcases header.ends with same | ⟨past, feed⟩
      · exact Nat.le_of_eq same.symm
      · exact absurd (Span.mem_slice_iff.2 ⟨headerEnd, header.forward, past, feed⟩) whole
    exact found.trans (if_pos all)
  · intro feed after before broken plain
    -- The header ends at its first line feed.
    obtain rfl : headerEnd = feed := by
      have front : IsLine text mark limit ⟨mark, feed⟩ :=
        ⟨.inl rfl, .inr ⟨before, broken⟩, after, plain⟩
      have same := header.eq_of_start_le front after
      exact congrArg Span.stop same
    have ends := ends_of_start limitIn (headerEnd + 1) (headerEnd + 1)
    rw [← (found.trans (if_neg (Nat.not_le.2 before)) : stop = _)] at ends
    have most : stop ≤ limit := Nat.le_trans ends.le_max (Nat.max_le.2 ⟨before, Nat.le_refl _⟩)
    rcases ends.last with ⟨same, -⟩ | ⟨line, here, kept, place⟩
    · have back : stop - 1 = headerEnd := by omega
      refine ⟨by omega, most, .inr ?_, ends.behind, fun past => by omega⟩
      rw [back]
      exact broken
    · have past := here.le_start
      have along := here.forward
      have upTo := here.stop_le
      have least : headerEnd + 1 ≤ stop := by
        simp only [behindLine] at place
        omega
      refine ⟨least, most, ?_, ends.behind, fun _ =>
        ⟨line, here, place, fun blank => kept (.inl blank), fun outer => kept (.inr outer)⟩⟩
      rcases here.ends with whole | ⟨within, feed⟩
      · left
        simp only [behindLine] at place
        omega
      · right
        have behind : stop = line.stop + 1 := by
          simp only [behindLine] at place
          omega
        rw [behind]
        exact feed

/-- A content line, a comment further out and a blank line, before another key. -/
def blockThenKey : List Char :=
  "|\n  a\n # b\n\nc".toList

theorem blockEnd_blockThenKey :
    0 ≤ blockThenKey.length ∧ 12 ≤ blockThenKey.length ∧ blockEnd blockThenKey 0 12 = 6 ∧
      (∀ line, IsLine blockThenKey 2 12 line → 6 ≤ line.start →
        IsBlank blockThenKey line ∨ IsOuterComment blockThenKey 2 12 line) ∧
      ∃ line, IsLine blockThenKey 2 12 line ∧ behindLine 12 line = 6 ∧
        ¬ IsBlank blockThenKey line ∧ ¬ IsOuterComment blockThenKey 2 12 line := by
  have stop : blockEnd blockThenKey 0 12 = 6 := by decide
  have spec := @blockEnd_spec blockThenKey 0 12 (by decide) (by decide)
  obtain ⟨-, -, -, behind, last⟩ := spec.2 1 (by decide) (by decide) (by decide) (by decide)
  rw [stop] at behind last
  exact ⟨by decide, by decide, stop, behind, last (by decide)⟩

end Extent

end WorkflowScope
