import Mathlib.Data.List.DropRight
import WorkflowScope.Proofs.Tree.Scanning

/-!
# Where a folded plain scalar ends

A plain scalar that does not stand in the text as it is ends with the last content before the next
event. Each line is cut into its content and the rest of it: white characters, and perhaps a
comment. The loop over the lines keeps the end of the last content, so nothing is left behind it but
lines without content. That leaves no choice: a text has at most one place where its content ends.
-/

namespace WorkflowScope

namespace Extent

open Text (isWhite splitLines joinLines)

/-! ## Lines and their content -/

/-- A `#` behind `front` begins a comment: it is the first of its line or follows a white
character. -/
def OpensComment (front : List Char) : Prop :=
  ∀ c ∈ front.getLast?, isWhite c = true

def HasComment (line : List Char) : Prop :=
  ∃ front rest, line = front ++ '#' :: rest ∧ OpensComment front

/-- Nothing stands on a line but white characters, and perhaps a comment behind them. -/
def IsVacant (line : List Char) : Prop :=
  ∃ blanks note, line = blanks ++ note ∧ (∀ c ∈ blanks, isWhite c = true) ∧
    (note = [] ∨ note.head? = some '#' ∧ OpensComment blanks)

def lineContent (line : List Char) : List Char :=
  line.take (contentLength line)

def lineRest (line : List Char) : List Char :=
  line.drop (contentLength line)

/-- Whether a `#` behind `front` begins a comment, where `apart` tells this of one before it. -/
def apartAfter (apart : Bool) (front : List Char) : Bool :=
  (front.getLast?.map isWhite).getD apart

theorem apartAfter_cons (apart : Bool) (c : Char) (front : List Char) :
    apartAfter apart (c :: front) = apartAfter (isWhite c) front := by
  rw [apartAfter, apartAfter, List.getLast?_cons]
  cases front.getLast? <;> rfl

theorem opensComment_iff {front : List Char} :
    OpensComment front ↔ apartAfter true front = true := by
  unfold OpensComment apartAfter
  cases front.getLast? <;> simp

/-- What is cut off a line as a comment is one. -/
theorem exists_note (apart : Bool) (line : List Char) :
    ∃ note, line = beforeComment apart line ++ note ∧
      (note = [] ∨ note.head? = some '#' ∧ apartAfter apart (beforeComment apart line) = true) := by
  induction line generalizing apart with
  | nil => exact ⟨[], rfl, .inl rfl⟩
  | cons c rest ih =>
      by_cases opens : c = '#' ∧ apart = true
      · refine ⟨c :: rest, ?_, .inr ⟨by rw [opens.1, List.head?_cons], ?_⟩⟩ <;>
          simp [beforeComment, apartAfter, opens]
      · obtain ⟨note, joined, ends⟩ := ih (isWhite c)
        have kept : beforeComment apart (c :: rest) = c :: beforeComment (isWhite c) rest := by
          rw [beforeComment, if_neg (by simpa using opens)]
        refine ⟨note, ?_, ?_⟩
        · rw [kept, List.cons_append, ← joined]
        · rw [kept, apartAfter_cons]
          exact ends

/-- No comment begins before the place where a line is cut. -/
theorem apartAfter_of_beforeComment {apart : Bool} {line front rest : List Char}
    (same : beforeComment apart line = front ++ '#' :: rest) : apartAfter apart front = false := by
  induction line generalizing apart front with
  | nil => simp [beforeComment] at same
  | cons c line ih =>
      by_cases opens : c = '#' ∧ apart = true
      · simp [beforeComment, opens] at same
      · rw [beforeComment, if_neg (by simpa using opens)] at same
        cases front with
        | nil =>
            obtain ⟨rfl, -⟩ := List.cons.inj same
            simpa [apartAfter] using opens
        | cons d front =>
            rw [List.cons_append, List.cons.injEq] at same
            obtain ⟨rfl, same⟩ := same
            rw [apartAfter_cons]
            exact ih same

section

variable (line : List Char)

theorem lineContent_eq : lineContent line = (beforeComment true line).rdropWhile isWhite := by
  have size : contentLength line = ((beforeComment true line).rdropWhile isWhite).length := by
    rw [contentLength, List.rdropWhile, List.length_reverse]
  have begins := (List.rdropWhile_prefix isWhite (l := beforeComment true line)).trans
    (Guarded.beforeComment_prefix true line)
  rw [lineContent, size]
  exact (List.prefix_iff_eq_take.1 begins).symm

theorem length_lineContent : (lineContent line).length = contentLength line := by
  rw [lineContent_eq, contentLength, List.rdropWhile, List.length_reverse]

theorem lineContent_append_lineRest : lineContent line ++ lineRest line = line :=
  List.take_append_drop _ _

theorem isWhite_last_lineContent : ∀ c ∈ (lineContent line).getLast?, isWhite c = false := by
  intro c last
  rw [lineContent_eq] at last
  obtain ⟨written, rfl⟩ := List.mem_getLast?_eq_getLast last
  simpa using List.rdropWhile_last_not isWhite _ written

theorem not_hasComment_lineContent : ¬ HasComment (lineContent line) := by
  rintro ⟨front, rest, same, opens⟩
  obtain ⟨more, joined⟩ := List.rdropWhile_prefix isWhite (l := beforeComment true line)
  rw [← lineContent_eq, same, List.append_assoc, List.cons_append] at joined
  rw [opensComment_iff, apartAfter_of_beforeComment joined.symm] at opens
  cases opens

/-- Behind the content of a line stand white characters, and then its comment. -/
theorem exists_lineRest :
    ∃ blanks note, lineRest line = blanks ++ note ∧ (∀ c ∈ blanks, isWhite c = true) ∧
      (note = [] ∨ note.head? = some '#' ∧ OpensComment (lineContent line ++ blanks)) := by
  obtain ⟨note, joined, ends⟩ := exists_note true line
  have parts : lineContent line ++ (beforeComment true line).rtakeWhile isWhite =
      beforeComment true line := by
    rw [lineContent_eq, List.rdropWhile_append_rtakeWhile]
  refine ⟨(beforeComment true line).rtakeWhile isWhite, note, ?_,
    fun c => List.mem_rtakeWhile_imp, ?_⟩
  · rw [← List.append_right_inj (lineContent line), lineContent_append_lineRest,
      ← List.append_assoc, parts]
    exact joined
  · rw [parts, opensComment_iff]
    exact ends

theorem isVacant_lineRest : IsVacant (lineRest line) := by
  obtain ⟨blanks, note, joined, blank, ends⟩ := exists_lineRest line
  exact ⟨blanks, note, joined, blank,
    ends.imp_right fun hash => ⟨hash.1, fun c last => blank c (List.mem_of_getLast? last)⟩⟩

/-- No comment follows the content without a white character in between. -/
theorem isWhite_head_lineRest (written : lineContent line ≠ []) :
    ∀ c ∈ (lineRest line).head?, isWhite c = true := by
  intro c first
  obtain ⟨blanks, note, joined, blank, ends⟩ := exists_lineRest line
  rw [joined] at first
  cases blanks with
  | cons d more =>
      cases first
      exact blank c List.mem_cons_self
  | nil =>
      rcases ends with rfl | ⟨-, opens⟩
      · cases first
      · have last := List.getLast?_eq_some_getLast written
        have white := opens _ (by rw [List.append_nil]; exact last)
        rw [isWhite_last_lineContent line _ last] at white
        cases white

theorem isVacant_of_contentLength (none : contentLength line = 0) : IsVacant line := by
  have vacant := isVacant_lineRest line
  rwa [lineRest, none, List.drop_zero] at vacant

end

theorem contentLength_pos {c : Char} (written : isWhite c = false) (uncommented : c ≠ '#')
    (rest : List Char) : 0 < contentLength (c :: rest) := by
  rw [← length_lineContent, List.length_pos_iff, lineContent_eq, Ne, List.rdropWhile_eq_nil_iff]
  intro blank
  have white := blank c (by simp [beforeComment, uncommented])
  rw [written] at white
  cases white

/-! ## The loop over the lines -/

/-- The loop finds the end of the last line that has content. -/
theorem lastContentEnd_cases (lines : List (List Char)) (offset found : Nat) :
    ((∀ line ∈ lines, contentLength line = 0) ∧ lastContentEnd offset found lines = found) ∨
      ∃ front line back, lines = front ++ line :: back ∧ 0 < contentLength line ∧
        (∀ later ∈ back, contentLength later = 0) ∧
        lastContentEnd offset found lines =
          offset + (joinLines (front ++ [lineContent line])).length := by
  induction lines generalizing offset found with
  | nil => exact .inl ⟨by simp, rfl⟩
  | cons line rest ih =>
      rw [lastContentEnd]
      rcases ih (offset + line.length + 1)
        (if 0 < contentLength line then offset + contentLength line else found) with
        ⟨none, same⟩ | ⟨front, last, back, rfl, written, none, same⟩
      · simp only [same]
        by_cases written : 0 < contentLength line
        · refine .inr ⟨[], line, rest, rfl, written, none, ?_⟩
          rw [if_pos written, List.nil_append, joinLines, length_lineContent]
        · refine .inl ⟨fun other member => ?_, if_neg written⟩
          rcases List.mem_cons.1 member with rfl | later
          · exact Nat.eq_zero_of_not_pos written
          · exact none other later
      · refine .inr ⟨line :: front, last, back, rfl, written, none, ?_⟩
        rw [List.cons_append, Text.joinLines_cons_of_ne_nil line (by simp), List.length_append,
          List.length_cons]
        simp only [same]
        omega

/-! ## The end of the content -/

/-- The content of a text ends between `reached` and `left`: what stands before the end is neither
white nor part of a comment, and behind it there are only white characters and comments. -/
structure EndsContent (reached left : List Char) : Prop where
  written : ∃ c ∈ reached.getLast?, isWhite c = false
  uncommented : ∀ line ∈ (splitLines reached).getLast?, ¬ HasComment line
  apart : ∀ c ∈ left.head?, isWhite c = true
  vacant : ∀ line ∈ splitLines left, IsVacant line

/-- The last character of a text is content: neither white nor part of a comment. -/
structure EndsOnContent (reached : List Char) : Prop where
  written : ∃ c ∈ reached.getLast?, isWhite c = false
  uncommented : ∀ line ∈ (splitLines reached).getLast?, ¬ HasComment line

theorem EndsContent.endsOnContent {reached left : List Char} (ends : EndsContent reached left) :
    EndsOnContent reached :=
  ⟨ends.written, ends.uncommented⟩

/-- The end of the content on the last line that has some. -/
theorem endsContent_joinLines {front back : List (List Char)} {line : List Char}
    (plain : ∀ other ∈ front ++ line :: back, '\n' ∉ other) (full : 0 < contentLength line)
    (none : ∀ later ∈ back, contentLength later = 0) :
    EndsContent (joinLines (front ++ [lineContent line])) (joinLines (lineRest line :: back)) := by
  have some_content : lineContent line ≠ [] := by
    rwa [← List.length_pos_iff, length_lineContent]
  have own := plain line (by simp)
  rw [← lineContent_append_lineRest line, List.mem_append, not_or] at own
  have reachedLines : splitLines (joinLines (front ++ [lineContent line])) =
      front ++ [lineContent line] := by
    refine Text.splitLines_joinLines (by simp) fun other member => ?_
    rcases List.mem_append.1 member with earlier | last
    · exact plain other (List.mem_append_left _ earlier)
    · rw [List.mem_singleton.1 last]
      exact own.1
  have leftLines : splitLines (joinLines (lineRest line :: back)) = lineRest line :: back := by
    refine Text.splitLines_joinLines (by simp) fun other member => ?_
    rcases List.mem_cons.1 member with rfl | later
    · exact own.2
    · exact plain other (by simp [later])
  constructor
  case written =>
    have last := List.getLast?_eq_some_getLast some_content
    refine ⟨_, ?_, isWhite_last_lineContent line _ last⟩
    rw [Text.getLast?_of_splitLines reachedLines some_content]
    exact last
  case uncommented =>
    rw [reachedLines, List.getLast?_concat]
    rintro _ ⟨⟩
    exact not_hasComment_lineContent line
  case apart =>
    intro c first
    rcases Text.mem_head?_joinLines first with own | rfl
    · exact isWhite_head_lineRest line some_content c own
    · exact Text.isWhite_lineFeed
  case vacant =>
    rw [leftLines]
    intro other member
    rcases List.mem_cons.1 member with rfl | later
    · exact isVacant_lineRest line
    · exact isVacant_of_contentLength other (none other later)

/-- A text in which some line has content is cut where its content ends, and the loop finds the
place. -/
theorem exists_endsContent {region : List Char}
    (full : ∃ line ∈ splitLines region, 0 < contentLength line) (offset found : Nat) :
    ∃ reached left, reached ++ left = region ∧ EndsContent reached left ∧
      lastContentEnd offset found (splitLines region) = offset + reached.length := by
  rcases lastContentEnd_cases (splitLines region) offset found with
    ⟨none, -⟩ | ⟨front, line, back, lines, full, none, same⟩
  · obtain ⟨line, member, full⟩ := full
    rw [none line member] at full
    cases full
  · refine ⟨joinLines (front ++ [lineContent line]), joinLines (lineRest line :: back),
      ?_, ?_, same⟩
    · rw [← Text.joinLines_append_cons, lineContent_append_lineRest, ← lines,
        Text.joinLines_splitLines]
    · refine endsContent_joinLines (fun other member => ?_) full none
      rw [← lines] at member
      exact Text.not_mem_of_mem_splitLines member

theorem exists_contentLength_pos {c : Char} (written : isWhite c = false) (uncommented : c ≠ '#')
    (rest : List Char) : ∃ line ∈ splitLines (c :: rest), 0 < contentLength line := by
  have feed : c ≠ '\n' := by
    rintro rfl
    rw [Text.isWhite_lineFeed] at written
    cases written
  obtain ⟨line, more, lines⟩ := List.exists_cons_of_ne_nil (Text.splitLines_ne_nil rest)
  refine ⟨c :: line, ?_, contentLength_pos written uncommented line⟩
  rw [splitLines, if_neg feed, lines]
  exact List.mem_cons_self

/-- A single character that is content. -/
theorem endsContent_singleton {c : Char} (written : isWhite c = false) (uncommented : c ≠ '#') :
    EndsContent [c] [] := by
  obtain ⟨reached, left, joined, ends, -⟩ :=
    exists_endsContent (exists_contentLength_pos written uncommented []) 0 0
  cases reached with
  | nil =>
      obtain ⟨d, last, -⟩ := ends.written
      cases last
  | cons d more =>
      obtain ⟨rfl, none⟩ := List.cons.inj joined
      obtain ⟨rfl, rfl⟩ := List.append_eq_nil_iff.1 none
      exact ends

/-- What is written on a line that is otherwise vacant belongs to its comment. -/
theorem IsVacant.exists_hash {line rest : List Char} {c : Char} (vacant : IsVacant (line ++ rest))
    (last : c ∈ line.getLast?) (written : isWhite c = false) :
    ∃ blanks note, line = blanks ++ '#' :: note ∧ ∀ d ∈ blanks, isWhite d = true := by
  obtain ⟨blanks, note, joined, blank, ends⟩ := vacant
  have solid (part : List Char) (all : ∀ d ∈ part, isWhite d = true) : ¬ line <+: part := by
    intro begins
    have white := all c (begins.mem (List.mem_of_getLast? last))
    rw [written] at white
    cases white
  rcases List.append_eq_append_iff.1 joined with ⟨more, rfl, -⟩ | ⟨more, rfl, rfl⟩
  · exact absurd (List.prefix_append _ _) (solid _ blank)
  · cases more with
    | nil =>
        rw [List.append_nil] at solid
        exact absurd (List.prefix_refl _) (solid _ blank)
    | cons d note =>
        rcases ends with none | ⟨hash, -⟩
        · cases none
        · cases hash
          exact ⟨blanks, note, rfl, blank⟩

theorem opensComment_append (front : List Char) {blanks : List Char}
    (blank : ∀ c ∈ blanks, isWhite c = true) (some_blank : front = [] ∨ blanks ≠ []) :
    OpensComment (front ++ blanks) := by
  intro c last
  rcases some_blank with rfl | some_blank
  · exact blank c (List.mem_of_getLast? last)
  · rw [List.getLast?_append_of_ne_nil _ some_blank] at last
    exact blank c (List.mem_of_getLast? last)

theorem EndsOnContent.not_hasComment {reached last : List Char} {front : List (List Char)}
    (content : EndsOnContent reached) (lines : splitLines reached = front ++ [last]) :
    ¬ HasComment last :=
  content.uncommented last (by rw [lines, List.getLast?_concat]; rfl)

/-- What is written at the end of a text stands on its last line. -/
theorem mem_getLast?_line {text last : List Char} {front : List (List Char)} {c : Char}
    (lines : splitLines text = front ++ [last]) (final : c ∈ text.getLast?)
    (written : isWhite c = false) : c ∈ last.getLast? := by
  have some_last : last ≠ [] := by
    rintro rfl
    have feed := (Text.getLast?_splitLines_eq_nil_iff text).1
      (by rw [lines, List.getLast?_concat])
    rcases feed with rfl | feed
    · cases final
    · rw [feed] at final
      cases final
      rw [Text.isWhite_lineFeed] at written
      cases written
  rwa [← Text.getLast?_of_splitLines lines some_last]

/-- Behind the end of the content there is none. -/
theorem EndsContent.eq_nil {reached more left : List Char}
    (ends : EndsContent reached (more ++ left)) (later : EndsOnContent (reached ++ more)) :
    more = [] := by
  by_contra some_more
  obtain ⟨c, last, written⟩ := later.written
  rw [List.getLast?_append_of_ne_nil _ some_more] at last
  obtain ⟨before, own, ownLines⟩ := Text.exists_splitLines_concat more
  obtain ⟨front, here, hereLines⟩ := Text.exists_splitLines_concat reached
  obtain ⟨first, back, leftLines⟩ :=
    List.exists_cons_of_ne_nil (Text.splitLines_ne_nil left)
  replace last := mem_getLast?_line ownLines last written
  -- What is written on the last line of `more` is in a comment behind the first end.
  have vacant : IsVacant (own ++ first) :=
    ends.vacant _ (by rw [Text.splitLines_append ownLines leftLines]; simp)
  obtain ⟨blanks, note, rfl, blank⟩ := vacant.exists_hash last written
  -- So the last line before the second end has a comment.
  cases before with
  | nil =>
      have whole := Text.joinLines_splitLines more
      rw [ownLines, List.nil_append, joinLines] at whole
      have some_blank : blanks ≠ [] := by
        rintro rfl
        have white := ends.apart '#' (by rw [← whole]; rfl)
        cases white
      refine later.not_hasComment (Text.splitLines_append hereLines ownLines)
        ⟨here ++ blanks, note, by rw [List.append_assoc], ?_⟩
      exact opensComment_append here blank (.inr some_blank)
  | cons line before =>
      have lines : splitLines (reached ++ more) =
          (front ++ (here ++ line) :: before) ++ [blanks ++ '#' :: note] := by
        rw [List.cons_append] at ownLines
        rw [Text.splitLines_append hereLines ownLines, List.append_assoc, List.cons_append]
      exact later.not_hasComment lines ⟨blanks, note, rfl, opensComment_append [] blank (.inl rfl)⟩

/-- Content ends in one place. -/
theorem EndsContent.unique {reached left other rest : List Char} (ends : EndsContent reached left)
    (again : EndsContent other rest) (same : reached ++ left = other ++ rest) :
    reached = other := by
  rcases List.append_eq_append_iff.1 same with ⟨more, rfl, rfl⟩ | ⟨more, rfl, rfl⟩
  · rw [ends.eq_nil again.endsOnContent, List.append_nil]
  · rw [again.eq_nil ends.endsOnContent, List.append_nil]

/-- A text with content somewhere has a line with content. -/
theorem EndsOnContent.exists_line {reached : List Char} (content : EndsOnContent reached)
    (left : List Char) : ∃ line ∈ splitLines (reached ++ left), 0 < contentLength line := by
  obtain ⟨c, last, written⟩ := content.written
  obtain ⟨front, here, hereLines⟩ := Text.exists_splitLines_concat reached
  obtain ⟨first, back, leftLines⟩ := List.exists_cons_of_ne_nil (Text.splitLines_ne_nil left)
  refine ⟨here ++ first, by rw [Text.splitLines_append hereLines leftLines]; simp, ?_⟩
  by_contra none
  have vacant := isVacant_of_contentLength _ (Nat.eq_zero_of_not_pos none)
  obtain ⟨blanks, note, rfl, blank⟩ :=
    vacant.exists_hash (mem_getLast?_line hereLines last written) written
  exact content.not_hasComment hereLines
    ⟨blanks, note, rfl, opensComment_append [] blank (.inl rfl)⟩

/-! ## Plain scalars -/

theorem standsVerbatim_iff {text value : List Char} {mark : Nat} :
    standsVerbatim text value mark = true ↔ '\n' ∉ value ∧ value <+: text.drop mark := by
  rw [List.prefix_iff_eq_take, eq_comm (a := value)]
  simp [standsVerbatim]

section

variable {text value : List Char} {mark next limit : Nat} {c : Char}

theorem plainEnd_of_folded (folded : ¬('\n' ∉ value ∧ value <+: text.drop mark)) :
    plainEnd text value mark next =
      min (max (lastContentEnd mark mark
        (splitLines (Span.slice ⟨mark, max mark next⟩ text))) (mark + 1)) text.length := by
  rw [← standsVerbatim_iff] at folded
  rw [plainEnd, if_neg folded, Nat.max_comm next mark]

/-- The loop over the lines between a mark and a limit ends where their content does, if they have
some. -/
theorem endsContent_lastContentEnd (inside : limit ≤ text.length)
    (full : ∃ line ∈ splitLines (Span.slice ⟨mark, limit⟩ text), 0 < contentLength line) :
    let stop := lastContentEnd mark mark (splitLines (Span.slice ⟨mark, limit⟩ text))
    mark < stop ∧ stop ≤ limit ∧
      EndsContent (Span.slice ⟨mark, stop⟩ text) (Span.slice ⟨stop, limit⟩ text) := by
  intro stop
  obtain ⟨reached, left, joined, ends, same⟩ := exists_endsContent full mark mark
  change stop = mark + reached.length at same
  have size := congrArg List.length joined
  rw [List.length_append, Span.length_slice inside] at size
  have full : 0 < reached.length := by
    obtain ⟨d, last, -⟩ := ends.written
    exact List.length_pos_of_mem (List.mem_of_getLast? last)
  refine ⟨by omega, by omega, ?_⟩
  rw [same, Span.slice_of_prefix ⟨left, joined⟩, ← Span.drop_slice, ← joined, List.drop_left]
  exact ends

theorem lastContentEnd_le (inside : limit ≤ text.length) (ordered : mark ≤ limit) :
    lastContentEnd mark mark (splitLines (Span.slice ⟨mark, limit⟩ text)) ≤ limit := by
  have size := congrArg List.length (Text.joinLines_splitLines (Span.slice ⟨mark, limit⟩ text))
  rw [Span.length_slice inside] at size
  rcases lastContentEnd_cases (splitLines (Span.slice ⟨mark, limit⟩ text)) mark mark with
    ⟨-, same⟩ | ⟨front, line, back, lines, -, -, same⟩
  · rwa [same]
  · rw [lines, ← lineContent_append_lineRest line, Text.joinLines_append_cons, List.length_append]
      at size
    omega

/-- Content in a stretch of text stands before the end that is found. -/
theorem lt_lastContentEnd {place : Nat} (inside : limit ≤ text.length) (after : mark ≤ place)
    (before : place < limit) (content : EndsOnContent (Span.slice ⟨mark, place + 1⟩ text)) :
    place < lastContentEnd mark mark (splitLines (Span.slice ⟨mark, limit⟩ text)) := by
  have full := content.exists_line (Span.slice ⟨place + 1, limit⟩ text)
  rw [Span.slice_append (Nat.le_succ_of_le after) before] at full
  obtain ⟨least, -, ends⟩ := endsContent_lastContentEnd inside full
  refine Nat.lt_of_not_le fun past => ?_
  -- If the content ended earlier, the one up to the place would be a second end.
  rw [← Span.slice_append (Nat.le_of_lt least) (Nat.le_succ_of_le past)] at content
  rw [← Span.slice_append (Nat.le_succ_of_le past) before] at ends
  have none := congrArg List.length (ends.eq_nil content)
  rw [Span.length_slice (Nat.le_trans before inside), List.length_nil] at none
  omega

/-- There is one place in a stretch of text where its content ends. -/
theorem eq_of_endsContent {stop place : Nat} (inside : limit ≤ text.length) (after : mark ≤ stop)
    (upTo : stop ≤ limit) (placeAfter : mark ≤ place) (placeUpTo : place ≤ limit)
    (ends : EndsContent (Span.slice ⟨mark, stop⟩ text) (Span.slice ⟨stop, limit⟩ text))
    (again : EndsContent (Span.slice ⟨mark, place⟩ text) (Span.slice ⟨place, limit⟩ text)) :
    place = stop := by
  have same := ends.unique again
    (by rw [Span.slice_append after upTo, Span.slice_append placeAfter placeUpTo])
  have lengths := congrArg List.length same
  rw [Span.length_slice (Nat.le_trans upTo inside),
    Span.length_slice (Nat.le_trans placeUpTo inside)] at lengths
  omega

/-- A plain scalar that does not stand in the text as it is ends in the one place where the content
before the next event does. If that event stands at the mark or before, the scalar is the character
at its mark. -/
theorem plainEnd_endsContent (found : text[mark]? = some c) (written : isWhite c = false)
    (uncommented : c ≠ '#') (nextIn : next ≤ text.length)
    (folded : ¬('\n' ∉ value ∧ value <+: text.drop mark)) :
    let limit := max mark next
    let stop := plainEnd text value mark next
    Guarded.plainEnd text value mark next = some stop ∧
      mark < stop ∧ stop ≤ text.length ∧ stop ≤ max (mark + 1) limit ∧
      EndsContent (Span.slice ⟨mark, stop⟩ text) (Span.slice ⟨stop, limit⟩ text) ∧
      ∀ place, mark ≤ place → place ≤ limit →
        EndsContent (Span.slice ⟨mark, place⟩ text) (Span.slice ⟨place, limit⟩ text) →
        place = stop := by
  intro limit stop
  have inside : mark < text.length := (List.getElem?_eq_some_iff.1 found).1
  have limitIn : limit ≤ text.length := Nat.max_le.2 ⟨Nat.le_of_lt inside, nextIn⟩
  have searched : stop = min (max (lastContentEnd mark mark
      (splitLines (Span.slice ⟨mark, limit⟩ text))) (mark + 1)) text.length :=
    plainEnd_of_folded folded
  refine ⟨Guarded.plainEnd_eq value next (Nat.le_of_lt inside) nextIn, ?_⟩
  rcases Nat.lt_or_ge mark limit with before | none
  · have full := exists_contentLength_pos written uncommented (Span.slice ⟨mark + 1, limit⟩ text)
    rw [← Span.slice_eq_cons before found] at full
    obtain ⟨after, upTo, ends⟩ := endsContent_lastContentEnd limitIn full
    have place : stop = lastContentEnd mark mark (splitLines (Span.slice ⟨mark, limit⟩ text)) := by
      omega
    rw [← place] at after upTo ends
    refine ⟨after, by omega, by omega, ends, fun other placeAfter placeUpTo again => ?_⟩
    exact eq_of_endsContent limitIn (Nat.le_of_lt after) upTo placeAfter placeUpTo ends again
  · have least : limit = mark := by omega
    have place : stop = mark + 1 := by
      rw [searched, least, Span.slice_self, splitLines, lastContentEnd, lastContentEnd,
        if_neg (by simp [contentLength, beforeComment])]
      omega
    refine ⟨by omega, by omega, by omega, ?_, fun other placeAfter placeUpTo again => ?_⟩
    · have empty : Span.slice ⟨mark + 1, mark⟩ text = [] := by simp [Span.slice, Span.length]
      rw [place, least, Span.slice_eq_cons (Nat.lt_succ_self mark) found, Span.slice_self, empty]
      exact endsContent_singleton written uncommented
    · obtain rfl : other = mark := by omega
      obtain ⟨d, last, -⟩ := again.written
      rw [Span.slice_self] at last
      cases last

end

/-- Two lines of a folded scalar with a comment, and another comment before the next key. -/
def foldedThenKey : List Char :=
  "a b\n  c # y\n\n# z\nd: e".toList

theorem plainEnd_foldedThenKey :
    foldedThenKey[0]? = some 'a' ∧ isWhite 'a' = false ∧ 'a' ≠ '#' ∧ 17 ≤ foldedThenKey.length ∧
      ¬('\n' ∉ "a b c".toList ∧ "a b c".toList <+: foldedThenKey.drop 0) ∧
      plainEnd foldedThenKey "a b c".toList 0 17 = 7 ∧
      EndsContent (Span.slice ⟨0, 7⟩ foldedThenKey) (Span.slice ⟨7, 17⟩ foldedThenKey) := by
  have folded : ¬('\n' ∉ "a b c".toList ∧ "a b c".toList <+: foldedThenKey.drop 0) := by decide
  have stop : plainEnd foldedThenKey "a b c".toList 0 17 = 7 := by decide
  obtain ⟨-, -, -, -, ends, -⟩ := @plainEnd_endsContent foldedThenKey "a b c".toList 0 17 'a'
    (by decide) (by decide) (by decide) (by decide) folded
  rw [stop] at ends
  exact ⟨by decide, by decide, by decide, by decide, folded, stop, ends⟩

end Extent

end WorkflowScope
