import WorkflowScope.Text.LineIndex

/-!
# Offsets and positions

The position of an offset and the offset of a position are two ways to name a place in a text. They
form a connection: an offset that is not inside a line end stands no later than the offset of a
position just if its own position is no later. Lines are connected with their starts in the same way,
and columns with the characters that fit into them; the connection is put together from both.
-/

namespace WorkflowScope

namespace Position

theorem le_trans {a b c : Position} (first : a.le b = true) (second : b.le c = true) :
    a.le c = true := by
  rw [le_iff] at *
  omega

end Position

namespace Span

theorem length_slice {start stop : Nat} {text : List Char} (bound : stop ≤ text.length) :
    (slice ⟨start, stop⟩ text).length = stop - start := by
  simp only [slice, length, List.length_take, List.length_drop]
  omega

theorem take_slice {start middle stop : Nat} {text : List Char} (ordered : middle ≤ stop) :
    (slice ⟨start, stop⟩ text).take (middle - start) = slice ⟨start, middle⟩ text := by
  simp only [slice, length, List.take_take]
  congr 1
  omega

theorem slice_append {start middle stop : Nat} {text : List Char} (first : start ≤ middle)
    (second : middle ≤ stop) :
    slice ⟨start, middle⟩ text ++ slice ⟨middle, stop⟩ text = slice ⟨start, stop⟩ text := by
  have joined : stop - start = (middle - start) + (stop - middle) := by omega
  have reached : start + (middle - start) = middle := by omega
  simp only [slice, length, joined, List.take_add, List.drop_drop, reached]

end Span

namespace Text

/-! ## Widths -/

theorem one_le_units16 (c : Char) : 1 ≤ units16 c := by
  unfold units16
  split <;> decide

theorem units16_le_two (c : Char) : units16 c ≤ 2 := by
  unfold units16
  split <;> decide

theorem width16_append (first rest : List Char) :
    width16 (first ++ rest) = width16 first + width16 rest := by
  induction first with
  | nil => simp [width16]
  | cons c first ih => simp [width16, ih, Nat.add_assoc]

theorem width16_le (text : List Char) : width16 text ≤ 2 * text.length := by
  induction text with
  | nil => exact Nat.le_refl _
  | cons c rest ih =>
      have one := units16_le_two c
      simp only [width16, List.length_cons]
      omega

theorem width16_pos {text : List Char} (written : text ≠ []) : 0 < width16 text := by
  cases text with
  | nil => exact absurd rfl written
  | cons c rest =>
      have one := one_le_units16 c
      simp only [width16]
      omega

/-- A column has room for `count` characters just if they are no wider. -/
theorem le_fitting_iff {count units : Nat} {content : List Char} (bound : count ≤ content.length) :
    count ≤ fitting units content ↔ width16 (content.take count) ≤ units := by
  induction content generalizing count units with
  | nil =>
      obtain rfl : count = 0 := by simpa using bound
      simp [fitting, width16]
  | cons c rest ih =>
      cases count with
      | zero => simp [width16]
      | succ count =>
          have inner := @ih count (units - units16 c) (by simpa using bound)
          simp only [fitting, List.take_succ_cons, width16]
          split <;> omega

/-! ## Line starts -/

theorem mem_startsAfterFeeds {base start : Nat} {text : List Char} :
    start ∈ startsAfterFeeds base text ↔
      ∃ feed, text[feed]? = some '\n' ∧ start = base + feed + 1 := by
  induction text generalizing base with
  | nil => simp [startsAfterFeeds]
  | cons c rest ih =>
      have later : (∃ feed, (c :: rest)[feed]? = some '\n' ∧ start = base + feed + 1) ↔
          (c = '\n' ∧ start = base + 1) ∨
            ∃ feed, rest[feed]? = some '\n' ∧ start = base + 1 + feed + 1 := by
        constructor
        · rintro ⟨feed, here, same⟩
          cases feed with
          | zero => exact .inl ⟨by simpa using here, same⟩
          | succ feed => exact .inr ⟨feed, by simpa using here, by omega⟩
        · rintro (⟨rfl, same⟩ | ⟨feed, here, same⟩)
          · exact ⟨0, rfl, same⟩
          · exact ⟨feed + 1, by simpa using here, by omega⟩
      unfold startsAfterFeeds
      rw [later]
      split
      · next feed => simp [ih, feed]
      · next other => simp [ih, other]

theorem startsAfterFeeds_sorted (base : Nat) (text : List Char) :
    (startsAfterFeeds base text).Pairwise (· < ·) := by
  induction text generalizing base with
  | nil => simp [startsAfterFeeds]
  | cons c rest ih =>
      unfold startsAfterFeeds
      split
      · refine List.pairwise_cons.2 ⟨fun start member => ?_, ih _⟩
        obtain ⟨feed, -, same⟩ := mem_startsAfterFeeds.1 member
        omega
      · exact ih _

theorem length_startsAfterFeeds_le (base : Nat) (text : List Char) :
    (startsAfterFeeds base text).length ≤ text.length := by
  induction text generalizing base with
  | nil => exact Nat.le_refl _
  | cons c rest ih =>
      have inner := ih (base + 1)
      unfold startsAfterFeeds
      split <;> simp only [List.length_cons] <;> omega

theorem mem_lineStarts {start : Nat} {text : List Char} :
    start ∈ lineStarts text ↔ start = 0 ∨ ∃ feed, text[feed]? = some '\n' ∧ start = feed + 1 := by
  simp [lineStarts, mem_startsAfterFeeds]

theorem lineStarts_sorted (text : List Char) : (lineStarts text).Pairwise (· < ·) := by
  refine List.pairwise_cons.2 ⟨fun start member => ?_, startsAfterFeeds_sorted 0 text⟩
  obtain ⟨feed, -, same⟩ := mem_startsAfterFeeds.1 member
  omega

theorem lineStarts_le_length {start : Nat} {text : List Char} (member : start ∈ lineStarts text) :
    start ≤ text.length := by
  obtain rfl | ⟨feed, here, rfl⟩ := mem_lineStarts.1 member
  · exact Nat.zero_le _
  · exact (List.getElem?_eq_some_iff.1 here).1

/-- In a list in order, those up to a bound stand in front. -/
theorem lt_countP_le_iff {starts : List Nat} (sorted : starts.Pairwise (· < ·)) {line bound : Nat} :
    line < starts.countP (· ≤ bound) ↔ ∃ start, starts[line]? = some start ∧ start ≤ bound := by
  induction starts generalizing line with
  | nil => simp
  | cons first rest ih =>
      obtain ⟨above, sorted⟩ := List.pairwise_cons.1 sorted
      rw [List.countP_cons]
      by_cases here : first ≤ bound
      · cases line with
        | zero => simp [here]
        | succ line => simp [here, ← ih sorted]
      · have none_left : rest.countP (· ≤ bound) = 0 := by
          rw [List.countP_eq_zero]
          intro start member
          have later := above start member
          simp only [decide_eq_true_eq]
          omega
        cases line with
        | zero => simp [here, none_left]
        | succ line =>
            simp only [here, none_left, decide_false, Bool.false_eq_true, if_false,
              List.getElem?_cons_succ, Nat.add_zero, Nat.not_lt_zero, false_iff, not_exists, not_and]
            intro start found
            have later := above start (List.mem_of_getElem? found)
            omega

/-- The line starts up to an offset are as many as the line feeds before it. -/
theorem countP_startsAfterFeeds (base offset : Nat) (text : List Char) :
    (startsAfterFeeds base text).countP (· ≤ base + offset) = (text.take offset).count '\n' := by
  induction text generalizing base offset with
  | nil => simp [startsAfterFeeds]
  | cons c rest ih =>
      cases offset with
      | zero =>
          rw [List.take_zero, List.count_nil, List.countP_eq_zero]
          intro start member
          obtain ⟨feed, -, rfl⟩ := mem_startsAfterFeeds.1 member
          simp only [decide_eq_true_eq]
          omega
      | succ offset =>
          have later := ih (base + 1) offset
          have shift : base + 1 + offset = base + (offset + 1) := by omega
          rw [shift] at later
          rw [startsAfterFeeds, List.take_succ_cons, List.count_cons]
          split
          · next feed => simp [feed, later]
          · next other => simp [other, later]

/-- A caret at the offset does not stand inside of a line end: not behind a carriage return that a
line feed or the end of the text follows. -/
def IsContent (text : List Char) (offset : Nat) : Prop :=
  ¬(0 < offset ∧ text[offset - 1]? = some '\r' ∧
    (text[offset]? = none ∨ text[offset]? = some '\n'))

theorem isContent_of_not_mem {text : List Char} (plain : '\r' ∉ text) (offset : Nat) :
    IsContent text offset :=
  fun ⟨_, here, _⟩ => plain (List.mem_of_getElem? here)

end Text

namespace LineIndex

open Text

variable {text : List Char}

/-! ## Lines -/

theorem getElem?_lineStarts {line : Nat} (there : line < (ofText text).lineCount) :
    (lineStarts text)[line]? = some ((ofText text).lineStart line) := by
  have found : (lineStarts text)[line]? = some _ := List.getElem?_eq_getElem there
  simp [lineStart, ofText, found]

theorem lineStart_mem {line : Nat} (there : line < (ofText text).lineCount) :
    (ofText text).lineStart line ∈ lineStarts text :=
  List.mem_of_getElem? (getElem?_lineStarts there)

theorem lineStart_le_length {line : Nat} (there : line < (ofText text).lineCount) :
    (ofText text).lineStart line ≤ text.length :=
  lineStarts_le_length (lineStart_mem there)

/-- A line starts at or before an offset just if it is no later than the line of the offset. -/
theorem lineStart_le_iff {line offset : Nat} (there : line < (ofText text).lineCount) :
    (ofText text).lineStart line ≤ offset ↔ line ≤ (ofText text).lineOf offset := by
  have counted := @lt_countP_le_iff _ (lineStarts_sorted text) line offset
  have first := @lt_countP_le_iff _ (lineStarts_sorted text) 0 offset
  have some_line : 0 < (lineStarts text).countP (· ≤ offset) := first.2 ⟨0, rfl, Nat.zero_le _⟩
  simp only [getElem?_lineStarts there, Option.some.injEq, exists_eq_left'] at counted
  rw [← counted]
  simp only [lineOf, ofText]
  omega

theorem lineOf_lt_lineCount (offset : Nat) :
    (ofText text).lineOf offset < (ofText text).lineCount := by
  have bound : (lineStarts text).countP (· ≤ offset) ≤ (lineStarts text).length :=
    List.countP_le_length
  have written : 0 < (lineStarts text).length := by simp [lineStarts]
  simp only [lineOf, lineCount, ofText]
  omega

theorem lineStart_lineOf_le (offset : Nat) :
    (ofText text).lineStart ((ofText text).lineOf offset) ≤ offset :=
  (lineStart_le_iff (lineOf_lt_lineCount offset)).2 (Nat.le_refl _)

theorem lineOf_mono {first second : Nat} (ordered : first ≤ second) :
    (ofText text).lineOf first ≤ (ofText text).lineOf second :=
  (lineStart_le_iff (lineOf_lt_lineCount first)).1 (Nat.le_trans (lineStart_lineOf_le first) ordered)

theorem lineStart_lt_lineStart {line later : Nat} (before : line < later)
    (there : later < (ofText text).lineCount) :
    (ofText text).lineStart line < (ofText text).lineStart later := by
  obtain ⟨early, first⟩ :=
    List.getElem?_eq_some_iff.1 (getElem?_lineStarts (Nat.lt_trans before there))
  obtain ⟨late, second⟩ := List.getElem?_eq_some_iff.1 (getElem?_lineStarts there)
  rw [← first, ← second]
  exact List.pairwise_iff_getElem.1 (lineStarts_sorted text) line later early late before

/-- The number of a line is the number of line feeds before it. -/
theorem lineOf_eq_count (offset : Nat) :
    (ofText text).lineOf offset = (text.take offset).count '\n' := by
  have counted := countP_startsAfterFeeds 0 offset text
  rw [Nat.zero_add] at counted
  simp [lineOf, ofText, lineStarts, counted]

/-! ## Line ends -/

/-- The offset past the last character of a line, its line feed left out. -/
def lineStop (index : LineIndex) (line : Nat) : Nat :=
  match index.starts[line + 1]? with
  | some next => next - 1
  | none => index.length

theorem lineContentEnd_eq (line : Nat) :
    (ofText text).lineContentEnd line =
      if (ofText text).lineStart line < (ofText text).lineStop line ∧
          text[(ofText text).lineStop line - 1]? = some '\r' then
        (ofText text).lineStop line - 1
      else (ofText text).lineStop line := by
  simp only [lineContentEnd, Bool.and_eq_true, decide_eq_true_eq, beq_iff_eq]
  rfl

theorem lineStop_of_next {line : Nat} (next : line + 1 < (ofText text).lineCount) :
    (ofText text).lineStop line = (ofText text).lineStart (line + 1) - 1 := by
  have found : (ofText text).starts[line + 1]? = _ := getElem?_lineStarts next
  simp only [lineStop, found]

theorem lineStop_of_last {line : Nat} (last : ¬line + 1 < (ofText text).lineCount) :
    (ofText text).lineStop line = text.length := by
  have missing : (ofText text).starts[line + 1]? = none :=
    List.getElem?_eq_none_iff.2 (Nat.not_lt.1 last)
  simp only [lineStop, missing]
  rfl

/-- A line ends behind its start, and at a line feed or at the end of the text. -/
theorem lineStop_spec {line : Nat} (there : line < (ofText text).lineCount) :
    (ofText text).lineStart line ≤ (ofText text).lineStop line ∧
      (ofText text).lineStop line ≤ text.length ∧
      (text[(ofText text).lineStop line]? = none ∨
        text[(ofText text).lineStop line]? = some '\n') := by
  by_cases next : line + 1 < (ofText text).lineCount
  · have before : _ < (ofText text).lineStart (line + 1) :=
      lineStart_lt_lineStart (Nat.lt_succ_self line) next
    obtain start | ⟨feed, here, same⟩ := mem_lineStarts.1 (lineStart_mem next)
    · omega
    · have bound := (List.getElem?_eq_some_iff.1 here).1
      rw [lineStop_of_next next, same, Nat.add_sub_cancel]
      exact ⟨by omega, by omega, .inr here⟩
  · rw [lineStop_of_last next]
    exact ⟨lineStart_le_length there, Nat.le_refl _, .inl (by simp)⟩

theorem lineStart_le_lineContentEnd {line : Nat} (there : line < (ofText text).lineCount) :
    (ofText text).lineStart line ≤ (ofText text).lineContentEnd line := by
  have stop := (lineStop_spec there).1
  rw [lineContentEnd_eq]
  split <;> omega

theorem lineContentEnd_le_lineStop (line : Nat) :
    (ofText text).lineContentEnd line ≤ (ofText text).lineStop line := by
  rw [lineContentEnd_eq]
  split <;> omega

/-- An offset on a line stands in the content of the line, unless it stands inside of its end. -/
theorem le_lineContentEnd {offset : Nat} (bound : offset ≤ text.length)
    (content : IsContent text offset) :
    offset ≤ (ofText text).lineContentEnd ((ofText text).lineOf offset) := by
  obtain ⟨-, -, ends⟩ := lineStop_spec (@lineOf_lt_lineCount text offset)
  have inLine : offset ≤ (ofText text).lineStop ((ofText text).lineOf offset) := by
    by_cases next : (ofText text).lineOf offset + 1 < (ofText text).lineCount
    · have later := mt (@lineStart_le_iff text _ offset next).1 (Nat.not_succ_le_self _)
      rw [lineStop_of_next next]
      omega
    · rw [lineStop_of_last next]
      exact bound
  rw [lineContentEnd_eq]
  split
  · next returned =>
      by_cases same : offset = (ofText text).lineStop ((ofText text).lineOf offset)
      · rw [← same] at returned ends
        exact absurd ⟨by omega, returned.2, ends⟩ content
      · omega
  · exact inLine

/-! ## The connection -/

theorem lineOf_le_length (offset : Nat) : (ofText text).lineOf offset ≤ text.length := by
  have there := @lineOf_lt_lineCount text offset
  have bound := length_startsAfterFeeds_le 0 text
  simp only [lineCount, ofText, lineStarts, List.length_cons] at there ⊢
  omega

/-- In a text that is not too long no count wraps around. -/
theorem positionAt_eq (small : text.length < 0x80000000) {offset : Nat} (bound : offset ≤ text.length) :
    (ofText text).positionAt offset =
      ⟨(ofText text).lineOf offset,
        width16 (Span.slice ⟨(ofText text).lineStart ((ofText text).lineOf offset), offset⟩ text)⟩ := by
  have sameOffset : min offset (ofText text).length = offset := Nat.min_eq_left bound
  have line := @lineOf_le_length text offset
  have width := width16_le
    (Span.slice ⟨(ofText text).lineStart ((ofText text).lineOf offset), offset⟩ text)
  have short := Span.length_slice_le
    ⟨(ofText text).lineStart ((ofText text).lineOf offset), offset⟩ text
  simp only [Span.length] at short
  simp only [positionAt, sameOffset]
  rw [Word32.wrap_of_lt (by simp only [Word32.count]; omega),
    Word32.wrap_of_lt (by simp only [Word32.count, ofText] at *; omega)]
  rfl

/-- The line of a position is the number of line feeds before it. -/
theorem line_positionAt (small : text.length < 0x80000000) {offset : Nat}
    (bound : offset ≤ text.length) :
    ((ofText text).positionAt offset).line = (text.take offset).count '\n' := by
  rw [positionAt_eq small bound, lineOf_eq_count]

theorem offsetAt_eq {position : Position} (there : position.line < (ofText text).lineCount) :
    (ofText text).offsetAt position =
      (ofText text).lineStart position.line + fitting position.character
        (Span.slice ⟨(ofText text).lineStart position.line,
          (ofText text).lineContentEnd position.line⟩ text) := by
  simp only [offsetAt, if_neg (Nat.not_le.2 there)]
  rfl

theorem offsetAt_le_lineContentEnd {position : Position}
    (there : position.line < (ofText text).lineCount) :
    (ofText text).offsetAt position ≤ (ofText text).lineContentEnd position.line := by
  have fits := fitting_le position.character (Span.slice ⟨(ofText text).lineStart position.line,
    (ofText text).lineContentEnd position.line⟩ text)
  have short := Span.length_slice_le ⟨(ofText text).lineStart position.line,
    (ofText text).lineContentEnd position.line⟩ text
  have ordered := lineStart_le_lineContentEnd there
  simp only [Span.length] at short
  rw [offsetAt_eq there]
  omega

/-- An offset that is not inside of a line end stands no later than the offset of a position just if
its own position is no later. -/
theorem le_offsetAt_iff (small : text.length < 0x80000000) {offset : Nat} (bound : offset ≤ text.length)
    (content : IsContent text offset) {position : Position}
    (there : position.line < (ofText text).lineCount) :
    offset ≤ (ofText text).offsetAt position ↔
      ((ofText text).positionAt offset).le position = true := by
  rw [positionAt_eq small bound, Position.le_iff]
  dsimp only
  have own := @lineStart_lineOf_le text offset
  have inContent := le_lineContentEnd bound content
  rcases Nat.lt_trichotomy ((ofText text).lineOf offset) position.line with early | same | late
  · -- The line of the position starts behind the offset already.
    have start := mt (@lineStart_le_iff text _ offset there).1 (by omega)
    rw [offsetAt_eq there]
    exact ⟨fun _ => .inl early, fun _ => by omega⟩
  · simp only [same] at own inContent ⊢
    have stop := @lineContentEnd_le_lineStop text position.line
    have inText := (lineStop_spec there).2.1
    rw [offsetAt_eq there, ← Nat.sub_le_iff_le_add', le_fitting_iff (by
      rw [Span.length_slice (by omega)]
      omega), Span.take_slice inContent]
    simp
  · -- The content of the position's line ends before the line of the offset starts.
    have next : position.line + 1 < (ofText text).lineCount :=
      Nat.lt_of_le_of_lt late (lineOf_lt_lineCount offset)
    have start := (@lineStart_le_iff text _ offset next).2 late
    have before := lineStart_lt_lineStart (Nat.lt_succ_self position.line) next
    have last := Nat.le_trans (offsetAt_le_lineContentEnd there) (lineContentEnd_le_lineStop _)
    rw [lineStop_of_next next] at last
    simp only [Nat.succ_eq_add_one] at before
    constructor
    · intro _
      omega
    · rintro (_ | ⟨_, _⟩) <;> omega

/-- A later offset has a later position. -/
theorem positionAt_lt (small : text.length < 0x80000000) {first second : Nat} (ordered : first < second)
    (bound : second ≤ text.length) :
    ((ofText text).positionAt second).le ((ofText text).positionAt first) = false := by
  rw [positionAt_eq small bound, positionAt_eq small (by omega), Bool.eq_false_iff, Ne,
    Position.le_iff]
  have lines := @lineOf_mono text first second (Nat.le_of_lt ordered)
  rintro (earlier | ⟨same, narrower⟩)
  · exact Nat.not_lt.2 lines earlier
  · simp only at same narrower
    have own := @lineStart_lineOf_le text first
    rw [same, ← Span.slice_append own (Nat.le_of_lt ordered), width16_append] at narrower
    have written : Span.slice ⟨first, second⟩ text ≠ [] := by
      rw [← List.length_pos_iff, Span.length_slice bound]
      exact Nat.sub_pos_of_lt ordered
    have wide := width16_pos written
    omega

/-- In a text without carriage returns the offset of a position on the range of a span lies in the
span. -/
theorem contains_offsetAt (plain : '\r' ∉ text) (small : text.length < 0x80000000) {span : Span}
    (forward : span.start ≤ span.stop) (bound : span.stop ≤ text.length) {position : Position}
    (inside : ((ofText text).rangeOf span).contains position = true) :
    span.contains ((ofText text).offsetAt position) = true := by
  simp only [rangeOf, Range.contains, Bool.and_eq_true] at inside
  obtain ⟨after, before⟩ := inside
  have there : position.line < (ofText text).lineCount := by
    have last := before
    rw [positionAt_eq small bound, Position.le_iff] at last
    have line := @lineOf_lt_lineCount text span.stop
    dsimp only at last
    omega
  have start := (le_offsetAt_iff small (Nat.le_trans forward bound)
    (isContent_of_not_mem plain _) there).2 after
  have inText : (ofText text).offsetAt position ≤ text.length :=
    Nat.le_trans (offsetAt_le_lineContentEnd there)
      (Nat.le_trans (lineContentEnd_le_lineStop _) (lineStop_spec there).2.1)
  have floor := (le_offsetAt_iff small inText (isContent_of_not_mem plain _) there).1
    (Nat.le_refl _)
  refine Span.contains_eq_true.2 ⟨start, Nat.not_lt.1 fun behind => ?_⟩
  have later := positionAt_lt small behind inText
  rw [Position.le_trans floor before] at later
  cases later

end LineIndex

end WorkflowScope
