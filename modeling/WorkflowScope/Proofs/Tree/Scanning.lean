import Mathlib.Data.List.TakeWhile
import WorkflowScope.Proofs.Text.Positions
import WorkflowScope.Proofs.Tree.Headers

/-!
# Guarded scans

The ends of scalars are found once more, by loops that ask for one character at a time. A guarded
scan gives nothing when it asks for a character outside of the text, or when its steps run out; so
where it gives something, the loop ends and every character it asks for is there. From marks in the
text the guarded scans find the ends that are found from the lists of characters.
-/

namespace WorkflowScope

namespace Span

variable {text : List Char} {start stop : Nat}

theorem slice_self (text : List Char) (offset : Nat) : slice ⟨offset, offset⟩ text = [] := by
  simp [slice, length]

theorem slice_eq_cons {c : Char} (before : start < stop) (found : text[start]? = some c) :
    slice ⟨start, stop⟩ text = c :: slice ⟨start + 1, stop⟩ text := by
  obtain ⟨inside, rfl⟩ := List.getElem?_eq_some_iff.1 found
  have count : stop - start = stop - (start + 1) + 1 := by omega
  simp only [slice, length]
  rw [List.drop_eq_getElem_cons inside, count, List.take_succ_cons]

theorem exists_slice_eq_cons (before : start < stop) (inside : stop ≤ text.length) :
    ∃ c, text[start]? = some c ∧ slice ⟨start, stop⟩ text = c :: slice ⟨start + 1, stop⟩ text := by
  have found := List.getElem?_eq_getElem (Nat.lt_of_lt_of_le before inside)
  exact ⟨_, found, slice_eq_cons before found⟩

theorem slice_concat {c : Char} (ordered : start ≤ stop) (found : text[stop]? = some c) :
    slice ⟨start, stop + 1⟩ text = slice ⟨start, stop⟩ text ++ [c] := by
  rw [← slice_append ordered (Nat.le_succ stop), slice_eq_cons (Nat.lt_succ_self stop) found,
    slice_self]

theorem drop_slice (start stop count : Nat) (text : List Char) :
    (slice ⟨start, stop⟩ text).drop count = slice ⟨start + count, stop⟩ text := by
  simp only [slice, length, List.drop_take, List.drop_drop, Nat.sub_sub]

/-- A beginning of a stretch of text is a shorter stretch. -/
theorem slice_of_prefix {front : List Char} (begins : front <+: slice ⟨start, stop⟩ text) :
    slice ⟨start, start + front.length⟩ text = front := by
  have short : start + front.length ≤ stop ∨ front = [] := by
    have fits := begins.length_le
    have most := length_slice_le ⟨start, stop⟩ text
    simp only [length] at most
    rcases Nat.le_total start stop with ordered | reversed
    · exact .inl (by omega)
    · exact .inr (List.length_eq_zero_iff.1 (by omega))
  rcases short with short | rfl
  · rw [← take_slice short, Nat.add_sub_cancel_left]
    exact (List.prefix_iff_eq_take.1 begins).symm
  · exact slice_self text start

end Span

namespace Extent.Guarded

open Text (isWhite splitLines)

def charBefore (text : List Char) : Nat → Option Char
  | 0 => none
  | offset + 1 => text[offset]?

/-- The end of a single-quoted scalar, from an offset in it on. -/
def singleQuotedEnd (text : List Char) (offset : Nat) : Option Nat :=
  if offset < text.length then do
    let c ← text[offset]?
    if c = '\'' then
      if text[offset + 1]? = some '\'' then singleQuotedEnd text (offset + 2)
      else some (offset + 1)
    else singleQuotedEnd text (offset + 1)
  else some text.length
termination_by text.length - offset

/-- The end of a double-quoted scalar, from an offset in it on. -/
def doubleQuotedEnd (text : List Char) (offset : Nat) : Option Nat :=
  if offset < text.length then do
    let c ← text[offset]?
    if c = '\\' then doubleQuotedEnd text (offset + 2)
    else if c = '"' then some (offset + 1)
    else doubleQuotedEnd text (offset + 1)
  else some text.length
termination_by text.length - offset

/-- The first of `count` offsets at which a character has a property; the offset behind them if
there is none. -/
def firstOf (text : List Char) (p : Char → Bool) : Nat → Nat → Option Nat
  | 0, offset => some offset
  | count + 1, offset => do
      let c ← text[offset]?
      if p c then some offset else firstOf text p count (offset + 1)

def firstIn (text : List Char) (p : Char → Bool) (start stop : Nat) : Option Nat :=
  firstOf text p (stop - start) start

def allIn (text : List Char) (p : Char → Bool) (start stop : Nat) : Option Bool :=
  (firstIn text (!p ·) start stop).map (stop ≤ ·)

/-- The first of `count` offsets at which a comment begins; the offset behind them if there is
none. The line begins at `start`. -/
def commentOf (text : List Char) (start : Nat) : Nat → Nat → Option Nat
  | 0, offset => some offset
  | count + 1, offset => do
      let c ← text[offset]?
      if c = '#' then
        if offset = start then some offset
        else do
          let before ← charBefore text offset
          if isWhite before then some offset else commentOf text start count (offset + 1)
      else commentOf text start count (offset + 1)

/-- The end of a stretch of text without the white characters at its end. -/
def trimmedEnd (text : List Char) (start : Nat) : Nat → Option Nat
  | 0 => some 0
  | stop + 1 =>
      if start < stop + 1 then do
        let c ← text[stop]?
        if isWhite c then trimmedEnd text start stop else some (stop + 1)
      else some (stop + 1)

def contentEnd (text : List Char) (start stop : Nat) : Option Nat := do
  let comment ← commentOf text start (stop - start) start
  trimmedEnd text start comment

/-- The end of the last line with content, of those from `lineStart` up to `limit`. -/
def lastContentEnd (text : List Char) (limit : Nat) : Nat → Nat → Nat → Option Nat
  | 0, _, _ => none
  | steps + 1, found, lineStart =>
      if lineStart < limit then do
        let lineEnd ← firstIn text (· == '\n') lineStart limit
        let content ← contentEnd text lineStart lineEnd
        lastContentEnd text limit steps (if lineStart < content then content else found)
          (lineEnd + 1)
      else some found

def plainEnd (text value : List Char) (mark next : Nat) : Option Nat :=
  if standsVerbatim text value mark then some (mark + value.length)
  else do
    let limit := max next mark
    let found ← lastContentEnd text limit (limit - mark + 1) mark mark
    some (min (max found (mark + 1)) text.length)

def isHeaderAt (text : List Char) (offset : Nat) : Option Bool :=
  match text[offset]? with
  | none => some false
  | some c =>
      if c = '|' ∨ c = '>' then
        if offset = 0 then some (finishesHeader (text.drop (offset + 1)))
        else do
          let before ← charBefore text offset
          some (isHeaderLead before && finishesHeader (text.drop (offset + 1)))
      else some false

def lineStartFrom (text : List Char) : Nat → Option Nat
  | 0 => some 0
  | offset + 1 => do
      let c ← text[offset]?
      if c = '\n' ∨ c = '\r' then some (offset + 1) else lineStartFrom text offset

def lineStart (text : List Char) (offset : Nat) : Option Nat :=
  lineStartFrom text (min offset text.length)

def headerOf (text : List Char) : Nat → Nat → Option (Option Nat)
  | 0, _ => some none
  | count + 1, offset => do
      let header ← isHeaderAt text offset
      if header then some (some offset) else headerOf text count (offset + 1)

/-- The end of the line above the one that starts at `start`. -/
def lineAboveEnd (text : List Char) (start : Nat) : Option Nat :=
  let stop := start - 1
  if 0 < stop then do
    let last ← text[stop]?
    if last = '\n' then do
      let before ← charBefore text stop
      some (if before = '\r' then stop - 1 else stop)
    else some stop
  else some stop

/-- Looks for a header on the line that ends at `stop` and on the lines above it. -/
def headerAbove (text : List Char) : Nat → Nat → Option (Option Nat)
  | 0, _ => none
  | steps + 1, stop => do
      let start ← lineStart text stop
      let header ← headerOf text (stop - start) start
      if header.isSome then some header
      else do
        let blank ← allIn text isWhite start stop
        if start = 0 ∨ blank = false then some none
        else do
          let above ← lineAboveEnd text start
          headerAbove text steps above

def blockStart (text : List Char) (mark : Nat) : Option Nat := do
  let header ← isHeaderAt text mark
  if header then some mark
  else do
    let above ← headerAbove text (mark + 1) mark
    some (above.getD mark)

/-- The end of the last line that belongs to a block scalar, of those from `lineStart` up to
`limit`. -/
def lastBlockLineEnd (text : List Char) (limit : Nat) :
    Nat → Nat → Option Nat → Nat → Option Nat
  | 0, _, _, _ => none
  | steps + 1, found, floor, lineStart =>
      if lineStart < limit then do
        let lineEnd ← firstIn text (· == '\n') lineStart limit
        let body ← firstIn text (· != ' ') lineStart lineEnd
        let blank ← allIn text isWhite body lineEnd
        if blank then lastBlockLineEnd text limit steps found floor (lineEnd + 1)
        else do
          let indent := body - lineStart
          let least := floor.getD indent
          let first ← text[body]?
          let stop := if lineEnd < text.length ∧ lineEnd < limit then lineEnd + 1 else lineEnd
          lastBlockLineEnd text limit steps
            (if first = '#' ∧ indent < least then found else stop) (some least) (lineEnd + 1)
      else some found

def blockEnd (text : List Char) (start next : Nat) : Option Nat := do
  let limit := max next start
  let headerEnd ← firstIn text (· == '\n') start limit
  if limit ≤ headerEnd then some limit
  else
    lastBlockLineEnd text limit (limit - headerEnd) (headerEnd + 1) none (headerEnd + 1)

variable {text : List Char} {p : Char → Bool} {mark next start stop limit offset : Nat}

/-! ## Quoted scalars -/

theorem drop_eq_cons {c : Char} (found : text[offset]? = some c) :
    text.drop offset = c :: text.drop (offset + 1) := by
  obtain ⟨inside, rfl⟩ := List.getElem?_eq_some_iff.1 found
  exact List.drop_eq_getElem_cons inside

theorem singleQuotedEnd_eq (text : List Char) (offset : Nat) :
    singleQuotedEnd text offset =
      some (min (offset + singleQuotedLength (text.drop offset)) text.length) := by
  fun_induction singleQuotedEnd text offset with
  | case1 offset inside skipped passed =>
      have found := List.getElem?_eq_getElem inside
      rw [found, drop_eq_cons found, Option.bind_eq_bind, Option.bind_some]
      by_cases quote : text[offset] = '\''
      · rw [if_pos quote, quote]
        by_cases doubled : text[offset + 1]? = some '\''
        · rw [if_pos doubled, skipped, drop_eq_cons doubled, singleQuotedLength,
            Nat.add_right_comm, Nat.add_assoc]
        · rw [if_neg doubled, singleQuotedLength_close (by rw [List.head?_drop]; exact doubled),
            Nat.min_eq_left inside]
      · rw [if_neg quote, passed, singleQuotedLength_char quote, Nat.add_right_comm,
          Nat.add_assoc]
  | case2 offset outside =>
      rw [List.drop_eq_nil_of_le (Nat.le_of_not_lt outside), singleQuotedLength, Nat.add_zero,
        Nat.min_eq_right (Nat.le_of_not_lt outside)]

theorem doubleQuotedEnd_eq (text : List Char) (offset : Nat) :
    doubleQuotedEnd text offset =
      some (min (offset + doubleQuotedLength (text.drop offset)) text.length) := by
  fun_induction doubleQuotedEnd text offset with
  | case1 offset inside skipped passed =>
      have found := List.getElem?_eq_getElem inside
      rw [found, drop_eq_cons found, Option.bind_eq_bind, Option.bind_some]
      by_cases escape : text[offset] = '\\'
      · rw [if_pos escape, escape, skipped]
        cases rest : text.drop (offset + 1) with
        | nil =>
            -- The backslash is the last character.
            have last := List.drop_eq_nil_iff.1 rest
            rw [List.drop_eq_nil_of_le (by omega), doubleQuotedLength_backslash,
              doubleQuotedLength]
            congr 1
            omega
        | cons c more =>
            have behind : text.drop (offset + 2) = more := by
              rw [show offset + 2 = offset + 1 + 1 from rfl, ← List.drop_drop, rest, List.drop_one,
                List.tail_cons]
            rw [behind, doubleQuotedLength, Nat.add_right_comm, Nat.add_assoc]
      · rw [if_neg escape]
        by_cases quote : text[offset] = '"'
        · rw [if_pos quote, quote, doubleQuotedLength_close, Nat.min_eq_left inside]
        · rw [if_neg quote, doubleQuotedLength_char escape quote, passed, Nat.add_right_comm,
            Nat.add_assoc]
  | case2 offset outside =>
      rw [List.drop_eq_nil_of_le (Nat.le_of_not_lt outside), doubleQuotedLength, Nat.add_zero,
        Nat.min_eq_right (Nat.le_of_not_lt outside)]

/-! ## Stretches of text -/

theorem firstOf_eq {count : Nat} (inside : offset + count ≤ text.length) :
    firstOf text p count offset = some (offset +
      ((Span.slice ⟨offset, offset + count⟩ text).takeWhile (!p ·)).length) := by
  induction count generalizing offset with
  | zero => simp [firstOf, Span.slice_self]
  | succ count ih =>
      obtain ⟨c, found, slice⟩ :=
        Span.exists_slice_eq_cons (show offset < offset + (count + 1) by omega) inside
      rw [firstOf, found, slice, Option.bind_eq_bind, Option.bind_some, List.takeWhile_cons]
      cases stops : p c with
      | true => simp
      | false =>
          have shift : offset + (count + 1) = offset + 1 + count := by omega
          rw [if_neg Bool.false_ne_true, ih (by omega), shift, Bool.not_false, if_pos rfl,
            List.length_cons, Nat.add_right_comm, Nat.add_assoc]

theorem firstIn_eq (ordered : start ≤ stop) (inside : stop ≤ text.length) :
    firstIn text p start stop =
      some (start + ((Span.slice ⟨start, stop⟩ text).takeWhile (!p ·)).length) := by
  obtain ⟨count, rfl⟩ := Nat.exists_eq_add_of_le ordered
  rw [firstIn, Nat.add_sub_cancel_left, firstOf_eq inside]

theorem allIn_eq (ordered : start ≤ stop) (inside : stop ≤ text.length) :
    allIn text p start stop = some ((Span.slice ⟨start, stop⟩ text).all p) := by
  have size := @Span.length_slice start stop text inside
  rw [allIn, firstIn_eq ordered inside, Option.map_some]
  simp only [Bool.not_not, Option.some.injEq]
  change decide (stop ≤ start + ((Span.slice ⟨start, stop⟩ text).takeWhile p).length) = _
  rw [Bool.eq_iff_iff, decide_eq_true_iff]
  have begins := List.takeWhile_prefix p (l := Span.slice ⟨start, stop⟩ text)
  constructor
  · intro reaches
    rw [← begins.eq_of_length_le (by omega)]
    exact List.all_takeWhile
  · intro all
    rw [List.takeWhile_eq_self_iff.2 (List.all_eq_true.1 all), size]
    omega

/-! ## Plain scalars -/

theorem commentOf_eq {count : Nat} (apart : Bool) (behind : start ≤ offset)
    (inside : offset + count ≤ text.length)
    (same : apart = true ↔ offset = start ∨ ∃ c ∈ charBefore text offset, isWhite c = true) :
    commentOf text start count offset = some (offset +
      (beforeComment apart (Span.slice ⟨offset, offset + count⟩ text)).length) := by
  induction count generalizing offset apart with
  | zero => simp [commentOf, Span.slice_self, beforeComment]
  | succ count ih =>
      obtain ⟨c, found, slice⟩ :=
        Span.exists_slice_eq_cons (show offset < offset + (count + 1) by omega) inside
      have shift : offset + (count + 1) = offset + 1 + count := by omega
      have later := @ih (offset + 1) (isWhite c) (by omega) (by omega) (by
        simp [charBefore, found]
        omega)
      have onward : offset + 1 + (beforeComment (isWhite c)
          (Span.slice ⟨offset + 1, offset + 1 + count⟩ text)).length =
        offset + (c :: beforeComment (isWhite c)
          (Span.slice ⟨offset + 1, offset + 1 + count⟩ text)).length := by
        rw [List.length_cons, Nat.add_right_comm, Nat.add_assoc]
      rw [commentOf, found, slice, Option.bind_eq_bind, Option.bind_some, beforeComment, shift,
        later, onward]
      by_cases hash : c = '#'
      · by_cases first : offset = start
        · simp [hash, first, same.2 (.inl first)]
        · obtain ⟨place, rfl⟩ := Nat.exists_eq_add_one.2 (show 0 < offset by omega)
          have before := List.getElem?_eq_getElem (show place < text.length by omega)
          have apart_eq : apart = isWhite text[place] := by
            rw [Bool.eq_iff_iff, same]
            simp [charBefore, before, first]
          cases white : isWhite text[place] <;>
            simp [hash, first, charBefore, before, apart_eq, white]
      · simp [hash]

theorem beforeComment_prefix (apart : Bool) (line : List Char) :
    beforeComment apart line <+: line := by
  induction line generalizing apart with
  | nil => exact List.prefix_refl _
  | cons c rest ih =>
      rw [beforeComment]
      split
      · exact List.nil_prefix
      · exact (List.prefix_cons_inj c).2 (ih _)

theorem trimmedEnd_eq (ordered : start ≤ stop) (inside : stop ≤ text.length) :
    trimmedEnd text start stop = some (start +
      ((Span.slice ⟨start, stop⟩ text).reverse.dropWhile isWhite).length) := by
  induction stop with
  | zero =>
      obtain rfl := Nat.le_zero.1 ordered
      simp [trimmedEnd, Span.slice_self]
  | succ stop ih =>
      rw [trimmedEnd]
      split
      · next before =>
          have found := List.getElem?_eq_getElem inside
          have ordered := Nat.le_of_lt_succ before
          rw [found, Span.slice_concat ordered found, List.reverse_append, List.reverse_singleton,
            List.singleton_append, Option.bind_eq_bind, Option.bind_some, List.dropWhile_cons]
          split
          · exact ih ordered (Nat.le_of_lt inside)
          · rw [List.length_cons, List.length_reverse, Span.length_slice (Nat.le_of_lt inside)]
            congr 1
            omega
      · have same : start = stop + 1 := by omega
        simp [same, Span.slice_self]

theorem contentEnd_eq (ordered : start ≤ stop) (inside : stop ≤ text.length) :
    contentEnd text start stop =
      some (start + contentLength (Span.slice ⟨start, stop⟩ text)) := by
  obtain ⟨count, rfl⟩ := Nat.exists_eq_add_of_le ordered
  have begins := beforeComment_prefix true (Span.slice ⟨start, start + count⟩ text)
  have short := begins.length_le
  rw [Span.length_slice inside] at short
  rw [contentEnd, Nat.add_sub_cancel_left, commentOf_eq true (Nat.le_refl start) inside
    (by simp), Option.bind_eq_bind, Option.bind_some, trimmedEnd_eq (by omega) (by omega),
    Span.slice_of_prefix begins, contentLength]

theorem splitLines_eq (text : List Char) :
    splitLines text = text.takeWhile (· != '\n') ::
      if (text.takeWhile (· != '\n')).length < text.length then
        splitLines (text.drop ((text.takeWhile (· != '\n')).length + 1))
      else [] := by
  induction text with
  | nil => simp [splitLines]
  | cons c rest ih =>
      rw [splitLines]
      by_cases feed : c = '\n'
      · simp [feed]
      · rw [if_neg feed, ih]
        simp [feed]

def linesFrom (text : List Char) (start stop : Nat) : List (List Char) :=
  if start ≤ stop then splitLines (Span.slice ⟨start, stop⟩ text) else []

theorem linesFrom_eq (ordered : start ≤ stop) :
    linesFrom text start stop = splitLines (Span.slice ⟨start, stop⟩ text) :=
  if_pos ordered

theorem isEmpty_linesFrom : (linesFrom text start stop).isEmpty = true ↔ stop < start := by
  unfold linesFrom
  split
  · simpa [Text.splitLines_ne_nil] using ‹start ≤ stop›
  · simpa using ‹¬start ≤ stop›

/-- No characters are left behind the last line. -/
theorem linesFrom_of_le (text : List Char) (done : stop ≤ start) :
    linesFrom text start stop = [[]] ∨ linesFrom text start stop = [] := by
  rcases Nat.eq_or_lt_of_le done with rfl | past
  · exact .inl (by rw [linesFrom_eq (Nat.le_refl _), Span.slice_self, splitLines])
  · exact .inr (if_neg (Nat.not_le.2 past))

/-- The first line of a stretch of text, which is not empty, and the lines behind it. -/
theorem exists_line (before : start < stop) (inside : stop ≤ text.length) :
    ∃ lineEnd, start ≤ lineEnd ∧ lineEnd ≤ stop ∧
      firstIn text (· == '\n') start stop = some lineEnd ∧
      linesFrom text start stop =
        Span.slice ⟨start, lineEnd⟩ text :: linesFrom text (lineEnd + 1) stop := by
  have begins := List.takeWhile_prefix (· != '\n') (l := Span.slice ⟨start, stop⟩ text)
  have short := begins.length_le
  have size := @Span.length_slice start stop text inside
  refine ⟨start + ((Span.slice ⟨start, stop⟩ text).takeWhile (· != '\n')).length,
    Nat.le_add_right _ _, by omega, firstIn_eq (Nat.le_of_lt before) inside, ?_⟩
  rw [linesFrom_eq (Nat.le_of_lt before), splitLines_eq, Span.drop_slice,
    Span.slice_of_prefix begins, size, ← Nat.add_assoc]
  exact congrArg _ (if_congr (by omega) rfl rfl)

theorem lastContentEnd_eq {steps found : Nat} (enough : limit - start < steps)
    (inside : limit ≤ text.length) :
    lastContentEnd text limit steps found start =
      some (Extent.lastContentEnd start found (linesFrom text start limit)) := by
  induction steps generalizing found start with
  | zero => cases enough
  | succ steps ih =>
      rw [lastContentEnd]
      split
      · next before =>
          obtain ⟨lineEnd, behind, upTo, line, lines⟩ := exists_line before inside
          have lineIn := Nat.le_trans upTo inside
          simp only [line, lines, Option.bind_eq_bind, Option.bind_some,
            contentEnd_eq behind lineIn, Extent.lastContentEnd, Span.length_slice lineIn,
            Nat.add_sub_cancel' behind, Nat.lt_add_right_iff_pos]
          exact ih (by omega)
      · next done =>
          rcases linesFrom_of_le text (Nat.le_of_not_lt done) with none | none <;>
            simp [none, Extent.lastContentEnd, contentLength, beforeComment]

theorem plainEnd_eq (value : List Char) (next : Nat) (markIn : mark ≤ text.length)
    (nextIn : next ≤ text.length) :
    plainEnd text value mark next = some (Extent.plainEnd text value mark next) := by
  rw [plainEnd, Extent.plainEnd]
  split
  · rfl
  · have limitIn := Nat.max_le.2 ⟨nextIn, markIn⟩
    simp only
    rw [lastContentEnd_eq (Nat.lt_succ_self _) limitIn, linesFrom_eq (Nat.le_max_right _ _)]
    rfl

/-! ## Block scalars -/

theorem isHeaderAt_eq (text : List Char) (offset : Nat) :
    isHeaderAt text offset = some (Extent.isHeaderAt text offset) := by
  unfold isHeaderAt Extent.isHeaderAt
  cases found : text[offset]? with
  | none => rw [List.drop_eq_nil_of_le (List.getElem?_eq_none_iff.1 found)]
  | some c =>
      rw [drop_eq_cons found]
      simp only
      by_cases opens : c = '|' ∨ c = '>'
      · rw [if_pos opens]
        cases offset with
        | zero => simp [opens]
        | succ place =>
            have inside := (List.getElem?_eq_some_iff.1 found).1
            have before := List.getElem?_eq_getElem (Nat.lt_of_succ_lt inside)
            have opened : (c == '|' || c == '>') = true := by simpa using opens
            simp [charBefore, before, opened]
      · simp [opens]

theorem lineStartFrom_eq (inside : offset ≤ text.length) :
    lineStartFrom text offset = some (lineStartBefore text offset) := by
  induction offset with
  | zero => simp [lineStartFrom, lineStartBefore]
  | succ offset ih =>
      have found := List.getElem?_eq_getElem inside
      have breaks : Yaml.isBreak text[offset] = true ↔
          text[offset] = '\n' ∨ text[offset] = '\r' := by
        simp [Yaml.isBreak]
      rw [lineStartFrom, found, lineStartBefore_succ found, ih (Nat.le_of_lt inside)]
      simp only [Option.bind_eq_bind, Option.bind_some, breaks]
      split <;> rfl

theorem lineStart_eq (inside : offset ≤ text.length) :
    lineStart text offset = some (lineStartBefore text offset) := by
  rw [lineStart, Nat.min_eq_left inside, lineStartFrom_eq inside]

theorem headerOf_eq (text : List Char) (count offset : Nat) :
    headerOf text count offset =
      some ((List.range' offset count).find? (Extent.isHeaderAt text)) := by
  induction count generalizing offset with
  | zero => rfl
  | succ count ih =>
      rw [headerOf, isHeaderAt_eq, ih, List.range'_succ, List.find?_cons, Option.bind_eq_bind,
        Option.bind_some]
      cases Extent.isHeaderAt text offset <;> rfl

theorem lineAboveEnd_eq (later : 0 < start) (inside : start ≤ text.length) :
    lineAboveEnd text start = some (Extent.lineAboveEnd text start) := by
  obtain ⟨stop, rfl⟩ := Nat.exists_eq_add_one.2 later
  rw [lineAboveEnd, Extent.lineAboveEnd, Nat.add_sub_cancel]
  cases stop with
  | zero => rfl
  | succ place =>
      have last := List.getElem?_eq_getElem inside
      have before := List.getElem?_eq_getElem (Nat.lt_of_succ_lt inside)
      by_cases feed : text[place + 1] = '\n' <;> simp [last, before, charBefore, feed]

theorem lineAboveEnd_lt (text : List Char) (later : 0 < start) :
    Extent.lineAboveEnd text start < start := by
  simp only [Extent.lineAboveEnd]
  split <;> omega

theorem headerAbove_eq {steps : Nat} (enough : stop < steps) (inside : stop ≤ text.length) :
    headerAbove text steps stop = some (headerAbove? text steps stop) := by
  induction steps generalizing stop with
  | zero => cases enough
  | succ steps ih =>
      have upTo := lineStartBefore_le text stop
      simp only [headerAbove, headerAbove?, lineStart_eq inside, Option.bind_eq_bind,
        Option.bind_some, headerOf_eq, headerBetween?]
      cases (List.range' (lineStartBefore text stop) (stop - lineStartBefore text stop)).find?
        (Extent.isHeaderAt text) with
      | some header => rfl
      | none =>
          simp only [Option.isSome_none, Bool.false_eq_true, if_false, allIn_eq upTo inside,
            Option.bind_some]
          generalize (Span.slice ⟨lineStartBefore text stop, stop⟩ text).all isWhite = blank
          by_cases last : lineStartBefore text stop = 0
          · simp [last]
          · have later := Nat.pos_of_ne_zero last
            have above := lineAboveEnd_lt text later
            rw [lineAboveEnd_eq later (Nat.le_trans upTo inside), Option.bind_some,
              ih (by omega) (by omega)]
            cases blank <;> simp [last]

theorem blockStart_eq (inside : mark ≤ text.length) :
    blockStart text mark = some (Extent.blockStart text mark) := by
  rw [blockStart, Extent.blockStart, isHeaderAt_eq, headerAbove_eq (Nat.lt_succ_self mark) inside]
  cases Extent.isHeaderAt text mark <;> rfl

-- From a mark behind the end of the text the search asks for characters that are not there.
example : blockStart [] 1 = none := rfl

/-- The place behind the indentation of a line. -/
theorem exists_indent (ordered : start ≤ stop) (inside : stop ≤ text.length) :
    ∃ indent, start + indent ≤ stop ∧
      firstIn text (· != ' ') start stop = some (start + indent) ∧
      ((Span.slice ⟨start, stop⟩ text).takeWhile (· == ' ')).length = indent := by
  have spaces : (fun c : Char => !(c != ' ')) = (· == ' ') := by
    funext c
    rw [bne, Bool.not_not]
  have begins := List.takeWhile_prefix (· == ' ') (l := Span.slice ⟨start, stop⟩ text)
  have short := begins.length_le
  have size := @Span.length_slice start stop text inside
  refine ⟨_, by omega, ?_, rfl⟩
  rw [firstIn_eq ordered inside, spaces]

theorem lastBlockLineEnd_eq {steps found : Nat} {floor : Option Nat}
    (enough : limit - start < steps) (inside : limit ≤ text.length) :
    lastBlockLineEnd text limit steps found floor start =
      some (Extent.lastBlockLineEnd start found floor (linesFrom text start limit)) := by
  induction steps generalizing found floor start with
  | zero => cases enough
  | succ steps ih =>
      rw [lastBlockLineEnd]
      split
      · next before =>
          obtain ⟨lineEnd, behind, upTo, line, lines⟩ := exists_line before inside
          have lineIn := Nat.le_trans upTo inside
          obtain ⟨indent, upToBody, body, spaces⟩ := exists_indent behind lineIn
          simp only [line, lines, body, Option.bind_eq_bind, Option.bind_some,
            allIn_eq upToBody lineIn, Extent.lastBlockLineEnd, spaces, Span.drop_slice,
            Span.length_slice lineIn, Nat.add_sub_cancel' behind]
          cases blank : (Span.slice ⟨start + indent, lineEnd⟩ text).all isWhite with
          | true => simpa using ih (by omega)
          | false =>
              -- What is not blank has a first character, which tells whether it is a comment.
              have written : start + indent < lineEnd := by
                by_contra none
                obtain rfl : start + indent = lineEnd := by omega
                simp [Span.slice_self] at blank
              obtain ⟨c, found, cut⟩ := Span.exists_slice_eq_cons written lineIn
              have last : (lineEnd < text.length ∧ lineEnd < limit) ↔
                  ¬(linesFrom text (lineEnd + 1) limit).isEmpty = true := by
                rw [isEmpty_linesFrom]
                omega
              simp only [found, cut, Option.bind_some, Bool.false_eq_true, if_false, last, ite_not]
              rw [ih (by omega)]
              simp
      · next done =>
          rcases linesFrom_of_le text (Nat.le_of_not_lt done) with none | none <;>
            simp [none, Extent.lastBlockLineEnd]

theorem blockEnd_eq (startIn : start ≤ text.length) (nextIn : next ≤ text.length) :
    blockEnd text start next = some (Extent.blockEnd text start next) := by
  have limitIn := Nat.max_le.2 ⟨nextIn, startIn⟩
  have ordered := Nat.le_max_right next start
  rw [blockEnd, Extent.blockEnd]
  simp only
  rw [firstIn_eq ordered limitIn, Span.length_slice limitIn, Span.drop_slice]
  have feeds : (fun c : Char => !(c == '\n')) = (· != '\n') := rfl
  rw [feeds, Option.bind_eq_bind, Option.bind_some]
  generalize ((Span.slice ⟨start, max next start⟩ text).takeWhile (· != '\n')).length = header
  by_cases whole : max next start ≤ start + header
  · rw [if_pos whole, if_pos (by omega)]
  · rw [if_neg whole, if_neg (by omega), lastBlockLineEnd_eq (by omega) limitIn,
      linesFrom_eq (by omega), Nat.add_assoc]

end Extent.Guarded

end WorkflowScope
