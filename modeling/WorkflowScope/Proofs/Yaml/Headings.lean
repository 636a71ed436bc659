import WorkflowScope.Proofs.Tree.Headers
import WorkflowScope.Proofs.Yaml.BlockScalars
import WorkflowScope.Proofs.Yaml.Layout

/-!
# Headers of block scalars

What is read between the indicator of a block scalar and its content: the rest of the header, and
below its line only spaces and breaks. So a block scalar is marked under its header, or at its
indicator if the text ends before any content.
-/

namespace WorkflowScope.Yaml

open Extent (isHeaderIndicator finishesHeader lineEnd Heads Bare)

theorem isEnd_of_isBreak {char : Char} (broken : isBreak char = true) : isEnd char = false := by
  simp only [isBreak, Bool.or_eq_true, beq_iff_eq] at broken
  rcases broken with rfl | rfl <;> rfl

namespace Cursor

/-- Reading some characters of a class leads from one cursor to another. -/
def Passes (p : Char → Bool) (c d : Cursor) : Prop :=
  ∃ k, Reads k c d ∧ (c.rest.take k).all p = true

variable {p q : Char → Bool} {c d e : Cursor}

theorem Passes.refl (c : Cursor) : Passes p c c :=
  ⟨0, .refl c, rfl⟩

theorem Passes.trans (first : Passes p c d) (second : Passes p d e) : Passes p c e := by
  obtain ⟨j, first, ofFirst⟩ := first
  obtain ⟨k, second, ofSecond⟩ := second
  refine ⟨j + k, first.trans second, ?_⟩
  rw [first.rest_eq] at ofSecond
  rw [List.take_add, List.all_append, ofFirst, ofSecond]
  rfl

theorem Passes.mono (passes : Passes p c d) (weaker : ∀ char, p char = true → q char = true) :
    Passes q c d := by
  obtain ⟨k, reads, all⟩ := passes
  exact ⟨k, reads, List.all_eq_true.2 fun char member =>
    weaker char (List.all_eq_true.1 all char member)⟩

/-- At the end of the text nothing is read. -/
theorem Passes.reads_zero (passes : Passes p c d) (ended : isEnd c.peek = true)
    (shown : ∀ char, p char = true → isEnd char = false) : Reads 0 c d := by
  obtain ⟨k, reads, all⟩ := passes
  cases k with
  | zero => exact reads
  | succ k =>
      cases found : c.rest with
      | nil =>
          have long := reads.le_length
          rw [found] at long
          cases long
      | cons char rest =>
          rw [found, List.take_succ_cons, List.all_cons, Bool.and_eq_true] at all
          rw [peek_eq found, shown char all.1] at ended
          cases ended

theorem Reads.peek_eq_of_zero (reads : Reads 0 c d) : d.peek = c.peek := by
  rw [peek, peek, reads.rest_eq, List.drop_zero]

/-- How much has been read ahead does not matter. -/
theorem passes_of_eq (rest : d.rest = c.rest) (mark : d.mark = c.mark) : Passes p c d :=
  ⟨0, reads_of_eq rest mark, rfl⟩

/-- One character that is seen. -/
theorem passes_skip_one (seen : p c.peek = true) (plain : isBreakOrEnd c.peek = false) :
    Passes p c (c.skip 1) := by
  refine ⟨1, reads_skip_one plain, ?_⟩
  obtain ⟨rest, found⟩ := exists_cons_of_peek (c := c) (by simp_all [isBreakOrEnd])
  rw [found]
  simpa using seen

/-- Some of the characters of a class that are to come. -/
theorem passes_skipBlank {count : Nat} (few : count ≤ (c.upcoming p).length)
    (plain : ∀ char, p char = true → isBreakOrEnd char = false) : Passes p c (c.skipBlank count) := by
  have start : c.upcoming p <+: c.rest := List.takeWhile_prefix p
  have all : ∀ char ∈ c.rest.take count, p char = true := by
    intro char member
    have inClass := List.take_subset_take_left _ few member
    rw [← List.prefix_iff_eq_take.1 start] at inClass
    exact List.all_eq_true.1 List.all_takeWhile char inClass
  exact ⟨count, reads_skipBlank (fun char member => plain char (all char member))
    (Nat.le_trans few start.length_le), List.all_eq_true.2 all⟩

theorem passes_skipComment (c : Cursor) : Passes (!isBreak ·) c c.skipComment := by
  unfold skipComment
  split
  · exact .refl c
  · have inLine : Passes (!isBreakOrEnd ·) c (c.skipBlank (c.upcoming (!isBreakOrEnd ·)).length) :=
      passes_skipBlank (Nat.le_refl _) (by simp)
    have passed : Passes (!isBreakOrEnd ·) c (c.skip (c.upcoming (!isBreakOrEnd ·)).length) :=
      inLine.trans (passes_of_eq rfl rfl)
    refine passed.mono fun char plain => ?_
    simp only [isBreakOrEnd, Bool.not_or, Bool.and_eq_true] at plain
    exact plain.1

theorem all_isBreak (broken : isBreak c.peek = true) :
    (c.rest.take c.breakWidth).all isBreak = true := by
  obtain ⟨rest, found⟩ := exists_cons_of_peek (isEnd_of_isBreak broken)
  unfold breakWidth
  split
  · next pair =>
      simp only [Bool.and_eq_true, beq_iff_eq] at pair
      rw [pair.1] at found
      cases rest with
      | nil => simp [found]; decide
      | cons next rest =>
          obtain rfl : next = '\n' := by simpa [peekAt, found] using pair.2
          rw [found]
          rfl
  · rw [found]
    simp [broken]

/-- What stood before the end of a line: blanks, and a comment only behind some. -/
theorem skipToLineEnd_cases {gap : Gap} (read : c.skipToLineEnd = .ok (d, gap)) :
    (d = c.skipBlank (c.upcoming isBlank).length ∧ d.peek ≠ '#') ∨
      (d = (c.skipBlank (c.upcoming isBlank).length).skipComment ∧ c.upcoming isBlank ≠ [] ∧
        (c.skipBlank (c.upcoming isBlank).length).peek = '#') := by
  simp only [skipToLineEnd] at read
  split at read
  · next comment =>
      split at read
      · cases read
      · next some_blank =>
          cases read
          exact .inr ⟨rfl, by simpa using some_blank, beq_iff_eq.1 comment⟩
  · next other =>
      cases read
      exact .inl ⟨rfl, fun same => other (beq_iff_eq.2 same)⟩

end Cursor

namespace Block

open Cursor

variable {text : List Char} {n : Nat} {c d : Cursor}

/-! ## The line of the header -/

theorem passes_readIndicator {start : Mark} {indent : Option Nat}
    (read : readIndicator start c = .ok (d, indent)) : Passes isHeaderIndicator c d := by
  rw [readIndicator] at read
  split at read
  · next digit =>
      obtain ⟨_, read⟩ := refuse_eq_ok.1 read
      cases read
      exact passes_skip_one (by simp [isHeaderIndicator, digit])
        (plain_of_class (p := Char.isDigit) (by decide) (by decide) (by decide) digit)
  · cases read
    exact .refl _

theorem passes_chomp {chomp : Chomp} (found : Chomp.ofChar? c.peek = some chomp) :
    Passes isHeaderIndicator c (c.skip 1) := by
  refine passes_skip_one ?_ (plain_of_ofChar? found)
  unfold Chomp.ofChar? at found
  split at found
  · next plus => simp [isHeaderIndicator, plus]
  · next minus => simp [isHeaderIndicator, minus]
  · cases found

theorem passes_readHeader {start : Mark} {header : Header}
    (read : readHeader start c = .ok (d, header)) : Passes isHeaderIndicator c d := by
  rw [readHeader] at read
  split at read
  · next chomp found =>
      obtain ⟨⟨next, indent⟩, indicator, last⟩ := bind_eq_ok.1 read
      cases last
      exact (passes_chomp found).trans (passes_readIndicator indicator)
  · obtain ⟨⟨next, indent⟩, indicator, last⟩ := bind_eq_ok.1 read
    simp only at last
    split at last
    · next chomp found =>
        cases last
        exact (passes_readIndicator indicator).trans (passes_chomp found)
    · cases last
      exact passes_readIndicator indicator

/-- The rest of a line is that of a header: indicators, blanks, and a break or a comment behind a
blank. -/
theorem finishesHeader_append {indicators blanks rest : List Char} {char : Char}
    (marks : indicators.all isHeaderIndicator = true) (white : blanks.all isBlank = true)
    (ends : isBreak char = true ∨ (char = '#' ∧ blanks ≠ [])) :
    finishesHeader (indicators ++ (blanks ++ char :: rest)) = true := by
  have other : isHeaderIndicator char = false ∧ isBlank char = false := by
    rcases ends with broken | ⟨rfl, -⟩
    · simp only [isBreak, Bool.or_eq_true, beq_iff_eq] at broken
      rcases broken with rfl | rfl <;> decide
    · decide
  have first : (blanks ++ char :: rest).dropWhile isHeaderIndicator = blanks ++ char :: rest := by
    cases blanks with
    | nil => simp [other.1]
    | cons blank more =>
        have white : isBlank blank = true := by simp_all
        simp only [isBlank, Bool.or_eq_true, beq_iff_eq] at white
        rcases white with rfl | rfl
        · rfl
        · rfl
  have second : (blanks ++ char :: rest).dropWhile (fun c => c == ' ' || c == '\t') =
      char :: rest := by
    change (blanks ++ char :: rest).dropWhile isBlank = char :: rest
    rw [List.dropWhile_append_of_pos (List.all_eq_true.1 white),
      List.dropWhile_cons_of_neg (by simp [other.2])]
  rw [finishesHeader, List.dropWhile_append_of_pos (List.all_eq_true.1 marks), first, second]
  rcases ends with broken | ⟨rfl, some_blank⟩
  · simp only [isBreak, Bool.or_eq_true, beq_iff_eq] at broken
    rcases broken with rfl | rfl <;> rfl
  · have longer := List.length_pos_iff.2 some_blank
    simp
    omega

/-- A line ends where the first break is read. -/
theorem lineEnd_eq (here : c.At text n) (passes : Passes (!isBreak ·) c d)
    (broken : isBreak d.peek = true) : d.At text (lineEnd text n) := by
  obtain ⟨k, reads, plain⟩ := passes
  have short : ((text.drop n).takeWhile (!isBreak ·)).length = k := by
    rw [← here.rest_eq, ← List.take_append_drop k c.rest,
      List.takeWhile_append_of_pos (List.all_eq_true.1 plain), ← reads.rest_eq]
    obtain ⟨rest, found⟩ := exists_cons_of_peek (isEnd_of_isBreak broken)
    rw [found, List.takeWhile_cons_of_neg (by simp [broken])]
    simp [reads.le_length]
  rw [lineEnd, short]
  exact reads.moves text n here

/-- What is read without a break stays on the line. -/
theorem le_lineEnd_of_passes (here : c.At text n) (passes : Passes (!isBreak ·) c d) :
    d.mark.offsetIn text ≤ lineEnd text n := by
  obtain ⟨k, reads, plain⟩ := passes
  rw [(reads.moves text n here).offset_eq, lineEnd, ← here.rest_eq, ← List.take_append_drop k c.rest,
    List.takeWhile_append_of_pos (List.all_eq_true.1 plain), List.length_append,
    List.length_take_of_le reads.le_length]
  omega

/-- No break is read behind the indicator up to the end of the line. -/
theorem passes_line {start : Mark} {header : Header} {gap : Cursor.Gap} {next after : Cursor}
    (first : readHeader start c = .ok (next, header))
    (blanks : next.skipToLineEnd = .ok (after, gap)) : Passes (!isBreak ·) c after := by
  have inLine : Passes (!isBreak ·) c (next.skipBlank (next.upcoming isBlank).length) := by
    have passed : Passes isBlank next (next.skipBlank (next.upcoming isBlank).length) :=
      passes_skipBlank (Nat.le_refl _) fun _ => isBreakOrEnd_of_isBlank
    refine ((passes_readHeader first).mono ?_).trans (passed.mono ?_)
    · intro char mark
      have plain := plain_of_class (p := isHeaderIndicator) (by decide) (by decide) (by decide) mark
      simp only [isBreakOrEnd, Bool.or_eq_false_iff] at plain
      simp [plain.1]
    · intro char blank
      have plain := isBreakOrEnd_of_isBlank blank
      simp only [isBreakOrEnd, Bool.or_eq_false_iff] at plain
      simp [plain.1]
  rcases skipToLineEnd_cases blanks with ⟨rfl, -⟩ | ⟨rfl, -, -⟩
  · exact inLine
  · exact inLine.trans (passes_skipComment _)

/-- Behind the indicator the rest of the line is that of a header, if the line breaks. -/
theorem finishes_of_read {start : Mark} {header : Header} {gap : Cursor.Gap} {next after : Cursor}
    (first : readHeader start c = .ok (next, header))
    (blanks : next.skipToLineEnd = .ok (after, gap)) (broken : isBreak after.peek = true) :
    finishesHeader c.rest = true := by
  obtain ⟨k, reads, marks⟩ := passes_readHeader first
  have white : (next.upcoming isBlank).all isBlank = true := List.all_takeWhile
  have parts : next.rest = next.upcoming isBlank ++
      (next.skipBlank (next.upcoming isBlank).length).rest := by
    have whole := List.takeWhile_append_dropWhile (p := isBlank) (l := next.rest)
    have dropped := congrArg (List.drop (next.rest.takeWhile isBlank).length) whole
    rw [List.drop_left] at dropped
    rw [rest_skipBlank, upcoming, ← dropped, whole]
  rw [← List.take_append_drop k c.rest, ← reads.rest_eq, parts]
  rcases skipToLineEnd_cases blanks with ⟨rfl, -⟩ | ⟨rfl, some_blank, comment⟩
  · obtain ⟨rest, found⟩ := exists_cons_of_peek (isEnd_of_isBreak broken)
    rw [found]
    exact finishesHeader_append marks white (.inl broken)
  · obtain ⟨rest, found⟩ := exists_cons_of_peek (c := next.skipBlank (next.upcoming isBlank).length)
      (by rw [comment]; rfl)
    rw [found, comment]
    exact finishesHeader_append marks white (.inr ⟨rfl, some_blank⟩)

/-! ## The lines below it -/

def isUnwritten (char : Char) : Bool :=
  char == ' ' || isBreak char

theorem passes_skipSpace {count : Nat} (few : count ≤ (c.upcoming (· == ' ')).length) :
    Passes isUnwritten c (c.skipBlank count) := by
  have spaces : Passes (· == ' ') c (c.skipBlank count) :=
    passes_skipBlank few fun _ =>
      plain_of_class (p := (· == ' ')) (by decide) (by decide) (by decide)
  exact spaces.mono fun char space => by simp_all [isUnwritten]

theorem all_isUnwritten (broken : isBreak c.peek = true) :
    (c.rest.take c.breakWidth).all isUnwritten = true := by
  rw [List.all_eq_true]
  intro char member
  simp [isUnwritten, List.all_eq_true.1 (all_isBreak broken) char member]

theorem passes_break (broken : isBreak c.peek = true) : Passes isUnwritten c c.skipBreak :=
  ⟨_, reads_skipBreak c, all_isUnwritten broken⟩

theorem passes_skipIndent (indent fuel : Nat) (c : Cursor) :
    Passes isUnwritten c (skipIndent indent fuel c).1 := by
  induction fuel generalizing c with
  | zero => exact .refl c
  | succ fuel ih =>
      simp only [skipIndent]
      have spaces := passes_skipSpace (c := c)
        (Nat.min_le_left (c.upcoming (· == ' ')).length (indent - c.mark.column))
      split
      · next broken =>
          refine Passes.trans (Passes.trans ?_ (passes_break broken)) (ih _)
          exact spaces.trans (passes_of_eq rfl rfl)
      · exact spaces.trans (passes_of_eq rfl rfl)

theorem passes_skipSpaces (fuel : Nat) (c : Cursor) :
    Passes isUnwritten c (skipSpaces fuel c).1 := by
  induction fuel generalizing c with
  | zero => exact .refl c
  | succ fuel ih =>
      simp only [skipSpaces]
      have spaces := passes_skipSpace (c := c) (Nat.le_refl (c.upcoming (· == ' ')).length)
      split
      · next broken =>
          refine (spaces.trans ?_).trans (ih _)
          have ahead : Passes isUnwritten (c.skipBlank (c.upcoming (· == ' ')).length)
              ((c.skipBlank (c.upcoming (· == ' ')).length).lookAhead 2) := passes_of_eq rfl rfl
          exact ahead.trans (passes_break broken)
      · exact spaces

theorem isEnd_of_isUnwritten {char : Char} (unwritten : isUnwritten char = true) :
    isEnd char = false := by
  simp only [isUnwritten, Bool.or_eq_true, beq_iff_eq] at unwritten
  rcases unwritten with rfl | broken
  · rfl
  · exact isEnd_of_isBreak broken

/-- There is no break at the end of the text. -/
theorem breakWidth_of_isEnd (ended : isEnd c.peek = true) : c.breakWidth = 0 := by
  have same : c.peek = '\x00' := beq_iff_eq.1 ended
  rw [breakWidth, same]
  rfl

/-- At the end of the text a break that is looked for is not read, nor is anything behind it. -/
theorem reads_zero_below (ended : isEnd c.peek = true)
    (below : Passes isUnwritten (c.lookAhead 2).skipBreak d) : Reads 0 c d := by
  have still : Reads 0 c (c.lookAhead 2).skipBreak := by
    have reads := reads_skipBreak (c.lookAhead 2)
    rw [breakWidth_of_isEnd (c := c.lookAhead 2) ended] at reads
    exact .of_lookAhead reads
  exact still.trans (below.reads_zero (still.peek_eq_of_zero.symm ▸ ended)
    fun _ => isEnd_of_isUnwritten)

/-! ## Where a block scalar is marked -/

/-- The scalar that begins at the cursor is marked under its header, or it is marked at its
indicator and has no content. -/
def Marks (text : List Char) (n : Nat) (d : Cursor) (mark : Mark) : Prop :=
  Heads text n (mark.offsetIn text) ∨
    (mark.offsetIn text = n ∧ isEnd d.peek = true ∧ ∃ stop, Bare text n stop ∧ d.At text stop)

/-- Content that is found below the header, or not. -/
theorem marks_content {folded : Bool} {parent : Int} {header : Header} {empties indent : Nat}
    {content : Cursor} {value : List Char} {mark : Mark} (here : c.At text n)
    (headed : Heads text n (content.mark.offsetIn text) ∨
      (isEnd content.peek = true ∧ content.mark.offsetIn text ≤ lineEnd text n))
    (leads : ∃ k, 0 < k ∧ Reads k c content)
    (found : (if isEnd content.peek then
        Except.ok (content, emptyValue header.chomp (content.mark.line == c.mark.line) empties, c.mark)
      else if content.mark.column < indent && parent < content.column then
        content.fail .blockIndentation
      else
        let lines := readLines folded indent (content.rest.length + 1) content { empties }
        .ok (lines.1, lines.2.1 ++ tail header.chomp indent lines.1 lines.2.2, content.mark)) =
      .ok (d, value, mark)) : Marks text n d mark := by
  obtain ⟨k, positive, reads⟩ := leads
  have there := reads.moves text n here
  split at found
  · next ended =>
      cases found
      rw [there.offset_eq] at headed
      refine .inr ⟨here.offset_eq, ended, n + k, ⟨?_, by omega, headed.imp_right And.right⟩, there⟩
      rwa [Cursor.peek, there.rest_eq, List.headD_eq_head?_getD, List.head?_drop] at ended
  · next running =>
      obtain ⟨_, found⟩ := refuse_eq_ok.1 found
      cases found
      exact .inl (headed.resolve_right fun stopped => running stopped.1)

/-- Below the line of a header, spaces and breaks lead to the mark. -/
theorem heads_of_passes {after content : Cursor} (here : c.At text n)
    (opens : c.peek = '|' ∨ c.peek = '>') (finishes : finishesHeader (c.rest.drop 1) = true)
    (line : Passes (!isBreak ·) c after) (broken : isBreak after.peek = true)
    (below : Passes isUnwritten (after.lookAhead 2).skipBreak content) :
    Heads text n (content.mark.offsetIn text) := by
  have stop := lineEnd_eq here line broken
  obtain ⟨k, more, blank⟩ := below
  have first : Reads after.breakWidth after (after.lookAhead 2).skipBreak :=
    .of_lookAhead (reads_skipBreak (after.lookAhead 2))
  have reads := first.trans more
  have there := reads.moves text _ stop
  have width := breakWidth_pos broken
  rw [there.offset_eq]
  constructor
  · rw [here.opensAt_eq rfl, here.opensAt_eq rfl]
    simpa using opens
  · rwa [here.rest_eq, List.drop_drop] at finishes
  · omega
  · exact there.le_length
  · have length : lineEnd text n + (after.breakWidth + k) - lineEnd text n = after.breakWidth + k := by
      omega
    rw [Span.slice, Span.length, length, ← stop.rest_eq, List.take_add, List.all_append,
      Bool.and_eq_true]
    rw [first.rest_eq] at blank
    exact ⟨all_isUnwritten broken, blank⟩

/-- A block scalar is read from its indicator to the end of its lines. -/
theorem marks_read {folded : Bool} {parent : Int} {value : List Char} {mark : Mark}
    (here : c.At text n) (opens : c.peek = '|' ∨ c.peek = '>')
    (found : read folded parent c = .ok (d, value, mark)) : Marks text n d mark := by
  obtain ⟨⟨next, header⟩, first, found⟩ := bind_eq_ok.1 found
  obtain ⟨⟨after, gap⟩, blanks, found⟩ := bind_eq_ok.1 found
  obtain ⟨stop, found⟩ := refuse_eq_ok.1 found
  obtain ⟨_, found⟩ := refuse_eq_ok.1 found
  have plain : isBreakOrEnd c.peek = false := by
    rcases opens with same | same <;> rw [same] <;> rfl
  have indicator : Passes (!isBreak ·) c (c.skip 1) := by
    refine passes_skip_one ?_ plain
    rcases opens with same | same <;> rw [same] <;> rfl
  obtain ⟨k, toLine⟩ : Leads (c.skip 1) (after.lookAhead 2).skipBreak :=
    ((leads_readHeader first).1.trans (leads_skipToLineEnd blanks)).trans (leads_skipBreak 2 _)
  have opened := (reads_skip_one plain).trans toLine
  have line := passes_line first blanks
  -- Below the header there is content, or the text has ended already on its line.
  have headed {content : Cursor} (below : Passes isUnwritten (after.lookAhead 2).skipBreak content) :
      Heads text n (content.mark.offsetIn text) ∨
        (isEnd content.peek = true ∧ content.mark.offsetIn text ≤ lineEnd text n) := by
    cases broken : isBreak after.peek with
    | true =>
        have finishes := finishes_of_read first blanks broken
        exact .inl (heads_of_passes here opens finishes (indicator.trans line) broken below)
    | false =>
        have ended : isEnd after.peek = true := by simpa [isBreakOrEnd, broken] using stop
        have still := reads_zero_below ended below
        exact .inr ⟨still.peek_eq_of_zero.symm ▸ ended,
          le_lineEnd_of_passes here ((indicator.trans line).trans ⟨0, still, rfl⟩)⟩
  have leads {content : Cursor} (below : Passes isUnwritten (after.lookAhead 2).skipBreak content) :
      ∃ k, 0 < k ∧ Reads k c content := by
    obtain ⟨j, below, _⟩ := below
    exact ⟨_, by omega, opened.trans below⟩
  cases given : header.indent with
  | some relative =>
      rw [given] at found
      cases scanned : skipIndent (contentIndent parent (some relative) 0)
          ((after.lookAhead 2).skipBreak.rest.length + 1) (after.lookAhead 2).skipBreak with
      | mk content empties =>
          have below := passes_skipIndent (contentIndent parent (some relative) 0)
            ((after.lookAhead 2).skipBreak.rest.length + 1) (after.lookAhead 2).skipBreak
          rw [scanned] at below
          simp only [scanned] at found
          exact marks_content here (headed below) (leads below) found
  | none =>
      rw [given] at found
      cases scanned : skipSpaces ((after.lookAhead 2).skipBreak.rest.length + 1)
          (after.lookAhead 2).skipBreak with
      | mk content rest =>
          have below := passes_skipSpaces ((after.lookAhead 2).skipBreak.rest.length + 1)
            (after.lookAhead 2).skipBreak
          rw [scanned] at below
          simp only [scanned] at found
          exact marks_content here (headed below) (leads below) found

end Block

end WorkflowScope.Yaml
