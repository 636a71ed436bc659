import WorkflowScope.Proofs.Yaml.Tags

/-!
# Scalars in a text

Reading a scalar moves the cursor on, at least as far as the scalar shows itself to reach: a plain
scalar is not longer than what was read for it, and a quoted one is read up to its closing quote.
-/

namespace WorkflowScope.Yaml

open Cursor

/-! ## Plain scalars -/

namespace Plain

/-- The most characters that a gap can stand for. -/
def Gap.size (gap : Gap) : Nat :=
  gap.blanks.length + gap.broken.toNat + gap.empties

theorem Gap.length_joined_le (gap : Gap) (atLineStart : Bool) :
    (gap.joined atLineStart).length ≤ gap.size := by
  unfold joined size
  split
  · split
    · rename_i folds
      simp only [Bool.and_eq_true] at folds
      simp [folds.1]
      omega
    · simp
  · omega

theorem reads_skipGap {indent : Int} {start : Mark} {fuel : Nat} {c d : Cursor} {gap last : Gap}
    (read : skipGap indent start fuel c gap = .ok (d, last)) :
    ∃ k, Reads k c d ∧ last.size ≤ gap.size + k := by
  induction fuel generalizing c gap with
  | zero =>
      cases read
      exact ⟨0, .refl _, Nat.le_refl _⟩
  | succ fuel ih =>
      rw [skipGap] at read
      split at read
      · rename_i blank
        have one := reads_skipBlank_one (isBreakOrEnd_of_isBlank blank)
        split at read
        · obtain ⟨k, more, size⟩ := ih read
          refine ⟨_, one.trans more, ?_⟩
          simp only [Gap.size, List.length_append, List.length_singleton] at size ⊢
          omega
        · split at read
          · obtain ⟨⟨after, _⟩, tabs, read⟩ := bind_eq_ok.1 read
            obtain ⟨_, read⟩ := refuse_eq_ok.1 read
            obtain ⟨j, tabs⟩ := leads_skipToLineEnd tabs
            obtain ⟨k, more, size⟩ := ih read
            exact ⟨_, tabs.trans more, by omega⟩
          · obtain ⟨k, more, size⟩ := ih read
            exact ⟨_, one.trans more, by omega⟩
      · split at read
        · rename_i broken
          have line : Reads (c.lookAhead 2).breakWidth c (c.lookAhead 2).skipBreak :=
            .of_lookAhead (reads_skipBreak _)
          have positive : 0 < (c.lookAhead 2).breakWidth := breakWidth_pos broken
          split at read
          · obtain ⟨k, more, size⟩ := ih read
            refine ⟨_, line.trans more, ?_⟩
            simp only [Gap.size] at size ⊢
            omega
          · obtain ⟨k, more, size⟩ := ih read
            refine ⟨_, line.trans more, ?_⟩
            simp only [Gap.size, List.length_nil, Bool.toNat_true] at size ⊢
            omega
        · cases read
          exact ⟨0, .refl _, Nat.le_refl _⟩

theorem word_prefix (flow : Bool) (text : List Char) :
    word flow text <+: text ∧ ∀ c ∈ word flow text, isBreakOrEnd c = false := by
  induction text with
  | nil => simp [word]
  | cons c rest ih =>
      simp only [word]
      split
      · simp
      · rename_i plain
        simp only [isBlankBreakOrEnd, Bool.or_eq_true, not_or, Bool.not_eq_true] at plain
        refine ⟨List.cons_prefix_cons.2 ⟨rfl, ih.1⟩, fun d member => ?_⟩
        rcases List.mem_cons.1 member with rfl | later
        · exact plain.1.1.2
        · exact ih.2 d later

theorem reads_word (flow : Bool) (c : Cursor) :
    Reads (word flow c.rest).length c (c.skip (word flow c.rest).length) := by
  obtain ⟨start, plain⟩ := word_prefix flow c.rest
  refine reads_skip (fun char member => ?_) start.length_le
  rw [← List.prefix_iff_eq_take.1 start] at member
  exact plain char member

theorem reads_readWords {flow : Bool} {indent : Int} {start : Mark} {fuel : Nat} {c d : Cursor}
    {gap : Gap} {value : List Char} (read : readWords flow indent start fuel c gap = .ok (d, value)) :
    ∃ k, Reads k c d ∧ value.length ≤ gap.size + k := by
  induction fuel generalizing c gap value with
  | zero =>
      cases read
      exact ⟨0, .refl _, Nat.zero_le _⟩
  | succ fuel ih =>
      simp only [readWords] at read
      split at read
      · cases read
        exact ⟨0, reads_of_eq rfl rfl, Nat.zero_le _⟩
      · obtain ⟨_, read⟩ := refuse_eq_ok.1 read
        -- The word, if there is one, uses up the gap before it.
        obtain ⟨j, text, rest, after, word, size, read⟩ : ∃ j text rest after,
            Reads j c after ∧ text.length + Gap.size rest ≤ gap.size + j ∧
            (if !(isBlank after.peek || isBreak after.peek) then .ok (after, text)
              else do
                let found ← skipGap indent start (after.rest.length + 1) after rest
                if !flow && found.1.column < indent then .ok (found.1, text)
                else
                  let more ← readWords flow indent start fuel found.1 found.2
                  .ok (more.1, text ++ more.2)) = .ok (d, value) := by
          cases found : (word flow (c.lookAhead 4).rest).isEmpty with
          | true =>
              simp only [found, if_true] at read
              exact ⟨0, [], gap, c.lookAhead 4, reads_of_eq rfl rfl, by simp, read⟩
          | false =>
              simp only [found, Bool.false_eq_true, if_false] at read
              have reads := (reads_word flow (c.lookAhead 4)).of_lookAhead
              refine ⟨_, _, _, _, reads.lookAhead 2, ?_, read⟩
              have joined := gap.length_joined_le (c.lookAhead 4).atLineStart
              simp only [List.length_append, Gap.size, List.length_nil, Bool.toNat_false]
                at joined ⊢
              omega
        split at read
        · cases read
          exact ⟨j, word, by omega⟩
        · obtain ⟨⟨between, blanks⟩, gapRead, read⟩ := bind_eq_ok.1 read
          obtain ⟨k, gapReads, gapSize⟩ := reads_skipGap gapRead
          simp only at read
          split at read
          · cases read
            exact ⟨_, word.trans gapReads, by omega⟩
          · obtain ⟨⟨last, more⟩, later, read⟩ := bind_eq_ok.1 read
            cases read
            obtain ⟨l, moreReads, moreSize⟩ := ih later
            refine ⟨_, (word.trans gapReads).trans moreReads, ?_⟩
            simp only [List.length_append]
            omega

theorem reads_read {flow : Bool} {indent : Int} {c d : Cursor} {value : List Char}
    (found : read flow indent c = .ok (d, value)) : ∃ k, Reads k c d ∧ value.length ≤ k := by
  obtain ⟨_, found⟩ := refuse_eq_ok.1 found
  simpa [Gap.size] using reads_readWords found

end Plain

/-! ## Quoted scalars -/

namespace Quoted

open Extent (singleQuotedLength doubleQuotedLength)

def restLength : Quote → List Char → Nat
  | .single => singleQuotedLength
  | .double => doubleQuotedLength

/-- Characters that have no meaning of their own inside quotes. -/
def isOrdinary (c : Char) : Bool :=
  c != '\'' && c != '"' && c != '\\'

theorem restLength_cons {quote : Quote} {c : Char} {rest : List Char} (other : c ≠ quote.char)
    (escape : quote = .double → c ≠ '\\') :
    restLength quote (c :: rest) = restLength quote rest + 1 := by
  cases quote with
  | single =>
      have plain : c ≠ '\'' := other
      rw [restLength, singleQuotedLength, if_neg plain]
      rintro _ rfl
      exact absurd rfl plain
  | double =>
      have plain : c ≠ '"' := other
      rw [restLength, doubleQuotedLength, if_neg plain]
      intro _ _ same
      exact absurd same (escape rfl)

theorem restLength_drop {quote : Quote} {rest : List Char} {k : Nat}
    (ordinary : ∀ c ∈ rest.take k, isOrdinary c = true) (inside : k ≤ rest.length) :
    restLength quote rest = restLength quote (rest.drop k) + k := by
  induction k generalizing rest with
  | zero => simp
  | succ k ih =>
      cases rest with
      | nil => simp at inside
      | cons c rest =>
          have here := ordinary c (by simp)
          simp only [isOrdinary, Bool.and_eq_true, bne_iff_ne] at here
          have other : c ≠ quote.char := by
            cases quote with
            | single => exact here.1.1
            | double => exact here.1.2
          rw [restLength_cons other fun _ => here.2, List.drop_succ_cons,
            ih (fun d member => ordinary d (by simp [member])) (by simpa using inside)]
          omega

/-- Reading moves on inside of quotes. -/
structure Inside (quote : Quote) (c d : Cursor) : Prop where
  leads : ∃ k, Reads k c d ∧ restLength quote c.rest = restLength quote d.rest + k

theorem Inside.refl (quote : Quote) (c : Cursor) : Inside quote c c :=
  ⟨0, .refl c, rfl⟩

theorem Inside.trans {quote : Quote} {c d e : Cursor} (first : Inside quote c d)
    (second : Inside quote d e) : Inside quote c e := by
  obtain ⟨j, firstReads, firstLength⟩ := first.leads
  obtain ⟨k, secondReads, secondLength⟩ := second.leads
  exact ⟨j + k, firstReads.trans secondReads, by omega⟩

theorem Inside.of_reads {quote : Quote} {k : Nat} {c d : Cursor} (reads : Reads k c d)
    (ordinary : ∀ char ∈ c.rest.take k, isOrdinary char = true) : Inside quote c d := by
  refine ⟨k, reads, ?_⟩
  rw [reads.rest_eq]
  exact restLength_drop ordinary reads.le_length

/-- Two characters of an escape. -/
theorem Inside.pair {quote : Quote} {c : Cursor}
    (plain : ∀ i < 2, isBreakOrEnd (c.peekAt i) = false)
    (escape : (quote = .single ∧ c.peek = '\'' ∧ c.peekAt 1 = '\'') ∨
      (quote = .double ∧ c.peek = '\\')) : Inside quote c (c.skip 2) := by
  have reads := reads_skip_of_peekAt plain
  refine ⟨2, reads, ?_⟩
  have long := reads.le_length
  match found : c.rest, long with
  | first :: second :: rest, _ =>
      simp only [peek, peekAt, found, List.headD_cons, List.getD_cons_succ, List.getD_cons_zero]
        at escape
      rcases escape with ⟨rfl, rfl, rfl⟩ | ⟨rfl, rfl⟩
      · simp [restLength, singleQuotedLength, found]
      · simp [restLength, doubleQuotedLength, found]

theorem isSome_of_ofHex? {digits : List Char} {code : Nat} (hex : Text.ofHex? digits = some code) :
    ∀ digit ∈ digits, (Text.hexValue? digit).isSome = true := by
  have fold (sum : Nat) (hex : digits.foldlM
      (fun sum digit => (Text.hexValue? digit).map (sum * 16 + ·)) sum = some code) :
      ∀ digit ∈ digits, (Text.hexValue? digit).isSome = true := by
    clear * - hex
    induction digits generalizing sum with
    | nil => simp
    | cons digit rest ih =>
        rw [List.foldlM_cons] at hex
        obtain ⟨next, first, more⟩ := Option.bind_eq_some_iff.1 hex
        obtain ⟨value, found, _⟩ := Option.map_eq_some_iff.1 first
        intro other member
        rcases List.mem_cons.1 member with rfl | later
        · simp [found]
        · exact ih next more other later
  exact fold 0 hex

theorem isOrdinary_of_hexValue? {digit : Char} (hex : (Text.hexValue? digit).isSome = true) :
    isOrdinary digit = true := by
  by_contra special
  simp only [isOrdinary, Bool.and_eq_true, bne_iff_ne, not_and_or, not_not] at special
  rcases special with (rfl | rfl) | rfl <;> revert hex <;> decide

theorem inside_digits {quote : Quote} {c : Cursor} {digits code : Nat}
    (hex : Text.ofHex? ((List.range digits).map c.peekAt) = some code) :
    Inside quote c (c.skip digits) := by
  have some_hex := isSome_of_ofHex? hex
  have plain : ∀ i < digits, isBreakOrEnd (c.peekAt i) = false := fun i below =>
    plain_of_class (p := fun char => (Text.hexValue? char).isSome) (by decide) (by decide)
      (by decide) (some_hex _ (List.mem_map.2 ⟨i, List.mem_range.2 below, rfl⟩))
  refine .of_reads (reads_skip_of_peekAt plain) fun char member => ?_
  rw [(take_eq_of_peekAt fun i below => (Bool.or_eq_false_iff.1 (plain i below)).2).1] at member
  exact isOrdinary_of_hexValue? (some_hex char member)

theorem inside_readEscape {start : Mark} {c d : Cursor} {char : Char} (slash : c.peek = '\\')
    (read : readEscape start c = .ok (d, char)) :
    Inside .double c d ∧ d.rest.length < c.rest.length := by
  cases found : Escape.ofChar? (c.peekAt 1) with
  | none => simp [readEscape, found] at read
  | some escape =>
      have known : (Escape.ofChar? (c.peekAt 1)).isSome = true := by simp [found]
      have plain : ∀ i < 2, isBreakOrEnd (c.peekAt i) = false := by
        intro i below
        match i, below with
        | 0, _ =>
            rw [peekAt_zero]
            exact isBreakOrEnd_of_eq slash rfl
        | 1, _ =>
            exact plain_of_class (p := fun char => (Escape.ofChar? char).isSome) (by decide)
              (by decide) (by decide) known
      have pair : Inside .double c (c.skip 2) := .pair plain (.inr ⟨rfl, slash⟩)
      have long := (reads_skip_of_peekAt plain).le_length
      cases escape with
      | stands char =>
          simp only [readEscape, found] at read
          cases read
          exact ⟨pair, by simp; omega⟩
      | code digits =>
          simp only [readEscape, found] at read
          cases hex : Text.ofHex? ((List.range digits).map ((c.skip 2).lookAhead digits).peekAt) with
          | none => simp [hex] at read
          | some code =>
              simp only [hex] at read
              split at read
              · cases read
              · cases read
                have ahead : Inside .double (c.skip 2) ((c.skip 2).lookAhead digits) :=
                  ⟨0, reads_of_eq rfl rfl, rfl⟩
                exact ⟨(pair.trans ahead).trans (inside_digits hex), by simp; omega⟩

/-- Blanks and breaks have no meaning of their own inside quotes. -/
theorem isOrdinary_of_blank {char : Char} (blank : isBlank char = true ∨ isBreak char = true) :
    isOrdinary char = true := by
  simp only [isBlank, isBreak, Bool.or_eq_true, beq_iff_eq] at blank
  rcases blank with (rfl | rfl) | (rfl | rfl) <;> decide

theorem inside_skipBlank {quote : Quote} {c : Cursor} (blank : isBlank c.peek = true) :
    Inside quote c (c.skipBlank 1) := by
  have plain := isBreakOrEnd_of_isBlank blank
  obtain ⟨rest, found⟩ := exists_cons_of_peek (Bool.or_eq_false_iff.1 plain).2
  refine .of_reads (reads_skipBlank_one plain) ?_
  rw [found]
  simpa using isOrdinary_of_blank (.inl blank)

theorem inside_skipBreak {quote : Quote} {c : Cursor} (broken : isBreak c.peek = true) :
    Inside quote c c.skipBreak := by
  refine .of_reads (reads_skipBreak c) fun char member => isOrdinary_of_blank (.inr ?_)
  have running : isEnd c.peek = false := by
    simp only [isBreak, Bool.or_eq_true, beq_iff_eq] at broken
    rcases broken with same | same <;> rw [same] <;> rfl
  obtain ⟨rest, found⟩ := exists_cons_of_peek running
  rw [found] at member
  rw [breakWidth] at member
  split at member
  · rename_i pair
    simp only [Bool.and_eq_true, beq_iff_eq] at pair
    cases rest with
    | nil => simp [peekAt, found] at pair
    | cons next rest =>
        have feed : next = '\n' := by simpa [peekAt, found] using pair.2
        simp only [List.take_succ_cons, List.take_zero, List.mem_cons, List.not_mem_nil,
          or_false] at member
        rcases member with rfl | rfl
        · exact broken
        · rw [feed]
          rfl
  · simp only [List.take_succ_cons, List.take_zero, List.mem_cons, List.not_mem_nil,
      or_false] at member
    rw [member]
    exact broken

theorem Inside.lookAhead {quote : Quote} {c : Cursor} (count : Nat) :
    Inside quote c (c.lookAhead count) :=
  ⟨0, reads_of_eq rfl rfl, rfl⟩

theorem Inside.one {quote : Quote} {c : Cursor} (plain : isBreakOrEnd c.peek = false)
    (other : c.peek ≠ quote.char) (escape : quote = .double → c.peek ≠ '\\') :
    Inside quote c (c.skip 1) := by
  obtain ⟨rest, found⟩ := exists_cons_of_peek (Bool.or_eq_false_iff.1 plain).2
  refine ⟨1, reads_skip_one plain, ?_⟩
  rw [rest_skip, found]
  exact restLength_cons other escape

/-- An escaped line break. -/
theorem inside_escapedBreak {c : Cursor} (slash : c.peek = '\\')
    (broken : isBreak (c.peekAt 1) = true) : Inside .double c (c.skip 1).skipBreak := by
  have plain : isBreakOrEnd c.peek = false := isBreakOrEnd_of_eq slash rfl
  obtain ⟨rest, found⟩ := exists_cons_of_peek (Bool.or_eq_false_iff.1 plain).2
  cases rest with
  | nil =>
      simp only [peekAt, found] at broken
      cases broken
  | cons next rest =>
      have ordinary : isOrdinary next = true := by
        simp only [peekAt, found] at broken
        exact isOrdinary_of_blank (.inr broken)
      have opened : Inside .double c (c.skip 1) := by
        refine ⟨1, reads_skip_one plain, ?_⟩
        have after : restLength .double (next :: rest) = restLength .double rest + 1 :=
          restLength_drop (k := 1) (by simpa using ordinary) (by simp)
        rw [rest_skip, found, slash, List.drop_succ_cons, List.drop_zero, after]
        simp [restLength, doubleQuotedLength]
      refine opened.trans (inside_skipBreak ?_)
      have second : (c.skip 1).peek = c.peekAt 1 := by
        rw [peek, rest_skip, peekAt, found]
        rfl
      rw [second]
      exact broken

def Closes (quote : Quote) (c : Cursor) : Prop :=
  c.peek = quote.char → restLength quote c.rest = 1

theorem closes_double (c : Cursor) : Closes .double c := by
  intro closing
  obtain ⟨rest, found⟩ := exists_cons_of_peek (c := c) (by rw [closing]; rfl)
  rw [found, closing]
  simp [restLength, doubleQuotedLength, Quote.char]

theorem closes_single {c : Cursor} (alone : c.peek = '\'' → c.peekAt 1 ≠ '\'') :
    Closes .single c := by
  intro closing
  obtain ⟨rest, found⟩ := exists_cons_of_peek (c := c) (by rw [closing]; rfl)
  have next := alone closing
  rw [found, closing, restLength, Quote.char, singleQuotedLength, if_pos rfl]
  rintro after - rfl
  exact next (by simp [peekAt, found])

theorem inside_readRun {quote : Quote} {start : Mark} {fuel : Nat} {c d : Cursor}
    {run : List Char} {escaped : Bool} (enough : c.rest.length < fuel)
    (read : readRun quote start fuel c = .ok (d, run, escaped)) :
    Inside quote c d ∧ Closes quote d := by
  induction fuel generalizing c run escaped with
  | zero => omega
  | succ fuel ih =>
      have ahead : Inside quote c (c.lookAhead 2) := .lookAhead 2
      have step {next : Cursor} {rest : List Char} {broken : Bool} (inside : Inside quote c next)
          (shorter : next.rest.length < c.rest.length)
          (more : readRun quote start fuel next = .ok (d, rest, broken)) :
          Inside quote c d ∧ Closes quote d := by
        obtain ⟨later, closes⟩ := ih (by omega) more
        exact ⟨inside.trans later, closes⟩
      simp only [readRun] at read
      split at read
      · rename_i apart
        cases read
        refine ⟨ahead, fun closing => ?_⟩
        rw [closing] at apart
        cases quote <;> cases apart
      · rename_i content
        simp only [isBlankBreakOrEnd, Bool.or_eq_true, not_or, Bool.not_eq_true] at content
        have plain : isBreakOrEnd c.peek = false := content.2
        have positive : 0 < c.rest.length := (reads_skip_one plain).le_length
        split at read
        · rename_i doubled
          simp only [Bool.and_eq_true, beq_iff_eq, decide_eq_true_eq] at doubled
          obtain ⟨⟨next, more, broken⟩, later, last⟩ := bind_eq_ok.1 read
          cases last
          have pair : Inside quote (c.lookAhead 2) ((c.lookAhead 2).skip 2) := by
            refine .pair (fun i below => ?_) (.inl ⟨doubled.1.1, doubled.1.2, doubled.2⟩)
            match i, below with
            | 0, _ =>
                rw [peekAt_zero]
                exact plain
            | 1, _ => exact isBreakOrEnd_of_eq doubled.2 rfl
          exact step (ahead.trans pair) (by simp; omega) later
        · rename_i single
          split at read
          · rename_i closing
            cases read
            refine ⟨ahead, ?_⟩
            cases quote with
            | single =>
                refine closes_single fun first second => single ?_
                simp [first, second]
            | double => exact closes_double _
          · rename_i other
            have other : c.peek ≠ quote.char := fun same => other (beq_iff_eq.2 same)
            split at read
            · rename_i slash
              simp only [Bool.and_eq_true, beq_iff_eq, decide_eq_true_eq] at slash
              obtain ⟨rfl, slash⟩ := slash
              split at read
              · rename_i broken
                cases read
                have further := ahead.trans (.lookAhead 3)
                exact ⟨further.trans (inside_escapedBreak slash broken), closes_double _⟩
              · obtain ⟨⟨next, char⟩, escape, read⟩ := bind_eq_ok.1 read
                obtain ⟨⟨after, more, broken⟩, later, last⟩ := bind_eq_ok.1 read
                cases last
                obtain ⟨inside, shorter⟩ := inside_readEscape slash escape
                exact step (ahead.trans inside) shorter later
            · rename_i slash
              obtain ⟨⟨next, more, broken⟩, later, last⟩ := bind_eq_ok.1 read
              cases last
              have one : Inside quote (c.lookAhead 2) ((c.lookAhead 2).skip 1) := by
                refine .one plain other fun double same => slash ?_
                rw [same]
                simp [double]
              exact step (ahead.trans one) (by simp; omega) later

theorem inside_skipGap {quote : Quote} {indent : Int} {fuel : Nat} {c d : Cursor} {gap last : Gap}
    (read : skipGap indent fuel c gap = .ok (d, last)) : Inside quote c d := by
  induction fuel generalizing c gap with
  | zero =>
      cases read
      exact .refl quote _
  | succ fuel ih =>
      rw [skipGap] at read
      split at read
      · rename_i blank
        split at read
        · exact (inside_skipBlank blank).trans (ih read)
        · obtain ⟨_, read⟩ := refuse_eq_ok.1 read
          exact (inside_skipBlank blank).trans (ih read)
      · split at read
        · rename_i broken
          have line : Inside quote c (c.lookAhead 2).skipBreak :=
            Inside.trans (.lookAhead 2) (inside_skipBreak broken)
          simp only at read
          split at read
          · exact line.trans (ih read)
          · exact line.trans (ih read)
        · cases read
          exact .refl quote _

theorem inside_readRuns {quote : Quote} {indent : Int} {start : Mark} {fuel : Nat} {c d : Cursor}
    {value : List Char} (read : readRuns quote indent start fuel c = .ok (d, value)) :
    Inside quote c d ∧ d.peek = quote.char ∧ restLength quote d.rest = 1 := by
  induction fuel generalizing c value with
  | zero => cases read
  | succ fuel ih =>
      simp only [readRuns] at read
      obtain ⟨_, read⟩ := refuse_eq_ok.1 read
      obtain ⟨_, read⟩ := refuse_eq_ok.1 read
      obtain ⟨_, read⟩ := refuse_eq_ok.1 read
      obtain ⟨⟨next, run, escaped⟩, first, read⟩ := bind_eq_ok.1 read
      obtain ⟨inside, closes⟩ := inside_readRun (Nat.lt_succ_self _) first
      have inside : Inside quote c next := Inside.trans (.lookAhead 4) inside
      simp only at read
      split at read
      · rename_i closing
        cases read
        exact ⟨inside, beq_iff_eq.1 closing, closes (beq_iff_eq.1 closing)⟩
      · obtain ⟨⟨between, gap⟩, blanks, read⟩ := bind_eq_ok.1 read
        obtain ⟨⟨last, more⟩, later, read⟩ := bind_eq_ok.1 read
        cases read
        obtain ⟨rest, closed⟩ := ih later
        exact ⟨(inside.trans (inside_skipGap blanks)).trans rest, closed⟩

/-- A quoted scalar is read to its end at least. -/
theorem reads_read {quote : Quote} {flow : Bool} {indent : Int} {c d : Cursor} {value : List Char}
    (opening : c.peek = quote.char) (found : read quote flow indent c = .ok (d, value)) :
    ∃ k, Reads k c d ∧ restLength quote (c.rest.drop 1) + 1 ≤ k := by
  obtain ⟨⟨last, content⟩, runs, found⟩ := bind_eq_ok.1 found
  obtain ⟨⟨after, gap⟩, blanks, found⟩ := bind_eq_ok.1 found
  cases (ensure_eq_ok.1 found).2
  have plain {cursor : Cursor} (same : cursor.peek = quote.char) :
      isBreakOrEnd cursor.peek = false := by
    rw [same]
    cases quote <;> rfl
  obtain ⟨inside, closing, one⟩ := inside_readRuns runs
  obtain ⟨j, middle, length⟩ := inside.leads
  obtain ⟨k, rest⟩ := leads_skipToLineEnd blanks
  refine ⟨_, ((reads_skip_one (plain opening)).trans middle).trans
    ((reads_skip_one (plain closing)).trans rest), ?_⟩
  rw [rest_skip] at length
  omega

end Quoted

end WorkflowScope.Yaml
