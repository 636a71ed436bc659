import WorkflowScope.Proofs.KeyPath.Reading

/-!
# Where reading fails

A reader that fails has come to the end of the text or to a character that it cannot take. What it
has taken can be completed to a piece of its kind, and the character it stopped at is refused
whatever follows it. Both pass from a reader to every reader that calls it, so the position of an
error is that of the first character with which no key path goes on.
-/

namespace WorkflowScope.KeyPath

/-! ## Beginnings of key paths -/

def Begins (text : List Char) : Prop :=
  ∃ accepted path, parse accepted = .ok path ∧ text <+: accepted.toList

/-- A text that is no key path, but with which one begins. -/
def Unfinished (text : List Char) : Prop :=
  ∃ accepted path, parse accepted = .ok path ∧ text <+: accepted.toList ∧ text ≠ accepted.toList

/-- The character at `position` is the first with which no key path goes on. -/
structure Offends (text : List Char) (position : Nat) : Prop where
  inside : position < text.length
  viable : Begins (text.take position)
  refused : ¬ Begins (text.take (position + 1))

/-- An error tells where a text goes wrong: at the character it names, or behind its end. -/
def Error.Locates (text : List Char) : Error → Prop
  | .empty | .unexpectedEnd _ => Unfinished text
  | .unexpectedChar position found _ => text[position]? = some found ∧ Offends text position
  | .unsupportedBracket position => Offends text position
  -- A backslash at the end has nothing behind it that could be wrong.
  | .invalidEscape position =>
      if ['\\'] <:+ text ∧ position + 1 = text.length then Unfinished text
      else Offends text position

/-! ## Readers that stop -/

/-- A reader of a text of `total` characters stops with an error behind what it has `taken`: at the
first character of what is `left`, or at the end. -/
inductive Stops (total : Nat) (taken : List Char) : List Char → Error → Prop where
  | empty : Stops total taken [] .empty
  | atEnd (expected : Expectation) : Stops total taken [] (.unexpectedEnd expected)
  | backslash (last : ['\\'] <:+ taken) : Stops total taken [] (.invalidEscape (total - 1))
  | character (c : Char) (rest : List Char) (expected : Expectation) :
      Stops total taken (c :: rest) (.unexpectedChar (total - (rest.length + 1)) c expected)
  | bracket (c : Char) (rest : List Char) :
      Stops total taken (c :: rest) (.unsupportedBracket (total - (rest.length + 1)))
  | escape {c : Char} (rest : List Char) (other : c ≠ '\\') :
      Stops total taken (c :: rest) (.invalidEscape (total - (rest.length + 1)))

/-- A reader of a kind of pieces fails on a text: what it has taken begins a piece of its kind, and
it takes no text that goes on with the character at which it stopped. -/
inductive Breaks {α : Type} (read : Nat → List Char → Except Error α) (piece : List Char → Prop)
    (total : Nat) : List Char → Error → Prop where
  | intro (taken : List Char) {left : List Char} {error : Error}
      (stops : Stops total taken left error)
      (viable : ∃ more, piece (taken ++ more))
      (refused : ∀ c ∈ left.head?, ∀ total other a, read total (taken ++ c :: other) ≠ .ok a) :
      Breaks read piece total (taken ++ left) error

variable {α β : Type} {total : Nat} {text : List Char} {segment : Segment} {error : Error}

theorem Stops.under {taken left : List Char} (stops : Stops total taken left error)
    (front : List Char) : Stops total (front ++ taken) left error := by
  cases stops with
  | empty => exact .empty
  | atEnd expected => exact .atEnd expected
  | backslash last => exact .backslash (last.trans (List.suffix_append front taken))
  | character c rest expected => exact .character c rest expected
  | bracket c rest => exact .bracket c rest
  | escape rest other => exact .escape rest other

theorem stops_of_unexpected {taken left : List Char} {expected : Expectation}
    (failed : (unexpected total expected left : Except Error α) = .error error) :
    Stops total taken left error := by
  cases left with
  | nil =>
      cases failed
      exact .atEnd expected
  | cons c rest =>
      cases failed
      exact .character c rest expected

/-- At the end of the text there is no character that could be refused. -/
theorem breaks_at_end {read : Nat → List Char → Except Error α} {piece : List Char → Prop}
    (taken : List Char) (stops : Stops total taken [] error)
    (viable : ∃ more, piece (taken ++ more)) : Breaks read piece total (taken ++ []) error :=
  .intro taken stops viable (by simp)

/-- A reader that finds something unexpected must not take what begins with it. -/
theorem breaks_unexpected {read : Nat → List Char → Except Error α} {piece : List Char → Prop}
    {left : List Char} {expected : Expectation} (taken : List Char)
    (failed : (unexpected total expected left : Except Error β) = .error error)
    (viable : ∃ more, piece (taken ++ more))
    (refused : ∀ c rest, left = c :: rest →
      ∀ total other a, read total (taken ++ c :: other) ≠ .ok a) :
    Breaks read piece total (taken ++ left) error := by
  refine .intro taken (stops_of_unexpected failed) viable ?_
  intro c first
  obtain ⟨rest, same⟩ := List.head?_eq_some_iff.1 first
  exact refused c rest same

theorem head?_ne_of_forall {c : Char} (other : ∀ rest, text ≠ c :: rest) : text.head? ≠ some c := by
  intro head
  obtain ⟨rest, same⟩ := List.head?_eq_some_iff.1 head
  exact other rest same

/-- A reader that calls another behind a part that stands in front fails where the other does. -/
theorem Breaks.under {inner : Nat → List Char → Except Error α}
    {outer : Nat → List Char → Except Error β} {part whole : List Char → Prop}
    (breaks : Breaks inner part total text error) (front : List Char)
    (completes : ∀ t, part t → ∃ more, whole (front ++ (t ++ more)))
    (passes : ∀ total t b, t.head? = text.head? → outer total (front ++ t) = .ok b →
      ∃ total a, inner total t = .ok a) :
    Breaks outer whole total (front ++ text) error := by
  cases breaks with | @intro taken left _ stops viable refused
  rw [← List.append_assoc]
  refine .intro _ (stops.under front) ?_ ?_
  · obtain ⟨more, viable⟩ := viable
    obtain ⟨further, completed⟩ := completes _ viable
    exact ⟨more ++ further, by simpa only [List.append_assoc] using completed⟩
  · intro c first total other b read
    rw [List.append_assoc] at read
    have sameHead : (taken ++ c :: other).head? = (taken ++ left).head? := by
      simp only [List.head?_append, List.head?_cons, Option.mem_def.1 first]
    obtain ⟨total, a, inside⟩ := passes total _ b sameHead read
    exact refused c first total other a inside

/-! ## Names -/

/-- A segment without brackets that does not look like a root marker, with white characters in
front of it. -/
def IsDotted (text : List Char) : Prop :=
  ∃ before dotted segment, White before ∧ Dotted dotted segment ∧ dotted.head? ≠ some '$' ∧
    text = before ++ dotted

theorem dotted_a : Dotted ['a'] (.key (String.ofList ['a'])) :=
  .name (List.cons_ne_nil _ _) (by simp [NameChar]; decide)

theorem isDotted_a {before : List Char} (white : White before) : IsDotted (before ++ ['a']) :=
  ⟨before, ['a'], _, white, dotted_a, by decide, rfl⟩

theorem readDotted_ne_ok {before other : List Char} {c : Char} {a : Segment × List Char}
    (white : White before) (solid : Text.isWhite c = false) (star : c ≠ '*')
    (stop : Segment.isKeyChar c = false) :
    readDotted total (before ++ c :: other) ≠ .ok a := by
  rw [readDotted, skipWhite_append_cons white solid]
  split
  · next same => exact absurd (List.cons.inj same).1 star
  · simp only [readName, List.takeWhile_cons, stop, Bool.false_eq_true, if_false,
      List.isEmpty_nil, if_true]
    exact unexpected_ne_ok

theorem breaks_readDotted (failed : readDotted total text = .error error) :
    Breaks readDotted IsDotted total text error := by
  obtain ⟨before, white, same⟩ := exists_white text
  rw [readDotted] at failed
  split at failed
  · cases failed
  · next star =>
      rw [readName] at failed
      split at failed
      · next nameless =>
          rw [same]
          refine breaks_unexpected _ failed ⟨['a'], isDotted_a white⟩ ?_
          intro c rest skipped total other a
          refine readDotted_ne_ok white (solid_of_skipWhite skipped) ?_ ?_
          · rintro rfl
            exact star rest skipped
          · simpa [skipped, List.takeWhile_cons] using nameless
      · cases failed

/-! ## Quotes -/

/-- What stands behind an opening quote, up to the closing one. -/
def IsQuoted (quote : Char) (text : List Char) : Prop :=
  ∃ body value, Body quote body value ∧ text = body ++ [quote]

theorem IsQuoted.escape {quote escaped c : Char} (meaning : Escape escaped c)
    (quoted : IsQuoted quote text) : IsQuoted quote ('\\' :: escaped :: text) := by
  obtain ⟨body, value, derived, rfl⟩ := quoted
  exact ⟨_, _, .escape meaning derived, rfl⟩

theorem IsQuoted.char {quote c : Char} (other : c ≠ quote) (plain : c ≠ '\\')
    (quoted : IsQuoted quote text) : IsQuoted quote (c :: text) := by
  obtain ⟨body, value, derived, rfl⟩ := quoted
  exact ⟨_, _, .char other plain derived, rfl⟩

theorem isQuoted_nil (quote : Char) : IsQuoted quote [quote] :=
  ⟨[], [], .nil, rfl⟩

theorem breaks_readQuoted {quote : Char} (failed : readQuoted total quote text = .error error) :
    Breaks (fun total text => readQuoted total quote text) (IsQuoted quote) total text error := by
  fun_induction readQuoted total quote text with
  | case1 =>
      cases failed
      exact breaks_at_end [] (.atEnd _) ⟨[quote], isQuoted_nil quote⟩
  | case2 => cases failed
  | case3 =>
      -- The text ends with a backslash.
      cases failed
      exact breaks_at_end ['\\'] (.backslash (List.suffix_refl _))
        ⟨['n', quote], (isQuoted_nil quote).escape .lineFeed⟩
  | case4 escaped rest meaningless other =>
      cases failed
      refine .intro ['\\'] (.escape rest ?_) ?_ ?_
      · rintro rfl
        cases meaningless
      · exact ⟨['n', quote], (isQuoted_nil quote).escape .lineFeed⟩
      · rintro c ⟨⟩ total further a
        rw [List.singleton_append, readQuoted.eq_def]
        simp [if_neg other, meaningless]
  | case5 escaped rest c meaning other ih =>
      rcases bind_eq_error.1 failed with inner | ⟨_, _, done⟩
      · refine (ih inner).under ['\\', escaped] ?_ ?_
        · intro t quoted
          exact ⟨[], by simpa using quoted.escape (unescape?_eq_some_iff.1 meaning)⟩
        · intro total t b _ read
          simp only [List.cons_append, List.nil_append] at read
          rw [readQuoted.eq_def] at read
          simp only [if_neg other, if_true, meaning] at read
          obtain ⟨a, inner, -⟩ := bind_eq_ok.1 read
          exact ⟨total, a, inner⟩
      · cases done
  | case6 c rest other plain ih =>
      rcases bind_eq_error.1 failed with inner | ⟨_, _, done⟩
      · refine (ih inner).under [c] ?_ ?_
        · intro t quoted
          exact ⟨[], by simpa using quoted.char other plain⟩
        · intro total t b _ read
          rw [List.singleton_append, readQuoted.eq_def] at read
          simp only [if_neg other, if_neg plain] at read
          obtain ⟨a, inner, -⟩ := bind_eq_ok.1 read
          exact ⟨total, a, inner⟩
      · cases done

/-! ## Brackets -/

def IsClosing (text : List Char) : Prop :=
  ∃ behind, White behind ∧ text = behind ++ [']']

/-- What stands behind an opening bracket, up to the closing one. -/
def IsBracket (text : List Char) : Prop :=
  ∃ segment, Bracket ('[' :: text) segment

theorem isBracket_star {before closing : List Char} (white : White before)
    (closes : IsClosing closing) : IsBracket (before ++ '*' :: closing) := by
  obtain ⟨behind, trailing, rfl⟩ := closes
  exact ⟨_, .wildcard white trailing⟩

theorem isBracket_quoted {before quoted closing : List Char} {quote : Char} (white : White before)
    (isQuote : quote = '\'' ∨ quote = '"') (inner : IsQuoted quote quoted)
    (closes : IsClosing closing) : IsBracket (before ++ quote :: (quoted ++ closing)) := by
  obtain ⟨behind, trailing, rfl⟩ := closes
  obtain ⟨body, value, derived, rfl⟩ := inner
  exact ⟨_, .quoted white (.key isQuote derived) trailing⟩

theorem isClosing_bracket : IsClosing [']'] :=
  ⟨[], white_nil, rfl⟩

theorem breaks_closeBracket (failed : closeBracket total segment text = .error error) :
    Breaks (fun total text => closeBracket total segment text) IsClosing total text error := by
  obtain ⟨behind, white, same⟩ := exists_white text
  rw [closeBracket] at failed
  split at failed
  · cases failed
  · next open_ =>
      rw [same]
      refine breaks_unexpected _ failed ⟨[']'], behind, white, rfl⟩ ?_
      intro c rest skipped total other a
      rw [closeBracket, skipWhite_append_cons white (solid_of_skipWhite skipped)]
      split
      · next closed =>
          obtain ⟨rfl, -⟩ := List.cons.inj closed
          exact absurd skipped (open_ rest)
      · exact unexpected_ne_ok

/-- What may stand behind an opening bracket and white characters. -/
theorem opens_of_readBracket {before other : List Char} {c : Char} {a : Segment × List Char}
    (white : White before) (solid : Text.isWhite c = false)
    (read : readBracket total (before ++ c :: other) = .ok a) :
    (c = '*' ∧ closeBracket total .wildcard other = .ok a) ∨
      ((c = '\'' ∨ c = '"') ∧ ∃ name after, readQuoted total c other = .ok (name, after) ∧
        closeBracket total (.key (String.ofList name)) after = .ok a) := by
  rw [readBracket, skipWhite_append_cons white solid] at read
  split at read
  · cases read
  · next same =>
      cases same
      exact .inl ⟨rfl, read⟩
  · next same =>
      cases same
      split at read
      · next isQuote =>
          obtain ⟨⟨name, after⟩, quoted, closed⟩ := bind_eq_ok.1 read
          exact .inr ⟨isQuote, name, after, quoted, closed⟩
      · cases read

/-- A bracket with a quoted key fails in the key or behind it. -/
theorem breaks_quotedBracket {before rest : List Char} {quote : Char} (white : White before)
    (isQuote : quote = '\'' ∨ quote = '"')
    (failed : (do
      let (name, after) ← readQuoted total quote rest
      closeBracket total (.key (String.ofList name)) after) = .error error) :
    Breaks readBracket IsBracket total (before ++ quote :: rest) error := by
  have plain : quote ≠ '\\' := by rcases isQuote with rfl | rfl <;> decide
  have other : quote ≠ '*' := by rcases isQuote with rfl | rfl <;> decide
  have solid : Text.isWhite quote = false := by rcases isQuote with rfl | rfl <;> decide
  rcases bind_eq_error.1 failed with inKey | ⟨⟨name, after⟩, read, behindKey⟩
  · rw [List.append_cons]
    refine (breaks_readQuoted inKey).under (before ++ [quote]) ?_ ?_
    · intro t quoted
      exact ⟨[']'], by simpa using isBracket_quoted white isQuote quoted isClosing_bracket⟩
    · intro total t a _ read
      rw [List.append_assoc, List.singleton_append] at read
      rcases opens_of_readBracket white solid read with ⟨same, _⟩ | ⟨_, _, _, quoted, _⟩
      · exact absurd same other
      · exact ⟨total, _, quoted⟩
  · obtain ⟨body, derived, rfl⟩ := body_of_readQuoted read
    have parts : before ++ quote :: (body ++ quote :: after) =
        (before ++ quote :: (body ++ [quote])) ++ after := by simp
    rw [parts]
    refine (breaks_closeBracket behindKey).under _ ?_ ?_
    · intro t closes
      have quoted : IsQuoted quote (body ++ [quote]) := ⟨body, name, derived, rfl⟩
      exact ⟨[], by simpa using isBracket_quoted white isQuote quoted closes⟩
    · intro total t a _ read
      simp only [List.append_assoc, List.cons_append, List.nil_append] at read
      rcases opens_of_readBracket white solid read with ⟨same, _⟩ | ⟨_, _, _, quoted, closed⟩
      · exact absurd same other
      · rw [readQuoted_append plain derived] at quoted
        cases quoted
        exact ⟨total, a, closed⟩

theorem breaks_readBracket (failed : readBracket total text = .error error) :
    Breaks readBracket IsBracket total text error := by
  obtain ⟨before, white, same⟩ := exists_white text
  rw [readBracket] at failed
  split at failed
  · next skipped =>
      cases failed
      rw [same, skipped]
      exact breaks_at_end _ (.atEnd _) ⟨['*', ']'], isBracket_star white isClosing_bracket⟩
  · next rest skipped =>
      rw [same, skipped, List.append_cons]
      refine (breaks_closeBracket failed).under (before ++ ['*']) ?_ ?_
      · intro t closes
        exact ⟨[], by simpa using isBracket_star white closes⟩
      · intro total t a _ read
        rw [List.append_assoc, List.singleton_append] at read
        rcases opens_of_readBracket white (by decide) read with ⟨_, closed⟩ | ⟨isQuote, _⟩
        · exact ⟨total, a, closed⟩
        · simp at isQuote
  · next c rest star skipped =>
      rw [same, skipped]
      split at failed
      · next isQuote => exact breaks_quotedBracket white isQuote failed
      · next notQuote =>
          cases failed
          refine .intro _ (.bracket c rest) ⟨['*', ']'], isBracket_star white isClosing_bracket⟩ ?_
          rintro d ⟨⟩ total other a read
          rcases opens_of_readBracket white (solid_of_skipWhite skipped) read with
            ⟨same, _⟩ | ⟨isQuote, _⟩
          · exact star same
          · exact notQuote isQuote

/-! ## The first segment -/

theorem breaks_readFirst (failed : readFirst total text = .error error) :
    Breaks readFirst (fun t => ∃ segment, First t segment ∧ Start t segment) total text error := by
  rw [readFirst.eq_def] at failed
  split at failed
  · next rest =>
      refine (breaks_readBracket failed).under ['['] ?_ ?_
      · rintro t ⟨segment, inner⟩
        exact ⟨[], segment, by simpa using ⟨First.bracket inner, Start.bracket inner⟩⟩
      · intro total t a _ read
        exact ⟨total, a, read⟩
  · next unbracketed =>
      refine (breaks_readDotted failed).under [] ?_ ?_
      · rintro t ⟨before, dotted, segment, white, inner, unmarked, rfl⟩
        exact ⟨[], segment, by
          simpa using ⟨First.dotted white inner, Start.dotted white inner unmarked⟩⟩
      · intro total t a sameHead read
        rw [List.nil_append, readFirst_of_head_ne] at read
        · exact ⟨total, a, read⟩
        · rw [sameHead]
          exact head?_ne_of_forall unbracketed

/-- Reads a root marker, if there is one, and the first segment. -/
def readStart (total : Nat) (text : List Char) : Except Error (Segment × List Char) := do
  let inner ← readRoot total text
  readFirst total inner

theorem readStart_unmarked {total : Nat} (unmarked : text.head? ≠ some '$') :
    readStart total text = readFirst total text := by
  cases text with
  | nil => rfl
  | cons c rest =>
      rw [readStart, readRoot_of_ne (by simpa using unmarked)]
      rfl

theorem readStart_dot {between : List Char} (white : White between) :
    readStart total ('$' :: (between ++ '.' :: text)) = readFirst total text := by
  rw [readStart, readRoot, skipWhite_append_cons white (by decide)]
  rfl

theorem readStart_bracket {between : List Char} (white : White between) :
    readStart total ('$' :: (between ++ '[' :: text)) = readBracket total text := by
  rw [readStart, readRoot, skipWhite_append_cons white (by decide)]
  rfl

theorem readStart_ne_ok {between : List Char} {c : Char} {a : Segment × List Char}
    (white : White between) (solid : Text.isWhite c = false) (dot : c ≠ '.') (bracket : c ≠ '[') :
    readStart total ('$' :: (between ++ c :: text)) ≠ .ok a := by
  intro read
  obtain ⟨inner, rooted, _⟩ := bind_eq_ok.1 read
  rw [readRoot, skipWhite_append_cons white solid] at rooted
  split at rooted
  · next same => exact dot (List.cons.inj same).1
  · next same => exact bracket (List.cons.inj same).1
  · next none => cases none
  · exact unexpected_ne_ok rooted

theorem first_a : First ['a'] (.key (String.ofList ['a'])) :=
  @First.dotted [] _ _ white_nil dotted_a

/-- Behind a root marker reading fails at what is neither dot nor bracket, or in the segment. -/
theorem breaks_marked (failed : readStart total ('$' :: text) = .error error) :
    Breaks readStart (fun t => ∃ segment, Start t segment) total ('$' :: text) error := by
  obtain ⟨between, white, same⟩ := exists_white text
  have viable : ∃ more, ∃ segment, Start ('$' :: between ++ more) segment :=
    ⟨['.', 'a'], _, .rootDot white first_a⟩
  rw [readStart, readRoot] at failed
  split at failed
  · next after skipped =>
      have parts : '$' :: text = '$' :: (between ++ ['.']) ++ after := by simp [← skipped, ← same]
      rw [parts]
      refine (breaks_readFirst failed).under _ ?_ ?_
      · rintro t ⟨segment, first, _⟩
        exact ⟨[], segment, by simpa using Start.rootDot white first⟩
      · intro total t a _ read
        simp only [List.cons_append, List.append_assoc, List.nil_append,
          readStart_dot white] at read
        exact ⟨total, a, read⟩
  · next after skipped =>
      have parts : '$' :: text = '$' :: (between ++ ['[']) ++ after := by simp [← skipped, ← same]
      rw [parts]
      refine (breaks_readBracket failed).under _ ?_ ?_
      · rintro t ⟨segment, inner⟩
        exact ⟨[], segment, by simpa using Start.rootBracket white inner⟩
      · intro total t a _ read
        simp only [List.cons_append, List.append_assoc, List.nil_append,
          readStart_bracket white] at read
        exact ⟨total, a, read⟩
  · next skipped =>
      cases failed
      rw [same, skipped]
      exact breaks_at_end ('$' :: between) (.atEnd _) viable
  · next dot bracket none =>
      rcases bind_eq_error.1 failed with failed | ⟨_, read, _⟩
      · rw [same]
        refine breaks_unexpected ('$' :: between) failed viable ?_
        intro c rest skipped total other a
        refine readStart_ne_ok white (solid_of_skipWhite skipped) ?_ ?_
        · rintro rfl
          exact dot rest skipped
        · rintro rfl
          exact bracket rest skipped
      · exact absurd read unexpected_ne_ok

theorem breaks_readStart (failed : readStart total text = .error error) :
    Breaks readStart (fun t => ∃ segment, Start t segment) total text error := by
  by_cases marked : text.head? = some '$'
  · obtain ⟨rest, rfl⟩ := List.head?_eq_some_iff.1 marked
    exact breaks_marked failed
  · rw [readStart_unmarked marked] at failed
    refine (breaks_readFirst failed).under [] ?_ ?_
    · rintro t ⟨segment, _, start⟩
      exact ⟨[], segment, by simpa using start⟩
    · intro total t a sameHead read
      rw [List.nil_append, readStart_unmarked (sameHead ▸ marked)] at read
      exact ⟨total, a, read⟩

/-! ## Segments that have been read

What a reader takes in front of a text it takes in front of every text that begins alike. -/

variable {after other : List Char}

theorem ends_of_readName (read : readName total text = .ok (segment, after)) : Ends after := by
  rw [readName] at read
  split at read
  · exact absurd read unexpected_ne_ok
  · cases read
    intro c first
    have stop := List.head?_dropWhile_not Segment.isKeyChar text
    rw [Option.mem_def.1 first] at stop
    simpa using stop

theorem readDotted_like (read : readDotted total text = .ok (segment, after)) :
    ∃ before dotted, White before ∧ Dotted dotted segment ∧ text = before ++ (dotted ++ after) ∧
      ∀ total t, t.head? = after.head? →
        readDotted total (before ++ (dotted ++ t)) = .ok (segment, t) := by
  obtain ⟨before, white, same⟩ := exists_white text
  have whole := read
  rw [readDotted] at read
  split at read
  · next rest skipped =>
      cases read
      refine ⟨before, ['*'], white, .wildcard, by rw [same, skipped]; rfl, ?_⟩
      intro total t _
      rw [List.singleton_append, readDotted, skipWhite_append_cons white (by decide)]
      rfl
  · obtain ⟨name, dotted, split⟩ := dotted_of_readName read
    refine ⟨before, name, white, dotted, by rw [← split, ← same], ?_⟩
    intro total t like
    apply readDotted_append white dotted
    rw [Ends, like]
    exact ends_of_readName read

theorem readBracket_like (read : readBracket total text = .ok (segment, after)) :
    ∃ inside, Bracket ('[' :: inside) segment ∧ text = inside ++ after ∧
      ∀ total t, readBracket total (inside ++ t) = .ok (segment, t) := by
  obtain ⟨inside, inner, same⟩ := bracket_of_readBracket read
  exact ⟨inside, inner, same, fun _ _ => readBracket_append inner⟩

theorem head?_append_like (front : List Char) (like : other.head? = after.head?) :
    (front ++ other).head? = (front ++ after).head? := by
  rw [List.head?_append, List.head?_append, like]

theorem readFirst_like (read : readFirst total text = .ok (segment, after)) :
    ∃ first, text = first ++ after ∧ ∀ total t, t.head? = after.head? →
      readFirst total (first ++ t) = .ok (segment, t) := by
  rw [readFirst.eq_def] at read
  split at read
  · obtain ⟨inside, inner, rfl, like⟩ := readBracket_like read
    exact ⟨'[' :: inside, rfl, fun total t _ => like total t⟩
  · next unbracketed =>
      obtain ⟨before, dotted, white, inner, rfl, like⟩ := readDotted_like read
      refine ⟨before ++ dotted, by simp, ?_⟩
      intro total t same
      rw [List.append_assoc, readFirst_of_head_ne, like total t same]
      rw [← List.append_assoc, head?_append_like _ same, List.append_assoc]
      exact head?_ne_of_forall unbracketed

theorem readStart_like {start : List Char}
    (read : readStart total (start ++ after) = .ok (segment, after))
    (like : other.head? = after.head?) (total' : Nat) :
    readStart total' (start ++ other) = .ok (segment, other) := by
  by_cases marked : (start ++ after).head? = some '$'
  · obtain ⟨rest, same⟩ := List.head?_eq_some_iff.1 marked
    obtain ⟨between, white, split⟩ := exists_white rest
    rw [same, readStart, readRoot] at read
    split at read
    · next inner skipped =>
        obtain ⟨first, rfl, taken⟩ := readFirst_like read
        have parts : start ++ after = '$' :: (between ++ '.' :: first) ++ after := by
          rw [same, split, skipped]
          simp
        rw [List.append_cancel_right parts, List.cons_append, List.append_assoc, List.cons_append,
          readStart_dot white]
        exact taken total' other like
    · next inner skipped =>
        obtain ⟨inside, _, rfl, taken⟩ := readBracket_like read
        have parts : start ++ after = '$' :: (between ++ '[' :: inside) ++ after := by
          rw [same, split, skipped]
          simp
        rw [List.append_cancel_right parts, List.cons_append, List.append_assoc, List.cons_append,
          readStart_bracket white]
        exact taken total' other
    · cases read
    · obtain ⟨_, rooted, _⟩ := bind_eq_ok.1 read
      exact absurd rooted unexpected_ne_ok
  · rw [readStart_unmarked marked] at read
    obtain ⟨first, parts, taken⟩ := readFirst_like read
    obtain rfl := List.append_cancel_right parts
    rw [readStart_unmarked (by rwa [head?_append_like _ like])]
    exact taken total' other like

/-! ## Further segments -/

theorem readRest_dot {fuel : Nat} {before : List Char} (white : White before) :
    readRest total (fuel + 1) (before ++ '.' :: text) = (do
      let (segment, after) ← readDotted total text
      let more ← readRest total fuel after
      .ok (segment :: more)) := by
  rw [readRest, skipWhite_append_cons white (by decide)]
  rfl

theorem readRest_bracket {fuel : Nat} {before : List Char} (white : White before) :
    readRest total (fuel + 1) (before ++ '[' :: text) = (do
      let (segment, after) ← readBracket total text
      let more ← readRest total fuel after
      .ok (segment :: more)) := by
  rw [readRest, skipWhite_append_cons white (by decide)]
  rfl

theorem readRest_ne_ok {fuel : Nat} {before : List Char} {c : Char} {segments : List Segment}
    (white : White before) (solid : Text.isWhite c = false) (dot : c ≠ '.') (bracket : c ≠ '[') :
    readRest total (fuel + 1) (before ++ c :: text) ≠ .ok segments := by
  rw [readRest, skipWhite_append_cons white solid]
  split
  · next none => cases none
  · next same => exact absurd (List.cons.inj same).1 dot
  · next same => exact absurd (List.cons.inj same).1 bracket
  · exact unexpected_ne_ok

/-- Reading of further segments fails at a separator, in a segment, or behind a segment that it has
read. -/
theorem readRest_error_cases {fuel : Nat} (failed : readRest total (fuel + 1) text = .error error) :
    (unexpected (α := List Segment) total .separator (skipWhite text) = .error error ∧
        (skipWhite text).head? ≠ some '.' ∧ (skipWhite text).head? ≠ some '[') ∨
      (∃ rest, skipWhite text = '.' :: rest ∧ readDotted total rest = .error error) ∨
      (∃ rest, skipWhite text = '[' :: rest ∧ readBracket total rest = .error error) ∨
      ∃ segment link after, Link link segment ∧ text = link ++ after ∧
        readRest total fuel after = .error error ∧
        ∀ total fuel t, t.head? = after.head? → readRest total (fuel + 1) (link ++ t) =
          readRest total fuel t >>= fun more => .ok (segment :: more) := by
  obtain ⟨before, leading, same⟩ := exists_white text
  rw [readRest] at failed
  split at failed
  · cases failed
  · next rest skipped =>
      rcases bind_eq_error.1 failed with dotted | ⟨⟨segment, after⟩, dotted, later⟩
      · exact .inr (.inl ⟨rest, skipped, dotted⟩)
      · obtain ⟨behind, name, trailing, inner, rfl, like⟩ := readDotted_like dotted
        rcases bind_eq_error.1 later with later | ⟨_, _, done⟩
        · refine .inr (.inr (.inr
            ⟨segment, _, after, .dotted leading trailing inner, ?_, later, ?_⟩))
          · rw [same, skipped]
            simp
          · intro total fuel t sameHead
            rw [List.append_assoc, List.cons_append, List.append_assoc, readRest_dot leading]
            simp only [like total t sameHead, ok_bind]
        · cases done
  · next rest skipped =>
      rcases bind_eq_error.1 failed with bracket | ⟨⟨segment, after⟩, bracket, later⟩
      · exact .inr (.inr (.inl ⟨rest, skipped, bracket⟩))
      · obtain ⟨inside, inner, rfl, like⟩ := readBracket_like bracket
        rcases bind_eq_error.1 later with later | ⟨_, _, done⟩
        · refine .inr (.inr (.inr ⟨segment, _, after, .bracket leading inner, ?_, later, ?_⟩))
          · rw [same, skipped]
            simp
          · intro total fuel t _
            rw [List.append_assoc, List.cons_append, readRest_bracket leading]
            simp only [like total t, ok_bind]
        · cases done
  · next dot bracket =>
      exact .inl ⟨failed, head?_ne_of_forall dot, head?_ne_of_forall bracket⟩

theorem Link.rest {link : List Char} (inner : Link link segment) : Rest link [segment] := by
  simpa using Rest.cons inner .nil

/-- Reading goes on alike with any number of steps that is enough. -/
theorem readRest_of_enough {fuel enough : Nat} {segments : List Segment}
    (few : text.length < fuel) (read : readRest total fuel text = .ok segments)
    (many : text.length < enough) (total' : Nat) : readRest total' enough text = .ok segments := by
  obtain ⟨rest, behind, derived, white, rfl⟩ := rest_of_readRest few read
  exact readRest_append derived white many

theorem breaks_readRest {fuel : Nat} (enough : text.length < fuel)
    (failed : readRest total fuel text = .error error) :
    Breaks (fun total t => readRest total (t.length + 1) t) (fun t => ∃ segments, Rest t segments)
      total text error := by
  induction fuel generalizing text with
  | zero => omega
  | succ fuel ih =>
      obtain ⟨before, white, same⟩ := exists_white text
      rcases readRest_error_cases failed with ⟨failed, dot, bracket⟩ | ⟨rest, skipped, failed⟩ |
        ⟨rest, skipped, failed⟩ | ⟨segment, link, after, inner, rfl, failed, like⟩
      · rw [same]
        refine breaks_unexpected _ failed ?_ ?_
        · exact ⟨['.', 'a'], _, (Link.dotted white white_nil dotted_a).rest⟩
        · intro c rest skipped total other a
          rw [skipped] at dot bracket
          exact readRest_ne_ok white (solid_of_skipWhite skipped) (by simpa using dot)
            (by simpa using bracket)
      · have parts : text = (before ++ ['.']) ++ rest := by simp [← skipped, ← same]
        rw [parts]
        refine (breaks_readDotted failed).under _ ?_ ?_
        · rintro t ⟨behind, dotted, segment, trailing, inner, _, rfl⟩
          exact ⟨[], [segment], by simpa using (Link.dotted white trailing inner).rest⟩
        · intro total t segments _ read
          rw [List.append_assoc, List.singleton_append, readRest_dot white] at read
          obtain ⟨a, dotted, _⟩ := bind_eq_ok.1 read
          exact ⟨total, a, dotted⟩
      · have parts : text = (before ++ ['[']) ++ rest := by simp [← skipped, ← same]
        rw [parts]
        refine (breaks_readBracket failed).under _ ?_ ?_
        · rintro t ⟨segment, inner⟩
          exact ⟨[], [segment], by simpa using (Link.bracket white inner).rest⟩
        · intro total t segments _ read
          rw [List.append_assoc, List.singleton_append, readRest_bracket white] at read
          obtain ⟨a, bracket, _⟩ := bind_eq_ok.1 read
          exact ⟨total, a, bracket⟩
      · have shorter := @length_lt_of_link after segment link inner
        refine (ih (by omega) failed).under link ?_ ?_
        · rintro t ⟨segments, rest⟩
          exact ⟨[], segment :: segments, by simpa using Rest.cons inner rest⟩
        · intro total t segments sameHead read
          have longer := @length_lt_of_link t segment link inner
          rw [like total _ t sameHead] at read
          obtain ⟨more, later, _⟩ := bind_eq_ok.1 read
          exact ⟨total, more, readRest_of_enough longer later (Nat.lt_succ_self _) total⟩

/-! ## Key paths -/

theorem parseChars_eq {c : Char} {rest : List Char} (skipped : skipWhite text = c :: rest) :
    parseChars text = (do
      let (first, after) ← readStart text.length (c :: rest)
      let more ← readRest text.length (text.length + 1) after
      .ok ⟨first :: more⟩) := by
  rw [parseChars_of_skipWhite skipped, readStart]
  cases readRoot text.length (c :: rest) <;> rfl

theorem Start.denotes {before start rest : List Char} {segments : List Segment}
    (white : White before) (derived : Start start segment) (more : Rest rest segments) :
    Denotes (before ++ (start ++ rest)) (segment :: segments) := by
  simpa using Denotes.path white derived more white_nil

/-- What has been read of an accepted text. -/
theorem exists_of_parseChars {before : List Char} {path : KeyPath} (white : White before)
    (solid : ∀ c ∈ text.head?, Text.isWhite c = false)
    (read : parseChars (before ++ text) = .ok path) :
    ∃ first after more, readStart (before ++ text).length text = .ok (first, after) ∧
      readRest (before ++ text).length ((before ++ text).length + 1) after = .ok more := by
  cases text with
  | nil =>
      rw [List.append_nil, parseChars, skipWhite_white white] at read
      cases read
  | cons c rest =>
      rw [parseChars_eq (skipWhite_append_cons white (solid c rfl))] at read
      obtain ⟨⟨first, after⟩, start, read⟩ := bind_eq_ok.1 read
      obtain ⟨more, later, _⟩ := bind_eq_ok.1 read
      exact ⟨first, after, more, start, later⟩

theorem solid_of_sameHead {c : Char} {rest : List Char} (solid : Text.isWhite c = false)
    (sameHead : text.head? = (c :: rest).head?) : ∀ d ∈ text.head?, Text.isWhite d = false := by
  rintro d first
  rw [sameHead] at first
  cases first
  exact solid

/-- Behind the first segment reading fails where the reader of further segments does. -/
theorem breaks_behindStart {before start : List Char} (white : White before)
    (solid : ∀ c ∈ (start ++ after).head?, Text.isWhite c = false)
    (read : readStart total (start ++ after) = .ok (segment, after)) (derived : Start start segment)
    (breaks : Breaks (fun total t => readRest total (t.length + 1) t)
      (fun t => ∃ segments, Rest t segments) total after error) :
    Breaks (fun _ t => parseChars t) (fun t => ∃ segments, Denotes t segments) total
      (before ++ (start ++ after)) error := by
  rw [← List.append_assoc]
  refine breaks.under (before ++ start) ?_ ?_
  · rintro t ⟨segments, more⟩
    exact ⟨[], segment :: segments, by simpa using derived.denotes white more⟩
  · intro _ t path sameHead accepted
    rw [List.append_assoc] at accepted
    obtain ⟨_, left, more, begun, later⟩ := exists_of_parseChars white
      (by rwa [head?_append_like start sameHead]) accepted
    rw [readStart_like read sameHead] at begun
    cases begun
    have enough : t.length < (before ++ (start ++ t)).length + 1 := by
      simp only [List.length_append]
      omega
    exact ⟨0, more, readRest_of_enough enough later (Nat.lt_succ_self _) 0⟩

theorem breaks_parseChars (failed : parseChars text = .error error) :
    Breaks (fun _ t => parseChars t) (fun t => ∃ segments, Denotes t segments) text.length text
      error := by
  obtain ⟨before, white, same⟩ := exists_white text
  cases skipped : skipWhite text with
  | nil =>
      rw [parseChars, skipped] at failed
      cases failed
      have start : Start ['a'] (.key (String.ofList ['a'])) :=
        @Start.dotted [] _ _ white_nil dotted_a (by decide)
      rw [same, skipped]
      exact breaks_at_end _ .empty ⟨['a'], _, by simpa using start.denotes white .nil⟩
  | cons c rest =>
      have solid := solid_of_skipWhite skipped
      rw [parseChars_eq skipped] at failed
      rw [skipped] at same
      rcases bind_eq_error.1 failed with inStart | ⟨⟨first, after⟩, read, failed⟩
      · rw [same] at inStart ⊢
        refine (breaks_readStart inStart).under before ?_ ?_
        · rintro t ⟨segment, start⟩
          exact ⟨[], [segment], by simpa using start.denotes white .nil⟩
        · intro _ t path sameHead read
          obtain ⟨first, after, _, start, _⟩ :=
            exists_of_parseChars white (solid_of_sameHead solid sameHead) read
          exact ⟨_, _, start⟩
      · obtain ⟨inner, rooted, begun⟩ := bind_eq_ok.1 read
        obtain ⟨start, derived, parts⟩ := start_of_readRoot solid rooted begun
        rcases bind_eq_error.1 failed with behind | ⟨_, _, done⟩
        · have shorter : after.length < text.length + 1 := by
            rw [same, parts]
            simp only [List.length_append]
            omega
          have breaks := @breaks_behindStart text.length first error after before start white
            (solid_of_sameHead solid (by rw [parts])) (by rw [← parts]; exact read) derived
            (breaks_readRest shorter behind)
          rwa [← parts, ← same] at breaks
        · cases done

/-! ## Positions of errors -/

theorem begins_of_denotes {more : List Char} {segments : List Segment}
    (derived : Denotes (text ++ more) segments) : Begins text := by
  refine ⟨String.ofList (text ++ more), ⟨segments⟩, ?_, by simp⟩
  rw [parse, String.toList_ofList]
  exact parseChars_of_denotes derived

theorem unfinished_of_begins (failed : parseChars text = .error error) (begins : Begins text) :
    Unfinished text := by
  obtain ⟨accepted, path, read, begun⟩ := begins
  refine ⟨accepted, path, read, begun, ?_⟩
  rintro rfl
  rw [parse, failed] at read
  cases read

theorem offends_of_refused {taken rest : List Char} {c : Char} (begins : Begins taken)
    (refused : ∀ other path, parseChars (taken ++ c :: other) ≠ .ok path) :
    Offends (taken ++ c :: rest) taken.length where
  inside := by simp
  viable := by simpa using begins
  refused := by
    rintro ⟨accepted, path, read, other, same⟩
    have through : (taken ++ c :: rest).take (taken.length + 1) = taken ++ [c] := by
      rw [List.take_length_add_append, List.take_succ_cons, List.take_zero]
    apply refused other path
    rw [parse, ← same, through] at read
    simpa using read

theorem Breaks.locates (failed : parseChars text = .error error)
    (breaks : Breaks (fun _ t => parseChars t) (fun t => ∃ segments, Denotes t segments)
      text.length text error) : error.Locates text := by
  cases breaks with | @intro taken left _ stops viable refused
  obtain ⟨more, segments, derived⟩ := viable
  have begins := begins_of_denotes derived
  cases left with
  | nil =>
      rw [List.append_nil] at *
      have unfinished := unfinished_of_begins failed begins
      cases stops with
      | empty => exact unfinished
      | atEnd expected => exact unfinished
      | backslash last =>
          have short := last.length_le
          rw [List.length_singleton] at short
          exact (if_pos ⟨last, by omega⟩).mpr unfinished
  | cons c rest =>
      have offends := @offends_of_refused taken rest c begins fun other path =>
        refused c rfl 0 other path
      have position : (taken ++ c :: rest).length - (rest.length + 1) = taken.length := by simp
      cases stops with
      | character _ _ expected =>
          rw [position]
          exact ⟨by simp, offends⟩
      | bracket _ _ =>
          rw [position]
          exact offends
      | escape _ other =>
          rw [position]
          refine (if_neg ?_).mpr offends
          -- The last character would be a backslash.
          rintro ⟨last, final⟩
          have alone : rest = [] := by
            rw [List.length_append, List.length_cons] at final
            exact List.length_eq_zero_iff.1 (by omega)
          obtain ⟨front, same⟩ := last
          rw [alone] at same
          have both := congrArg List.getLast? same
          rw [List.getLast?_concat, List.getLast?_concat] at both
          exact other (Option.some.inj both).symm

/-- Where a text is no key path, the error tells where it goes wrong: the part before the place it
names begins a key path, and with the character there no key path goes on; or the text ends too
early. -/
theorem locates_of_parse (text : String) (error : Error) (failed : parse text = .error error) :
    error.Locates text.toList :=
  (breaks_parseChars failed).locates failed

theorem locates_of_badEscape :
    parse "$ . jobs['a\\qb']" = .error (.invalidEscape 12) ∧
      (Error.invalidEscape 12).Locates "$ . jobs['a\\qb']".toList := by
  have failed : parse "$ . jobs['a\\qb']" = .error (.invalidEscape 12) := by decide +kernel
  exact ⟨failed, locates_of_parse "$ . jobs['a\\qb']" (.invalidEscape 12) failed⟩

end WorkflowScope.KeyPath
