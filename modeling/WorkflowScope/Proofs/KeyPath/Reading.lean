import Mathlib.Data.List.TakeWhile
import WorkflowScope.KeyPath.Parse
import WorkflowScope.Proofs.KeyPath.Grammar
import WorkflowScope.Proofs.Text.Readings

/-!
# Reading follows the grammar

Each reader takes a piece of its kind from the front of the text and gives what the piece stands
for; and where a piece of its kind stands in front, it takes just that piece. A name is the only
piece that ends where it has to: what follows it must not go on with it.
-/

namespace WorkflowScope.KeyPath

variable {total : Nat} {text after : List Char} {segment : Segment}

/-! ## White characters -/

theorem white_nil : White [] :=
  List.forall_mem_nil _

theorem White.append {before behind : List Char} (first : White before) (second : White behind) :
    White (before ++ behind) := by
  intro c member
  rcases List.mem_append.1 member with member | member
  · exact first c member
  · exact second c member

theorem exists_white (text : List Char) :
    ∃ before, White before ∧ text = before ++ skipWhite text :=
  ⟨text.takeWhile Text.isWhite, fun _ member => List.mem_takeWhile_imp member,
    List.takeWhile_append_dropWhile.symm⟩

theorem solid_of_skipWhite {c : Char} {rest : List Char} (skipped : skipWhite text = c :: rest) :
    Text.isWhite c = false := by
  have first := List.head?_dropWhile_not Text.isWhite text
  rw [skipWhite] at skipped
  simpa [skipped] using first

theorem skipWhite_white {before : List Char} (white : White before) : skipWhite before = [] :=
  List.dropWhile_eq_nil_iff.2 white

theorem skipWhite_cons {c : Char} {rest : List Char} (solid : Text.isWhite c = false) :
    skipWhite (c :: rest) = c :: rest :=
  List.dropWhile_cons_of_neg (by simp [solid])

theorem skipWhite_append_cons {before rest : List Char} {c : Char} (white : White before)
    (solid : Text.isWhite c = false) : skipWhite (before ++ c :: rest) = c :: rest := by
  rw [skipWhite, List.dropWhile_append_of_pos white]
  exact skipWhite_cons solid

/-! ## Names -/

theorem isKeyChar_iff {c : Char} : Segment.isKeyChar c = true ↔ NameChar c := by
  simp [Segment.isKeyChar, NameChar, and_assoc]

/-- No name goes on with the text. -/
def Ends (text : List Char) : Prop :=
  ∀ c ∈ text.head?, Segment.isKeyChar c = false

theorem isWhite_of_isKeyChar {c : Char} (plain : Segment.isKeyChar c = true) :
    Text.isWhite c = false :=
  (isKeyChar_iff.1 plain).1

theorem dotted_of_readName (read : readName total text = .ok (segment, after)) :
    ∃ name, Dotted name segment ∧ text = name ++ after := by
  simp only [readName] at read
  split at read
  · cases text <;> cases read
  · next written =>
      cases read
      refine ⟨text.takeWhile Segment.isKeyChar, .name ?_ ?_, List.takeWhile_append_dropWhile.symm⟩
      · simpa using written
      · exact fun _ member => isKeyChar_iff.1 (List.mem_takeWhile_imp member)

theorem readName_append {name : List Char} (written : name ≠ []) (letters : ∀ c ∈ name, NameChar c)
    (ends : Ends after) :
    readName total (name ++ after) = .ok (.key (String.ofList name), after) := by
  have plain : ∀ c ∈ name, Segment.isKeyChar c = true :=
    fun c member => isKeyChar_iff.2 (letters c member)
  have taken : (name ++ after).takeWhile Segment.isKeyChar = name := by
    rw [List.takeWhile_append_of_pos plain]
    cases after with
    | nil => simp
    | cons c rest => simp [ends c rfl]
  have left : (name ++ after).dropWhile Segment.isKeyChar = after := by
    rw [List.dropWhile_append_of_pos plain]
    cases after with
    | nil => rfl
    | cons c rest => simp [ends c rfl]
  simp [readName, taken, left, written]

theorem dotted_of_readDotted (read : readDotted total text = .ok (segment, after)) :
    ∃ before dotted, White before ∧ Dotted dotted segment ∧ text = before ++ (dotted ++ after) := by
  obtain ⟨before, white, same⟩ := exists_white text
  rw [readDotted] at read
  split at read
  · next rest skipped =>
      cases read
      exact ⟨before, ['*'], white, .wildcard, by rw [same, skipped]; rfl⟩
  · obtain ⟨name, dotted, split⟩ := dotted_of_readName read
    exact ⟨before, name, white, dotted, by rw [← split, ← same]⟩

theorem readDotted_append {before dotted : List Char} (white : White before)
    (inner : Dotted dotted segment) (ends : Ends after) :
    readDotted total (before ++ (dotted ++ after)) = .ok (segment, after) := by
  cases inner with
  | wildcard =>
      rw [readDotted, List.singleton_append, skipWhite_append_cons white (by decide)]
      rfl
  | name written plain =>
      have read := @readName_append total after dotted written plain ends
      cases dotted with
      | nil => contradiction
      | cons c rest =>
          have first := isKeyChar_iff.2 (plain c List.mem_cons_self)
          have solid := isWhite_of_isKeyChar first
          rw [readDotted, List.cons_append, skipWhite_append_cons white solid]
          split
          · next same =>
              obtain ⟨rfl, -⟩ := List.cons.inj same
              cases first
          · exact read

/-! ## Quotes -/

theorem unescape?_eq_some_iff {escaped c : Char} :
    unescape? escaped = some c ↔ Escape escaped c := by
  constructor
  · intro found
    unfold unescape? at found
    split at found
    · cases found; exact .lineFeed
    · cases found; exact .tab
    · cases found; exact .backslash
    · cases found; exact .singleQuote
    · cases found; exact .doubleQuote
    · cases found
  · rintro ⟨⟩ <;> rfl

theorem body_of_readQuoted {quote : Char} {value : List Char}
    (read : readQuoted total quote text = .ok (value, after)) :
    ∃ body, Body quote body value ∧ text = body ++ quote :: after := by
  fun_induction readQuoted total quote text generalizing value with
  -- Cases 1, 3 and 4 fail: the text ends, or a backslash stands before nothing it can.
  | case1 => cases read
  | case2 rest =>
      cases read
      exact ⟨[], .nil, rfl⟩
  | case3 => cases read
  | case4 => cases read
  | case5 escaped rest c meaning _ ih =>
      obtain ⟨⟨inner, left⟩, found, same⟩ := bind_eq_ok.1 read
      cases same
      obtain ⟨body, derived, rfl⟩ := ih found
      exact ⟨'\\' :: escaped :: body, .escape (unescape?_eq_some_iff.1 meaning) derived, rfl⟩
  | case6 c rest other plain ih =>
      obtain ⟨⟨inner, left⟩, found, same⟩ := bind_eq_ok.1 read
      cases same
      obtain ⟨body, derived, rfl⟩ := ih found
      exact ⟨c :: body, .char other plain derived, rfl⟩

theorem readQuoted_append {quote : Char} {body value : List Char} (isQuote : quote ≠ '\\')
    (derived : Body quote body value) :
    readQuoted total quote (body ++ quote :: after) = .ok (value, after) := by
  induction derived with
  | nil =>
      rw [List.nil_append, readQuoted.eq_def]
      exact if_pos rfl
  | char other plain rest ih =>
      rw [List.cons_append, readQuoted.eq_def]
      simp only [if_neg other, if_neg plain, ih]
      rfl
  | escape meaning rest ih =>
      rw [List.cons_append, List.cons_append, readQuoted.eq_def]
      simp only [if_neg isQuote.symm, if_true, unescape?_eq_some_iff.2 meaning, ih]
      rfl

/-! ## Brackets -/

theorem unexpected_ne_ok {α : Type} {expected : Expectation} {a : α} :
    unexpected total expected text ≠ .ok a := by
  cases text <;> nofun

theorem white_of_closeBracket {found : Segment}
    (read : closeBracket total segment text = .ok (found, after)) :
    found = segment ∧ ∃ behind, White behind ∧ text = behind ++ ']' :: after := by
  obtain ⟨behind, white, same⟩ := exists_white text
  rw [closeBracket] at read
  split at read
  · next rest skipped =>
      cases read
      exact ⟨rfl, behind, white, by rw [same, skipped]⟩
  · exact absurd read unexpected_ne_ok

theorem closeBracket_append {behind : List Char} (white : White behind) :
    closeBracket total segment (behind ++ ']' :: after) = .ok (segment, after) := by
  rw [closeBracket, skipWhite_append_cons white (by decide)]
  rfl

theorem bracket_of_readBracket (read : readBracket total text = .ok (segment, after)) :
    ∃ inside, Bracket ('[' :: inside) segment ∧ text = inside ++ after := by
  obtain ⟨before, leading, same⟩ := exists_white text
  rw [readBracket] at read
  split at read
  · cases read
  · next rest skipped =>
      obtain ⟨rfl, behind, trailing, rfl⟩ := white_of_closeBracket read
      refine ⟨_, .wildcard leading trailing, ?_⟩
      rw [same, skipped]
      simp
  · next c rest _ skipped =>
      split at read
      · next isQuote =>
          obtain ⟨⟨name, left⟩, quoted, closed⟩ := bind_eq_ok.1 read
          obtain ⟨body, derived, rfl⟩ := body_of_readQuoted quoted
          obtain ⟨rfl, behind, trailing, rfl⟩ := white_of_closeBracket closed
          refine ⟨_, .quoted leading (.key isQuote derived) trailing, ?_⟩
          rw [same, skipped]
          simp
      · cases read

theorem readBracket_append {inside : List Char} (inner : Bracket ('[' :: inside) segment) :
    readBracket total (inside ++ after) = .ok (segment, after) := by
  cases inner with
  | wildcard leading trailing =>
      rw [readBracket]
      simp only [List.append_assoc, List.cons_append, List.nil_append]
      rw [skipWhite_append_cons leading (by decide)]
      exact closeBracket_append trailing
  | quoted leading inner trailing =>
      cases inner with
      | @key quote body value isQuote derived =>
          have solid : Text.isWhite quote = false := by rcases isQuote with rfl | rfl <;> decide
          have star : quote ≠ '*' := by rcases isQuote with rfl | rfl <;> decide
          have plain : quote ≠ '\\' := by rcases isQuote with rfl | rfl <;> decide
          rw [readBracket]
          simp only [List.append_assoc, List.cons_append, List.nil_append]
          rw [skipWhite_append_cons leading solid]
          split
          · next none => cases none
          · next same => exact absurd (List.cons.inj same).1 star
          · next same =>
              obtain ⟨rfl, rfl⟩ := List.cons.inj same
              rw [if_pos isQuote, readQuoted_append plain derived, ok_bind]
              exact closeBracket_append trailing

theorem Bracket.exists_cons {bracket : List Char} (inner : Bracket bracket segment) :
    ∃ inside, bracket = '[' :: inside := by
  cases inner <;> exact ⟨_, rfl⟩

/-! ## Further segments -/

theorem isKeyChar_of_isWhite {c : Char} (white : Text.isWhite c = true) :
    Segment.isKeyChar c = false := by
  simp [Segment.isKeyChar, white]

theorem ends_white {behind : List Char} (white : White behind) : Ends behind :=
  fun c first => isKeyChar_of_isWhite (white c (List.mem_of_head? first))

theorem ends_append_cons {before : List Char} {c : Char} (white : White before)
    (stop : Segment.isKeyChar c = false) : Ends (before ++ c :: after) := by
  intro d first
  cases before with
  | nil =>
      cases first
      exact stop
  | cons e rest =>
      cases first
      exact isKeyChar_of_isWhite (white d List.mem_cons_self)

theorem Link.ends {link : List Char} (inner : Link link segment) : Ends (link ++ after) := by
  cases inner with
  | dotted leading trailing inner =>
      rw [List.append_assoc, List.cons_append]
      exact ends_append_cons leading (by decide)
  | bracket leading inner =>
      obtain ⟨inside, rfl⟩ := inner.exists_cons
      rw [List.append_assoc, List.cons_append]
      exact ends_append_cons leading (by decide)

theorem Rest.ends {rest behind : List Char} {segments : List Segment} (derived : Rest rest segments)
    (white : White behind) : Ends (rest ++ behind) := by
  cases derived with
  | nil => exact ends_white white
  | cons link more =>
      rw [List.append_assoc]
      exact link.ends

/-- Reading goes on until nothing but white characters is left, one segment at a time. -/
theorem readRest_cases {fuel : Nat} {segments : List Segment}
    (read : readRest total (fuel + 1) text = .ok segments) :
    (segments = [] ∧ White text) ∨
      ∃ segment more link after, segments = segment :: more ∧ Link link segment ∧
        text = link ++ after ∧ readRest total fuel after = .ok more := by
  obtain ⟨before, leading, same⟩ := exists_white text
  rw [readRest] at read
  split at read
  · next none =>
      cases read
      rw [none, List.append_nil] at same
      exact .inl ⟨rfl, same ▸ leading⟩
  · next rest skipped =>
      obtain ⟨⟨segment, after⟩, dotted, tail⟩ := bind_eq_ok.1 read
      obtain ⟨more, later, whole⟩ := bind_eq_ok.1 tail
      cases whole
      obtain ⟨behind, name, trailing, inner, rfl⟩ := dotted_of_readDotted dotted
      refine .inr ⟨segment, more, _, after, rfl, .dotted leading trailing inner, ?_, later⟩
      rw [same, skipped]
      simp
  · next rest skipped =>
      obtain ⟨⟨segment, after⟩, bracket, tail⟩ := bind_eq_ok.1 read
      obtain ⟨more, later, whole⟩ := bind_eq_ok.1 tail
      cases whole
      obtain ⟨inside, inner, rfl⟩ := bracket_of_readBracket bracket
      refine .inr ⟨segment, more, _, after, rfl, .bracket leading inner, ?_, later⟩
      rw [same, skipped]
      simp
  · exact absurd read unexpected_ne_ok

theorem readRest_white {fuel : Nat} {behind : List Char} (white : White behind) :
    readRest total (fuel + 1) behind = .ok [] := by
  rw [readRest, skipWhite_white white]

/-- A further segment in front is read, whatever reading makes of the text behind it. -/
theorem readRest_link {fuel : Nat} {link : List Char} (inner : Link link segment)
    (ends : Ends after) :
    readRest total (fuel + 1) (link ++ after) =
      readRest total fuel after >>= fun more => .ok (segment :: more) := by
  cases inner with
  | dotted leading trailing inner =>
      rw [readRest]
      simp only [List.append_assoc, List.cons_append]
      rw [skipWhite_append_cons leading (by decide)]
      simp only [readDotted_append trailing inner ends, ok_bind]
  | bracket leading inner =>
      obtain ⟨inside, rfl⟩ := inner.exists_cons
      rw [readRest]
      simp only [List.append_assoc, List.cons_append]
      rw [skipWhite_append_cons leading (by decide)]
      simp only [readBracket_append inner, ok_bind]

theorem length_lt_of_link {link : List Char} (inner : Link link segment) :
    after.length < (link ++ after).length := by
  cases inner with
  | dotted =>
      simp only [List.length_append, List.length_cons]
      omega
  | bracket leading inner =>
      obtain ⟨inside, rfl⟩ := inner.exists_cons
      simp only [List.length_append, List.length_cons]
      omega

theorem rest_of_readRest {fuel : Nat} {segments : List Segment} (enough : text.length < fuel)
    (read : readRest total fuel text = .ok segments) :
    ∃ rest behind, Rest rest segments ∧ White behind ∧ text = rest ++ behind := by
  induction fuel generalizing text segments with
  | zero => omega
  | succ fuel ih =>
      rcases readRest_cases read with
        ⟨rfl, white⟩ | ⟨segment, more, link, after, rfl, inner, rfl, later⟩
      · exact ⟨[], text, .nil, white, rfl⟩
      · have shorter := @length_lt_of_link after segment link inner
        obtain ⟨rest, behind, derived, white, rfl⟩ := ih (by omega) later
        exact ⟨link ++ rest, behind, .cons inner derived, white, (List.append_assoc _ _ _).symm⟩

theorem readRest_append {fuel : Nat} {rest behind : List Char} {segments : List Segment}
    (derived : Rest rest segments) (white : White behind)
    (enough : (rest ++ behind).length < fuel) :
    readRest total fuel (rest ++ behind) = .ok segments := by
  induction derived generalizing fuel with
  | nil =>
      obtain ⟨fuel, rfl⟩ := Nat.exists_eq_add_one.2 (Nat.zero_lt_of_lt enough)
      exact readRest_white white
  | @cons link rest segment segments inner more ih =>
      obtain ⟨fuel, rfl⟩ := Nat.exists_eq_add_one.2 (Nat.zero_lt_of_lt enough)
      rw [List.append_assoc] at enough ⊢
      have shorter := @length_lt_of_link (rest ++ behind) segment link inner
      rw [readRest_link inner (more.ends white), ih (by omega)]
      rfl

/-! ## The first segment -/

theorem readFirst_of_head_ne (head : text.head? ≠ some '[') :
    readFirst total text = readDotted total text := by
  rw [readFirst.eq_def]
  split
  · exact absurd rfl head
  · rfl

theorem first_of_readFirst (read : readFirst total text = .ok (segment, after)) :
    ∃ first, First first segment ∧ text = first ++ after := by
  rw [readFirst.eq_def] at read
  split at read
  · obtain ⟨inside, inner, rfl⟩ := bracket_of_readBracket read
    exact ⟨'[' :: inside, .bracket inner, rfl⟩
  · obtain ⟨before, dotted, white, inner, rfl⟩ := dotted_of_readDotted read
    exact ⟨before ++ dotted, .dotted white inner, (List.append_assoc _ _ _).symm⟩

theorem Dotted.exists_cons {dotted : List Char} (inner : Dotted dotted segment) :
    ∃ c rest, dotted = c :: rest ∧ Text.isWhite c = false ∧ c ≠ '[' := by
  cases inner with
  | wildcard => exact ⟨'*', [], rfl, by decide, by decide⟩
  | name written plain =>
      cases dotted with
      | nil => contradiction
      | cons c rest =>
          have first := plain c List.mem_cons_self
          refine ⟨c, rest, rfl, first.1, ?_⟩
          rintro rfl
          exact first.2 (by simp)

theorem readFirst_append {first : List Char} (inner : First first segment) (ends : Ends after) :
    readFirst total (first ++ after) = .ok (segment, after) := by
  cases inner with
  | bracket inner =>
      obtain ⟨inside, rfl⟩ := inner.exists_cons
      exact readBracket_append inner
  | @dotted before dotted _ white inner =>
      rw [List.append_assoc, readFirst_of_head_ne, readDotted_append white inner ends]
      -- Neither a white character nor a segment without brackets begins with a bracket.
      obtain ⟨c, rest, rfl, -, other⟩ := inner.exists_cons
      cases before with
      | nil => simpa using other
      | cons d before =>
          have first := white d List.mem_cons_self
          rintro ⟨⟩
          cases first

theorem readRoot_of_ne {c : Char} {rest : List Char} (unmarked : c ≠ '$') :
    readRoot total (c :: rest) = .ok (c :: rest) := by
  rw [readRoot.eq_def]
  split
  · next same => exact absurd (List.cons.inj same).1 unmarked
  · rfl

/-- The two readers of the start, one after the other. The text does not begin with a white
character, so a name in front of it begins with its first character. -/
theorem start_of_readRoot {c : Char} {rest inner : List Char} (solid : Text.isWhite c = false)
    (rooted : readRoot total (c :: rest) = .ok inner)
    (read : readFirst total inner = .ok (segment, after)) :
    ∃ start, Start start segment ∧ c :: rest = start ++ after := by
  by_cases marked : c = '$'
  · subst marked
    obtain ⟨between, white, same⟩ := exists_white rest
    rw [readRoot] at rooted
    split at rooted
    · next skipped =>
        cases rooted
        obtain ⟨first, derived, rfl⟩ := first_of_readFirst read
        refine ⟨_, .rootDot white derived, ?_⟩
        rw [same, skipped]
        simp
    · next skipped =>
        cases rooted
        obtain ⟨inside, derived, rfl⟩ := bracket_of_readBracket read
        refine ⟨_, .rootBracket white derived, ?_⟩
        rw [same, skipped]
        simp
    · cases rooted
      cases read
    · exact absurd rooted unexpected_ne_ok
  · rw [readRoot_of_ne marked] at rooted
    cases rooted
    obtain ⟨first, derived, same⟩ := first_of_readFirst read
    cases derived with
    | bracket derived => exact ⟨first, .bracket derived, same⟩
    | @dotted before dotted _ white derived =>
        obtain ⟨d, name, rfl, -, -⟩ := derived.exists_cons
        cases before with
        | nil =>
            obtain ⟨rfl, -⟩ := List.cons.inj same
            exact ⟨_, .dotted white derived (by simpa using marked), same⟩
        | cons e before =>
            obtain ⟨rfl, -⟩ := List.cons.inj same
            rw [white c List.mem_cons_self] at solid
            cases solid

theorem readRoot_append {before start : List Char} (leading : White before)
    (derived : Start start segment) (ends : Ends after) :
    ∃ c rest inner, skipWhite (before ++ (start ++ after)) = c :: rest ∧
      readRoot total (c :: rest) = .ok inner ∧ readFirst total inner = .ok (segment, after) := by
  cases derived with
  | bracket derived =>
      obtain ⟨inside, rfl⟩ := derived.exists_cons
      exact ⟨'[', inside ++ after, '[' :: (inside ++ after),
        skipWhite_append_cons leading (by decide), readRoot_of_ne (by decide),
        readFirst_append (.bracket derived) ends⟩
  | @dotted own dotted _ white derived unmarked =>
      have whole : readFirst total (dotted ++ after) = .ok (segment, after) :=
        readFirst_append (@First.dotted [] dotted segment white_nil derived) ends
      obtain ⟨c, name, rfl, solid, -⟩ := derived.exists_cons
      refine ⟨c, name ++ after, c :: (name ++ after), ?_, readRoot_of_ne ?_, whole⟩
      · rw [List.append_assoc, ← List.append_assoc, List.cons_append]
        exact skipWhite_append_cons (leading.append white) solid
      · simpa using unmarked
  | @rootDot between first _ white derived =>
      refine ⟨'$', between ++ '.' :: (first ++ after), first ++ after, ?_, ?_,
        readFirst_append derived ends⟩
      · rw [List.cons_append, List.append_assoc, List.cons_append]
        exact skipWhite_append_cons leading (by decide)
      · rw [readRoot, skipWhite_append_cons white (by decide)]
        rfl
  | @rootBracket between bracket _ white derived =>
      obtain ⟨inside, rfl⟩ := derived.exists_cons
      refine ⟨'$', between ++ '[' :: (inside ++ after), '[' :: (inside ++ after), ?_, ?_,
        readFirst_append (.bracket derived) ends⟩
      · rw [List.cons_append, List.append_assoc, List.cons_append]
        exact skipWhite_append_cons leading (by decide)
      · rw [readRoot, skipWhite_append_cons white (by decide)]
        rfl

/-! ## Key paths -/

theorem parseChars_of_skipWhite {c : Char} {rest : List Char}
    (skipped : skipWhite text = c :: rest) :
    parseChars text = (do
      let start ← readRoot text.length (c :: rest)
      let (first, after) ← readFirst text.length start
      let more ← readRest text.length (text.length + 1) after
      .ok ⟨first :: more⟩) := by
  rw [parseChars, skipped]

/-- A start in front is read, whatever reading makes of the text behind it. -/
theorem parseChars_start {before start : List Char} (leading : White before)
    (derived : Start start segment) (ends : Ends after) :
    parseChars (before ++ (start ++ after)) =
      readRest (before ++ (start ++ after)).length ((before ++ (start ++ after)).length + 1)
        after >>= fun more => .ok ⟨segment :: more⟩ := by
  obtain ⟨c, rest, inner, skipped, rooted, begun⟩ :=
    @readRoot_append (before ++ (start ++ after)).length after segment before start leading derived
      ends
  rw [parseChars_of_skipWhite skipped, rooted, ok_bind, begun, ok_bind]

theorem denotes_of_parseChars {path : KeyPath} (read : parseChars text = .ok path) :
    Denotes text path.segments := by
  obtain ⟨before, leading, same⟩ := exists_white text
  cases skipped : skipWhite text with
  | nil =>
      rw [parseChars, skipped] at read
      cases read
  | cons c rest =>
      rw [parseChars_of_skipWhite skipped] at read
      obtain ⟨inner, rooted, tail⟩ := bind_eq_ok.1 read
      obtain ⟨⟨first, after⟩, begun, tail⟩ := bind_eq_ok.1 tail
      obtain ⟨more, later, whole⟩ := bind_eq_ok.1 tail
      cases whole
      obtain ⟨start, derived, split⟩ := start_of_readRoot (solid_of_skipWhite skipped) rooted begun
      rw [skipped, split] at same
      have enough : after.length < text.length + 1 := by
        rw [same]
        simp only [List.length_append]
        omega
      obtain ⟨others, behind, more, trailing, rfl⟩ := rest_of_readRest enough later
      rw [same]
      exact .path leading derived more trailing

theorem parseChars_of_denotes {segments : List Segment} (derived : Denotes text segments) :
    parseChars text = .ok ⟨segments⟩ := by
  cases derived with
  | @path before start rest behind first segments leading derived more trailing =>
      rw [parseChars_start leading derived (more.ends trailing), readRest_append more trailing,
        ok_bind]
      simp only [List.length_append]
      omega

/-- Reading accepts a text just if it stands for a key path, and gives that path. -/
theorem parse_eq_ok_iff (text : String) (path : KeyPath) :
    parse text = .ok path ↔ Denotes text.toList path.segments := by
  constructor
  · intro read
    exact denotes_of_parseChars read
  · intro derived
    exact parseChars_of_denotes derived

example : parse "$ ['a'] . *" = .ok ⟨[.key "a", .wildcard]⟩ := by decide +kernel

example : parse "$. ['a']" = .error (.unexpectedChar 3 '[' .keyName) := by decide +kernel

end WorkflowScope.KeyPath
