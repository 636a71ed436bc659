import WorkflowScope.Proofs.KeyPath.Reading

/-!
# Key paths written and read back

Writing puts a backslash before a quote but leaves a backslash as it is, and a `$` in front is read
as a root marker. A path with neither is read back as it was written. With either it is not, even
where reading succeeds: the key with the first backslash is read as another one, and the root marker
takes a segment away.
-/

namespace WorkflowScope.KeyPath

open Segment (needsBrackets escapeQuotes)

variable {total fuel : Nat} {segment : Segment} {segments : List Segment}

/-! ## Pieces of a written path -/

theorem chars_of_bare {name : String} (bare : needsBrackets name = false) :
    (Segment.key name).chars = name.toList := by
  rw [Segment.chars, if_neg (by simp [bare])]

theorem chars_key {name : String} (bracketed : needsBrackets name = true) :
    (Segment.key name).chars = '[' :: '\'' :: (escapeQuotes name.toList ++ ['\'', ']']) := by
  rw [Segment.chars, if_pos bracketed]
  rfl

theorem letters_of_bare {name : String} (bare : needsBrackets name = false) :
    name.toList ≠ [] ∧ ∀ c ∈ name.toList, Segment.isKeyChar c = true := by
  rw [needsBrackets, Bool.or_eq_false_iff, List.isEmpty_eq_false_iff, Bool.not_eq_false',
    List.all_eq_true] at bare
  exact bare

theorem dotted_chars (bare : segment.isBracketed = false) : Dotted segment.chars segment := by
  cases segment with
  | wildcard => exact .wildcard
  | key name =>
      obtain ⟨written, letters⟩ := letters_of_bare bare
      have derived := Dotted.name written fun c member => isKeyChar_iff.1 (letters c member)
      rw [String.ofList_toList] at derived
      rwa [chars_of_bare bare]

theorem bare_or_key (segment : Segment) :
    segment.isBracketed = false ∨ ∃ name, segment = .key name ∧ needsBrackets name = true := by
  cases segment with
  | wildcard => exact .inl rfl
  | key name =>
      cases bracketed : needsBrackets name with
      | false => exact .inl bracketed
      | true => exact .inr ⟨name, rfl, bracketed⟩

theorem escapeQuotes_quote (name : List Char) :
    escapeQuotes ('\'' :: name) = '\\' :: '\'' :: escapeQuotes name := by
  simp [escapeQuotes]

theorem escapeQuotes_of_ne {c : Char} (other : c ≠ '\'') (name : List Char) :
    escapeQuotes (c :: name) = c :: escapeQuotes name := by
  simp [escapeQuotes, other]

theorem body_escapeQuotes {name : List Char} (plain : '\\' ∉ name) :
    Body '\'' (escapeQuotes name) name := by
  induction name with
  | nil => exact .nil
  | cons c rest ih =>
      rw [List.mem_cons, not_or] at plain
      by_cases quote : c = '\''
      · subst quote
        rw [escapeQuotes_quote]
        exact .escape .singleQuote (ih plain.2)
      · rw [escapeQuotes_of_ne quote]
        exact .char quote (Ne.symm plain.1) (ih plain.2)

theorem bracket_chars {name : String} (bracketed : needsBrackets name = true)
    (plain : '\\' ∉ name.toList) : Bracket (Segment.key name).chars (.key name) := by
  have quoted : Quoted ('\'' :: (escapeQuotes name.toList ++ ['\''])) name.toList :=
    .key (.inl rfl) (body_escapeQuotes plain)
  have derived := Bracket.quoted white_nil quoted white_nil
  rw [String.ofList_toList] at derived
  rw [chars_key bracketed]
  simpa using derived

/-- A name that is written in brackets has no backslash. -/
def Safe : Segment → Prop
  | .wildcard => True
  | .key name => needsBrackets name = true → '\\' ∉ name.toList

/-- A further segment with its separator. -/
def linked (segment : Segment) : List Char :=
  if segment.isBracketed then segment.chars else '.' :: segment.chars

theorem charsAfter_cons (segment : Segment) (segments : List Segment) :
    charsAfter (segment :: segments) = linked segment ++ charsAfter segments :=
  rfl

theorem linked_of_bare (bare : segment.isBracketed = false) :
    linked segment = '.' :: segment.chars := by
  simp [linked, bare]

theorem linked_key {name : String} (bracketed : needsBrackets name = true) :
    linked (.key name) = '[' :: '\'' :: (escapeQuotes name.toList ++ ['\'', ']']) := by
  rw [linked, Segment.isBracketed, if_pos bracketed, chars_key bracketed]

theorem link_linked (safe : Safe segment) : Link (linked segment) segment := by
  obtain bare | ⟨name, rfl, bracketed⟩ := bare_or_key segment
  · rw [linked_of_bare bare]
    exact .dotted white_nil white_nil (dotted_chars bare)
  · rw [linked, Segment.isBracketed, if_pos bracketed]
    exact .bracket white_nil (bracket_chars bracketed (safe bracketed))

theorem rest_charsAfter (safe : ∀ segment ∈ segments, Safe segment) :
    Rest (charsAfter segments) segments := by
  induction segments with
  | nil => exact .nil
  | cons segment segments ih =>
      rw [charsAfter_cons]
      exact .cons (link_linked (safe segment List.mem_cons_self))
        (ih fun other member => safe other (List.mem_cons_of_mem _ member))

theorem ends_charsAfter (segments : List Segment) : Ends (charsAfter segments) := by
  cases segments with
  | nil => exact nofun
  | cons segment segments =>
      rw [charsAfter_cons]
      obtain bare | ⟨name, rfl, bracketed⟩ := bare_or_key segment
      · rw [linked_of_bare bare]
        exact ends_append_cons white_nil (by decide)
      · rw [linked_key bracketed]
        exact ends_append_cons white_nil (by decide)

/-! ## Backslashes between quotes -/

def backslashes (text : List Char) : Nat :=
  (text.takeWhile (· == '\\')).length

@[simp] theorem backslashes_backslash (text : List Char) :
    backslashes ('\\' :: text) = backslashes text + 1 := by
  simp [backslashes]

theorem backslashes_cons_of_ne {c : Char} (other : c ≠ '\\') (text : List Char) :
    backslashes (c :: text) = 0 := by
  simp [backslashes, other]

theorem backslashes_le_append (text after : List Char) :
    backslashes text ≤ backslashes (text ++ after) := by
  induction text with
  | nil => exact Nat.zero_le _
  | cons c text ih =>
      by_cases same : c = '\\'
      · subst same
        simpa using ih
      · rw [backslashes_cons_of_ne same]
        exact Nat.zero_le _

/-- Each backslash in front of a key was written by two. -/
theorem Body.backslashes_le {quote : Char} {body value : List Char}
    (derived : Body quote body value) : 2 * backslashes value ≤ backslashes body := by
  induction derived with
  | nil => exact Nat.le_refl _
  | char other plain rest ih =>
      rw [backslashes_cons_of_ne plain]
      exact Nat.zero_le _
  | escape meaning rest ih =>
      cases meaning with
      | backslash =>
          simp only [backslashes_backslash]
          omega
      | lineFeed => simp [backslashes_cons_of_ne]
      | tab => simp [backslashes_cons_of_ne]
      | singleQuote => simp [backslashes_cons_of_ne]
      | doubleQuote => simp [backslashes_cons_of_ne]

/-- Writing adds at most one backslash to those in front: that of a quote behind them. -/
theorem backslashes_escapeQuotes_le (name after : List Char) :
    backslashes (escapeQuotes name ++ '\'' :: after) ≤ backslashes name + 1 := by
  induction name with
  | nil => simp [escapeQuotes, backslashes_cons_of_ne]
  | cons c name ih =>
      by_cases quote : c = '\''
      · subst quote
        simp [escapeQuotes_quote, backslashes_cons_of_ne]
      · rw [escapeQuotes_of_ne quote, List.cons_append]
        by_cases same : c = '\\'
        · subst same
          simpa using ih
        · rw [backslashes_cons_of_ne same]
          exact Nat.zero_le _

/-- A written key is never read back when its reading is ahead by a backslash. -/
theorem Body.not_ahead {name body rest after : List Char} (derived : Body '\'' body name) :
    escapeQuotes name ++ '\'' :: rest ≠ '\\' :: (body ++ '\'' :: after) := by
  intro same
  have needed := derived.backslashes_le
  have within := backslashes_le_append body ('\'' :: after)
  have written := backslashes_escapeQuotes_le name rest
  rw [same, backslashes_backslash] at written
  cases name with
  | nil => cases same
  | cons c name =>
      by_cases quote : c = '\''
      · -- The backslash before the quote is the one ahead, so the quote closes the key.
        subst quote
        rw [escapeQuotes_quote] at same
        obtain ⟨-, same⟩ := List.cons.inj same
        cases derived with
        | char other => exact other rfl
        | escape => cases same
      · rw [escapeQuotes_of_ne quote] at same
        obtain ⟨rfl, -⟩ := List.cons.inj same
        rw [backslashes_backslash] at needed written
        omega

/-- A key that is read back from between quotes as it was written has no backslash. -/
theorem not_mem_of_body {name body rest after : List Char} (derived : Body '\'' body name)
    (same : escapeQuotes name ++ '\'' :: rest = body ++ '\'' :: after) : '\\' ∉ name := by
  induction name generalizing body with
  | nil => exact List.not_mem_nil
  | cons c name ih =>
      cases derived with
      | char other plain derived =>
          rw [escapeQuotes_of_ne other] at same
          rw [List.mem_cons, not_or]
          exact ⟨Ne.symm plain, ih derived (List.cons.inj same).2⟩
      | escape meaning derived =>
          by_cases quote : c = '\''
          · subst quote
            rw [escapeQuotes_quote] at same
            obtain ⟨-, same⟩ := List.cons.inj same
            rw [List.mem_cons, not_or]
            exact ⟨by decide, ih derived (List.cons.inj same).2⟩
          · rw [escapeQuotes_of_ne quote] at same
            obtain ⟨rfl, ahead⟩ := List.cons.inj same
            cases meaning
            exact absurd ahead derived.not_ahead

/-- What a written key and its closing quote begin with, if it is no backslash. -/
theorem escapeQuotes_append_eq_cons {name rest after : List Char} {c : Char} (plain : c ≠ '\\')
    (same : escapeQuotes name ++ '\'' :: rest = c :: after) :
    (name = [] ∧ c = '\'') ∨
      ∃ more, name = c :: more ∧ c ≠ '\'' ∧ escapeQuotes more ++ '\'' :: rest = after := by
  cases name with
  | nil => exact .inl ⟨rfl, (List.cons.inj same).1.symm⟩
  | cons d name =>
      by_cases quote : d = '\''
      · subst quote
        rw [escapeQuotes_quote] at same
        exact absurd (List.cons.inj same).1.symm plain
      · rw [escapeQuotes_of_ne quote] at same
        obtain ⟨rfl, tail⟩ := List.cons.inj same
        exact .inr ⟨name, rfl, quote, tail⟩

/-- Only `$` itself is written so that it is read back as `$`. -/
theorem eq_dollar_of_body {name body rest after : List Char} (derived : Body '\'' body ['$'])
    (same : escapeQuotes name ++ '\'' :: rest = body ++ '\'' :: after) : name = ['$'] := by
  cases derived with
  | escape meaning => cases meaning
  | char other plain derived =>
      cases derived
      obtain ⟨-, closed⟩ | ⟨more, rfl, -, tail⟩ := escapeQuotes_append_eq_cons plain same
      · exact absurd closed other
      · obtain ⟨rfl, -⟩ | ⟨-, -, other, -⟩ := escapeQuotes_append_eq_cons (by decide) tail
        · rfl
        · exact absurd rfl other

/-! ## Reading a written path -/

/-- What is read from a key that is written in brackets. -/
theorem body_of_readBracket {name tail after : List Char}
    (read : readBracket total ('\'' :: (escapeQuotes name ++ ['\'', ']'] ++ tail)) =
      .ok (segment, after)) :
    ∃ value body rest, segment = .key (String.ofList value) ∧ Body '\'' body value ∧
      escapeQuotes name ++ '\'' :: (']' :: tail) = body ++ '\'' :: rest := by
  rw [readBracket, skipWhite_cons (by decide)] at read
  obtain ⟨⟨value, rest⟩, quoted, closed⟩ := bind_eq_ok.1 read
  obtain ⟨body, derived, same⟩ := body_of_readQuoted quoted
  obtain ⟨rfl, -⟩ := white_of_closeBracket closed
  exact ⟨value, body, rest, rfl, derived, by simpa using same⟩

theorem safe_of_readBracket {name : String} {tail after : List Char}
    (read : readBracket total ('\'' :: (escapeQuotes name.toList ++ ['\'', ']'] ++ tail)) =
      .ok (.key name, after)) : '\\' ∉ name.toList := by
  obtain ⟨value, body, rest, same, derived, written⟩ := body_of_readBracket read
  obtain rfl := Segment.key.inj same
  rw [String.toList_ofList] at written ⊢
  exact not_mem_of_body derived written

theorem not_dollar_of_readBracket {name : String} {tail after : List Char}
    (bracketed : needsBrackets name = true) :
    readBracket total ('\'' :: (escapeQuotes name.toList ++ ['\'', ']'] ++ tail)) ≠
      .ok (.key "$", after) := by
  intro read
  obtain ⟨value, body, rest, same, derived, written⟩ := body_of_readBracket read
  have dollar : String.ofList value = String.ofList ['$'] := (Segment.key.inj same).symm
  obtain rfl := String.ofList_injective dollar
  have name := eq_dollar_of_body derived written
  rw [needsBrackets, name] at bracketed
  revert bracketed
  decide

/-- What further segments begin with, when the first of them is written in brackets. -/
theorem readBracket_of_readRest {name : String} {more : List Segment}
    (bracketed : needsBrackets name = true)
    (read : readRest total (fuel + 1) (charsAfter (.key name :: segments)) =
      .ok (segment :: more)) :
    ∃ after, readBracket total
      ('\'' :: (escapeQuotes name.toList ++ ['\'', ']'] ++ charsAfter segments)) =
        .ok (segment, after) := by
  rw [charsAfter_cons, linked_key bracketed, List.cons_append, readRest,
    skipWhite_cons (by decide)] at read
  obtain ⟨⟨first, after⟩, found, tail⟩ := bind_eq_ok.1 read
  obtain ⟨others, -, whole⟩ := bind_eq_ok.1 tail
  cases whole
  exact ⟨after, found⟩

theorem readRest_linked (safe : Safe segment) (segments : List Segment) :
    readRest total (fuel + 1) (charsAfter (segment :: segments)) =
      readRest total fuel (charsAfter segments) >>= fun more => .ok (segment :: more) := by
  rw [charsAfter_cons]
  exact readRest_link (link_linked safe) (ends_charsAfter segments)

theorem safe_of_bare (bare : segment.isBracketed = false) : Safe segment := by
  cases segment with
  | wildcard => trivial
  | key name =>
      intro bracketed
      rw [Segment.isBracketed, bracketed] at bare
      cases bare

/-- Segments that are read back as they were written are safe. -/
theorem safe_of_readRest (read : readRest total fuel (charsAfter segments) = .ok segments) :
    ∀ segment ∈ segments, Safe segment := by
  induction segments generalizing fuel with
  | nil => exact fun _ member => absurd member List.not_mem_nil
  | cons segment segments ih =>
      cases fuel with
      | zero => cases read
      | succ fuel =>
          have safe : Safe segment := by
            obtain bare | ⟨name, rfl, bracketed⟩ := bare_or_key segment
            · exact safe_of_bare bare
            · obtain ⟨after, found⟩ := readBracket_of_readRest bracketed read
              exact fun _ => safe_of_readBracket found
          rw [readRest_linked safe] at read
          obtain ⟨more, found, whole⟩ := bind_eq_ok.1 read
          cases whole
          intro other member
          rcases List.mem_cons.1 member with rfl | member
          · exact safe
          · exact ih found other member

/-- Reading further segments does not find a `$` in front of those that were written. -/
theorem readRest_ne_dollar :
    readRest total fuel (charsAfter segments) ≠ .ok (.key "$" :: segments) := by
  intro read
  induction segments generalizing fuel with
  | nil =>
      cases fuel with
      | zero => cases read
      | succ fuel =>
          rw [charsAfter, List.flatMap_nil, readRest_white white_nil] at read
          cases read
  | cons segment segments ih =>
      cases fuel with
      | zero => cases read
      | succ fuel =>
          obtain bare | ⟨name, rfl, bracketed⟩ := bare_or_key segment
          · rw [readRest_linked (safe_of_bare bare)] at read
            obtain ⟨more, found, whole⟩ := bind_eq_ok.1 read
            cases whole
            exact ih found
          · obtain ⟨after, found⟩ := readBracket_of_readRest bracketed read
            exact not_dollar_of_readBracket bracketed found

/-! ## The first segment -/

/-- A name in front does not begin with what is read as a root marker. -/
def Unmarked : Segment → Prop
  | .wildcard => True
  | .key name => needsBrackets name = false → name.toList.head? ≠ some '$'

theorem start_chars (unmarked : Unmarked segment) (safe : Safe segment) :
    Start segment.chars segment := by
  obtain bare | ⟨name, rfl, bracketed⟩ := bare_or_key segment
  · apply @Start.dotted [] segment.chars segment white_nil (dotted_chars bare)
    cases segment with
    | wildcard => decide
    | key name =>
        rw [chars_of_bare bare]
        exact unmarked bare
  · exact .bracket (bracket_chars bracketed (safe bracketed))

theorem readFirst_of_parseChars {text rest inner : List Char} {c : Char}
    (skipped : skipWhite text = c :: rest) (rooted : readRoot text.length (c :: rest) = .ok inner)
    (read : parseChars text = .ok ⟨segment :: segments⟩) :
    ∃ after, readFirst text.length inner = .ok (segment, after) := by
  rw [parseChars_of_skipWhite skipped, rooted, ok_bind] at read
  obtain ⟨⟨first, after⟩, found, tail⟩ := bind_eq_ok.1 read
  obtain ⟨more, -, whole⟩ := bind_eq_ok.1 tail
  cases whole
  exact ⟨after, found⟩

/-- A root marker takes the place of a `$` in front, so one segment is lost. -/
theorem parseChars_dollar_ne (segments : List Segment) :
    parseChars ('$' :: charsAfter segments) ≠ .ok ⟨.key "$" :: segments⟩ := by
  intro read
  cases segments with
  | nil => cases read
  | cons segment segments =>
      rw [charsAfter_cons] at read
      obtain bare | ⟨name, rfl, bracketed⟩ := bare_or_key segment
      · have start : Start ('$' :: linked segment) segment := by
          rw [linked_of_bare bare]
          exact @Start.rootDot [] _ _ white_nil
            (@First.dotted [] _ _ white_nil (dotted_chars bare))
        have whole := @parseChars_start (charsAfter segments) segment [] _ white_nil start
          (ends_charsAfter segments)
        rw [List.nil_append, List.cons_append] at whole
        rw [whole] at read
        obtain ⟨more, found, same⟩ := bind_eq_ok.1 read
        cases same
        exact readRest_ne_dollar found
      · rw [linked_key bracketed] at read
        obtain ⟨after, found⟩ := readFirst_of_parseChars (skipWhite_cons (by decide)) (by rfl) read
        exact not_dollar_of_readBracket bracketed found

theorem readRoot_name_ne {c : Char} {rest inner : List Char} (plain : Segment.isKeyChar c = true) :
    readRoot total ('$' :: c :: rest) ≠ .ok inner := by
  intro rooted
  rw [readRoot, skipWhite_cons (isWhite_of_isKeyChar plain)] at rooted
  split at rooted
  · next same =>
      obtain ⟨rfl, -⟩ := List.cons.inj same
      cases plain
  · next same =>
      obtain ⟨rfl, -⟩ := List.cons.inj same
      cases plain
  · next same => cases same
  · exact unexpected_ne_ok rooted

theorem unmarked_of_parseChars
    (read : parseChars (segment.chars ++ charsAfter segments) = .ok ⟨segment :: segments⟩) :
    Unmarked segment := by
  cases segment with
  | wildcard => trivial
  | key name =>
      intro bare marked
      rw [chars_of_bare bare] at read
      obtain ⟨rest, letters⟩ : ∃ rest, name.toList = '$' :: rest :=
        List.head?_eq_some_iff.1 marked
      cases rest with
      | nil =>
          obtain rfl : name = "$" := String.toList_injective letters
          exact parseChars_dollar_ne segments read
      | cons c rest =>
          have plain : Segment.isKeyChar c = true :=
            (letters_of_bare bare).2 c (by simp [letters])
          rw [letters, List.cons_append,
            parseChars_of_skipWhite (skipWhite_cons (by decide))] at read
          obtain ⟨inner, rooted, -⟩ := bind_eq_ok.1 read
          exact readRoot_name_ne plain rooted

theorem safe_of_parseChars
    (read : parseChars (segment.chars ++ charsAfter segments) = .ok ⟨segment :: segments⟩) :
    ∀ other ∈ segment :: segments, Safe other := by
  have first : Safe segment := by
    obtain bare | ⟨name, rfl, bracketed⟩ := bare_or_key segment
    · exact safe_of_bare bare
    · rw [chars_key bracketed] at read
      obtain ⟨after, found⟩ :=
        readFirst_of_parseChars (skipWhite_cons (by decide)) (readRoot_of_ne (by decide)) read
      exact fun _ => safe_of_readBracket found
  have whole := @parseChars_start (charsAfter segments) segment [] _ white_nil
    (start_chars (unmarked_of_parseChars read) first) (ends_charsAfter segments)
  rw [List.nil_append] at whole
  rw [whole] at read
  obtain ⟨more, found, same⟩ := bind_eq_ok.1 read
  cases same
  intro other member
  rcases List.mem_cons.1 member with rfl | member
  · exact first
  · exact safe_of_readRest found other member

/-! ## Written paths -/

theorem denotes_chars (unmarked : Unmarked segment)
    (safe : ∀ other ∈ segment :: segments, Safe other) :
    Denotes (segment.chars ++ charsAfter segments) (segment :: segments) := by
  have start := start_chars unmarked (safe segment List.mem_cons_self)
  have more := rest_charsAfter fun other member => safe other (List.mem_cons_of_mem segment member)
  have whole := Denotes.path white_nil start more white_nil
  rwa [List.nil_append, List.append_nil] at whole

/-- A written path is read back as it was just if it has a segment, its first segment is not a name
without brackets that begins with `$`, and no name that is written in brackets has a backslash. -/
theorem parse_render_iff (path : KeyPath) :
    parse path.render = .ok path ↔
      path.segments ≠ [] ∧
      (∀ name, path.segments.head? = some (.key name) → needsBrackets name = false →
        name.toList.head? ≠ some '$') ∧
      ∀ name, .key name ∈ path.segments → needsBrackets name = true → '\\' ∉ name.toList := by
  obtain ⟨segments⟩ := path
  rw [parse, render, String.toList_ofList]
  cases segments with
  | nil =>
      constructor
      · intro read
        cases read
      · intro conditions
        exact absurd rfl conditions.1
  | cons segment segments =>
      rw [chars]
      constructor
      · intro read
        refine ⟨List.cons_ne_nil _ _, ?_, ?_⟩
        · rintro name ⟨⟩
          exact unmarked_of_parseChars read
        · intro name member
          exact safe_of_parseChars read (.key name) member
      · rintro ⟨-, unmarked, safe⟩
        apply parseChars_of_denotes
        apply denotes_chars
        · cases segment with
          | wildcard => trivial
          | key name => exact unmarked name rfl
        · intro other member
          cases other with
          | wildcard => trivial
          | key name => exact safe name member

-- The quote behind the backslash closes the key, and the rest is read as another segment.
example : parse (render ⟨[.key "\\']"]⟩) = .error (.unexpectedChar 6 '\'' .separator) := by
  decide +kernel

end WorkflowScope.KeyPath
