import WorkflowScope.Proofs.Tree.Scanning

/-!
# Where a quoted scalar ends

Between its quotes a quoted scalar is a sequence of units. With single quotes a unit is a doubled
quote or any other character; with double quotes it is a backslash with the character behind it, or
any character that is neither backslash nor quote. The search for the closing quote goes on by whole
units. So it stops at the first quote that is part of none, however many quotes or backslashes stand
in front of it and whatever stands behind it.
-/

namespace WorkflowScope.Extent

/-- What may stand between single quotes: a quote there is written twice. -/
inductive SingleQuotedBody : List Char → Prop where
  | empty : SingleQuotedBody []
  | char {c : Char} {rest : List Char} (plain : c ≠ '\'') (body : SingleQuotedBody rest) :
      SingleQuotedBody (c :: rest)
  | quote {rest : List Char} (body : SingleQuotedBody rest) :
      SingleQuotedBody ('\'' :: '\'' :: rest)

/-- What may stand between double quotes: a backslash takes the character behind it along. -/
inductive DoubleQuotedBody : List Char → Prop where
  | empty : DoubleQuotedBody []
  | char {c : Char} {rest : List Char} (unescaped : c ≠ '\\') (plain : c ≠ '"')
      (body : DoubleQuotedBody rest) : DoubleQuotedBody (c :: rest)
  | escape (c : Char) {rest : List Char} (body : DoubleQuotedBody rest) :
      DoubleQuotedBody ('\\' :: c :: rest)

/-- A scalar in single quotes begins at `mark`: `body` stands in it, and `rest` behind it. -/
structure ClosesSingle (text : List Char) (mark : Nat) (body rest : List Char) : Prop where
  written : text.drop mark = '\'' :: (body ++ '\'' :: rest)
  inside : SingleQuotedBody body
  single : rest.head? ≠ some '\''

/-- A scalar in double quotes begins at `mark`: `body` stands in it, and `rest` behind it. -/
structure ClosesDouble (text : List Char) (mark : Nat) (body rest : List Char) : Prop where
  written : text.drop mark = '"' :: (body ++ '"' :: rest)
  inside : DoubleQuotedBody body

variable {text body rest : List Char} {mark : Nat}

/-! ## The search goes on by units -/

/-- The search passes a whole body, whatever follows. -/
theorem SingleQuotedBody.length_append (inside : SingleQuotedBody body) (rest : List Char) :
    singleQuotedLength (body ++ rest) = body.length + singleQuotedLength rest := by
  induction inside with
  | empty => rw [List.nil_append, List.length_nil, Nat.zero_add]
  | char plain _ ih =>
      rw [List.cons_append, singleQuotedLength_char plain, ih, List.length_cons,
        Nat.add_right_comm]
  | quote _ ih =>
      rw [List.cons_append, List.cons_append, singleQuotedLength, ih, List.length_cons,
        List.length_cons, Nat.add_right_comm]

theorem DoubleQuotedBody.length_append (inside : DoubleQuotedBody body) (rest : List Char) :
    doubleQuotedLength (body ++ rest) = body.length + doubleQuotedLength rest := by
  induction inside with
  | empty => rw [List.nil_append, List.length_nil, Nat.zero_add]
  | char unescaped plain _ ih =>
      rw [List.cons_append, doubleQuotedLength_char unescaped plain, ih, List.length_cons,
        Nat.add_right_comm]
  | escape c _ ih =>
      rw [List.cons_append, List.cons_append, doubleQuotedLength, ih, List.length_cons,
        List.length_cons, Nat.add_right_comm]

/-! ## Behind the opening quote -/

theorem behind_of_drop {c : Char} {after : List Char} (written : text.drop mark = c :: after) :
    text.drop (mark + 1) = after ∧ text.length = mark + 1 + after.length := by
  have size := congrArg List.length written
  rw [List.length_drop, List.length_cons] at size
  refine ⟨?_, by omega⟩
  rw [← List.drop_drop, written, List.drop_one, List.tail_cons]

/-- A quoted scalar ends behind its own closing quote, whatever text follows. -/
theorem quotedEnd_of_closes (text : List Char) (mark : Nat) :
    (∀ body rest, ClosesSingle text mark body rest →
        singleQuotedEnd text mark = mark + body.length + 2) ∧
      ∀ body rest, ClosesDouble text mark body rest →
        doubleQuotedEnd text mark = mark + body.length + 2 := by
  constructor
  · intro body rest closes
    obtain ⟨behind, size⟩ := behind_of_drop closes.written
    rw [List.length_append, List.length_cons] at size
    rw [singleQuotedEnd, behind, closes.inside.length_append,
      singleQuotedLength_close closes.single]
    omega
  · intro body rest closes
    obtain ⟨behind, size⟩ := behind_of_drop closes.written
    rw [List.length_append, List.length_cons] at size
    rw [doubleQuotedEnd, behind, closes.inside.length_append, doubleQuotedLength_close]
    omega

/-- Two quoted scalars, of which one ends in a quote and the other in a backslash. -/
def quotedPair : List Char :=
  "['it''', \"a\\\\\"]".toList

theorem quotedEnd_quotedPair :
    ClosesSingle quotedPair 1 ['i', 't', '\'', '\''] (quotedPair.drop 7) ∧
      singleQuotedEnd quotedPair 1 = 7 ∧
      ClosesDouble quotedPair 9 ['a', '\\', '\\'] (quotedPair.drop 14) ∧
      doubleQuotedEnd quotedPair 9 = 14 := by
  have single : ClosesSingle quotedPair 1 ['i', 't', '\'', '\''] (quotedPair.drop 7) :=
    ⟨by decide, .char (by decide) (.char (by decide) (.quote .empty)), by decide⟩
  have double : ClosesDouble quotedPair 9 ['a', '\\', '\\'] (quotedPair.drop 14) :=
    ⟨by decide, .char (by decide) (by decide) (.escape '\\' .empty)⟩
  exact ⟨single, (quotedEnd_of_closes quotedPair 1).1 _ _ single,
    double, (quotedEnd_of_closes quotedPair 9).2 _ _ double⟩

/-! ## Quotes that are not closed -/

/-- A text is all a body, or a body and a quote that closes it. -/
theorem exists_singleQuotedBody (after : List Char) :
    SingleQuotedBody after ∨
      ∃ body rest, after = body ++ '\'' :: rest ∧ SingleQuotedBody body ∧
        rest.head? ≠ some '\'' := by
  fun_induction singleQuotedLength after with
  | case1 => exact .inl .empty
  | case2 rest ih =>
      rcases ih with whole | ⟨body, more, rfl, inside, single⟩
      · exact .inl (.quote whole)
      · exact .inr ⟨_ :: _ :: body, more, rfl, .quote inside, single⟩
  | case3 rest other =>
      refine .inr ⟨[], rest, rfl, .empty, fun doubled => ?_⟩
      obtain ⟨more, rfl⟩ := List.head?_eq_some_iff.1 doubled
      exact other more rfl rfl
  | case4 c rest other plain ih =>
      rcases ih with whole | ⟨body, more, rfl, inside, single⟩
      · exact .inl (.char plain whole)
      · exact .inr ⟨_ :: body, more, rfl, .char plain inside, single⟩

/-- A text is a body and a quote that closes it, or nothing but a body, or a body and a backslash
that has nothing to take along. -/
theorem exists_doubleQuotedBody (after : List Char) :
    ∃ body rest, after = body ++ rest ∧ DoubleQuotedBody body ∧
      (rest = [] ∨ rest = ['\\'] ∨ ∃ more, rest = '"' :: more) := by
  fun_induction doubleQuotedLength after with
  | case1 => exact ⟨[], [], rfl, .empty, .inl rfl⟩
  | case2 c rest ih =>
      obtain ⟨body, more, rfl, inside, ends⟩ := ih
      exact ⟨_ :: _ :: body, more, rfl, .escape c inside, ends⟩
  | case3 rest other => exact ⟨[], _, rfl, .empty, .inr (.inr ⟨rest, rfl⟩)⟩
  | case4 c rest other plain ih =>
      by_cases escape : c = '\\'
      · cases rest with
        | nil => exact ⟨[], _, rfl, .empty, .inr (.inl (by rw [escape]))⟩
        | cons d more => exact absurd rfl (other d more escape)
      · obtain ⟨body, more, rfl, inside, ends⟩ := ih
        exact ⟨_ :: body, more, rfl, .char escape plain inside, ends⟩

/-- A scalar whose single quote is not closed reaches to the end of the text. -/
theorem closesSingle_or_open (opens : text[mark]? = some '\'') :
    (∃ body rest, ClosesSingle text mark body rest) ∨ singleQuotedEnd text mark = text.length := by
  have written := Guarded.drop_eq_cons opens
  obtain ⟨-, size⟩ := behind_of_drop written
  rcases exists_singleQuotedBody (text.drop (mark + 1)) with
    whole | ⟨body, rest, same, inside, single⟩
  · right
    have all : singleQuotedLength (text.drop (mark + 1)) = (text.drop (mark + 1)).length := by
      simpa [singleQuotedLength] using whole.length_append []
    rw [singleQuotedEnd, all, ← size, Nat.min_self]
  · exact .inl ⟨body, rest, same ▸ written, inside, single⟩

/-- A scalar whose double quote is not closed reaches to the end of the text. -/
theorem closesDouble_or_open (opens : text[mark]? = some '"') :
    (∃ body rest, ClosesDouble text mark body rest) ∨ doubleQuotedEnd text mark = text.length := by
  have written := Guarded.drop_eq_cons opens
  obtain ⟨-, size⟩ := behind_of_drop written
  obtain ⟨body, rest, same, inside, ends⟩ := exists_doubleQuotedBody (text.drop (mark + 1))
  have passed := inside.length_append rest
  rcases ends with rfl | rfl | ⟨more, rfl⟩
  · right
    rw [same, List.length_append] at size
    rw [doubleQuotedEnd, same, passed, doubleQuotedLength, size, List.length_nil, Nat.min_self]
  · right
    rw [same, List.length_append] at size
    rw [doubleQuotedEnd, same, passed, doubleQuotedLength_backslash, size, List.length_singleton,
      Nat.min_self]
  · exact .inl ⟨body, more, same ▸ written, inside⟩

end WorkflowScope.Extent
