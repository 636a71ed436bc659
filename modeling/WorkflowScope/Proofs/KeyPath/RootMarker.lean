import WorkflowScope.Proofs.KeyPath.Reading

/-!
# The root marker

A root marker in front of a key path changes nothing, unless the path begins with white characters
and a bracket: behind the dot of a marker white characters are taken for the space before a name.
-/

namespace WorkflowScope.KeyPath

variable {text : List Char} {segment : Segment} {segments : List Segment}

/-- A first segment that is not marked can stand behind the dot of a marker, if it does not begin
with white characters and a bracket. -/
theorem first_of_start {before start : List Char} (white : White before)
    (derived : Start start segment)
    (unmarked : (skipWhite (before ++ (start ++ text))).head? ≠ some '$')
    (tight : (skipWhite (before ++ (start ++ text))).head? = some '[' → before = []) :
    First (before ++ start) segment := by
  cases derived with
  | bracket inner =>
      obtain ⟨inside, rfl⟩ := inner.exists_cons
      have opens : (skipWhite (before ++ ('[' :: inside ++ text))).head? = some '[' := by
        rw [List.cons_append, skipWhite_append_cons white (by decide)]
        rfl
      rw [tight opens]
      exact .bracket inner
  | dotted leading inner =>
      rw [← List.append_assoc]
      exact .dotted (white.append leading) inner
  | rootDot between inner =>
      refine absurd ?_ unmarked
      rw [List.cons_append, skipWhite_append_cons white (by decide)]
      rfl
  | rootBracket between inner =>
      refine absurd ?_ unmarked
      rw [List.cons_append, skipWhite_append_cons white (by decide)]
      rfl

theorem denotes_marked (derived : Denotes text segments)
    (unmarked : (skipWhite text).head? ≠ some '$')
    (tight : (skipWhite text).head? = some '[' → text.head? = some '[') :
    Denotes ('$' :: '.' :: text) segments := by
  cases derived with
  | @path before start rest behind first more white derived further trailing =>
      have inner : First (before ++ start) first := by
        refine first_of_start white derived unmarked fun opens => ?_
        have head := tight opens
        cases before with
        | nil => rfl
        | cons c before =>
            -- A bracket is not white.
            cases head
            cases white '[' List.mem_cons_self
      simpa using Denotes.path white_nil (Start.rootDot white_nil inner) further trailing

theorem readDotted_bracket {total : Nat} {before inside : List Char} (white : White before) :
    readDotted total (before ++ '[' :: inside) =
      .error (.unexpectedChar (total - (inside.length + 1)) '[' .keyName) := by
  rw [readDotted, skipWhite_append_cons white (by decide)]
  rfl

/-- Behind the dot of a marker a bracket is refused if white characters stand in front of it. -/
theorem parseChars_marked_bracket {before inside : List Char} (white : White before)
    (spaced : before ≠ []) :
    parseChars ('$' :: '.' :: (before ++ '[' :: inside)) =
      .error (.unexpectedChar (2 + before.length) '[' .keyName) := by
  have unbracketed : (before ++ '[' :: inside).head? ≠ some '[' := by
    cases before with
    | nil => exact absurd rfl spaced
    | cons c rest =>
        intro head
        cases head
        cases white '[' List.mem_cons_self
  have position : ('$' :: '.' :: (before ++ '[' :: inside)).length - (inside.length + 1) =
      2 + before.length := by
    simp only [List.length_cons, List.length_append]
    omega
  rw [parseChars_of_skipWhite (skipWhite_cons (by decide)), readRoot]
  simp only [skipWhite_cons (show Text.isWhite '.' = false by decide), ok_bind]
  rw [readFirst_of_head_ne unbracketed, readDotted_bracket white, error_bind, position]

/-- A root marker is ignored, unless it parts a bracket from the white characters before it. -/
theorem parse_marked (text : String) {path : KeyPath} (accepted : parse text = .ok path)
    (unmarked : (skipWhite text.toList).head? ≠ some '$') :
    parse ("$." ++ text) =
      if (skipWhite text.toList).head? = some '[' ∧ text.toList.head? ≠ some '[' then
        .error (.unexpectedChar (2 + (text.toList.takeWhile Text.isWhite).length) '[' .keyName)
      else parse text := by
  have marked : ("$." ++ text).toList = '$' :: '.' :: text.toList := by
    rw [String.toList_append]
    rfl
  split
  · next spaced =>
      obtain ⟨bracket, loose⟩ := spaced
      obtain ⟨inside, skipped⟩ := List.head?_eq_some_iff.1 bracket
      have parts : text.toList.takeWhile Text.isWhite ++ '[' :: inside = text.toList := by
        rw [← skipped]
        exact List.takeWhile_append_dropWhile
      rw [parse, marked, ← parts, parseChars_marked_bracket, parts]
      · exact fun c member => List.mem_takeWhile_imp member
      · intro none
        rw [none] at parts
        exact loose (by rw [← parts]; rfl)
  · next tight =>
      have derived := denotes_of_parseChars accepted
      have opens : (skipWhite text.toList).head? = some '[' → text.toList.head? = some '[' := by
        intro bracket
        by_contra loose
        exact tight ⟨bracket, loose⟩
      rw [accepted, parse, marked]
      exact parseChars_of_denotes (denotes_marked derived unmarked opens)

theorem parse_marked_spacedBracket :
    parse " ['a'].b" = .ok ⟨[.key "a", .key "b"]⟩ ∧
      (skipWhite " ['a'].b".toList).head? ≠ some '$' ∧
      parse ("$." ++ " ['a'].b") = .error (.unexpectedChar 3 '[' .keyName) := by
  have accepted : parse " ['a'].b" = .ok ⟨[.key "a", .key "b"]⟩ := by decide +kernel
  have unmarked : (skipWhite " ['a'].b".toList).head? ≠ some '$' := by decide +kernel
  exact ⟨accepted, unmarked, parse_marked _ accepted unmarked⟩

end WorkflowScope.KeyPath
