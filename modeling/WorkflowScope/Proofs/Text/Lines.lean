import WorkflowScope.Text.Lines

/-!
# Lines put together again

Cutting a text into lines loses nothing but the line feeds: the lines have none, there is one more of
them than there were feeds, and put together they are the text. Lines that are put together are cut
into the same lines again.
-/

namespace WorkflowScope.Text

/-- Lines with a line feed between each two. -/
def joinLines : List (List Char) → List Char
  | [] => []
  | [last] => last
  | line :: next :: rest => line ++ '\n' :: joinLines (next :: rest)

theorem joinLines_cons_cons (c : Char) (line : List Char) (rest : List (List Char)) :
    joinLines ((c :: line) :: rest) = c :: joinLines (line :: rest) := by
  cases rest <;> rfl

/-- Cutting a text into lines loses nothing but the line feeds. -/
@[simp] theorem joinLines_splitLines (text : List Char) : joinLines (splitLines text) = text := by
  induction text with
  | nil => rfl
  | cons c rest ih =>
      obtain ⟨line, more, lines⟩ := List.exists_cons_of_ne_nil (splitLines_ne_nil rest)
      rw [lines] at ih
      by_cases feed : c = '\n'
      · simp [splitLines, feed, lines, joinLines, ih]
      · simp [splitLines, feed, lines, joinLines_cons_cons, ih]

/-- A line has no line feed in it. -/
theorem not_mem_of_mem_splitLines {text line : List Char} (member : line ∈ splitLines text) :
    '\n' ∉ line := by
  induction text generalizing line with
  | nil =>
      obtain rfl : line = [] := by simpa [splitLines] using member
      exact List.not_mem_nil
  | cons c rest ih =>
      obtain ⟨first, more, lines⟩ := List.exists_cons_of_ne_nil (splitLines_ne_nil rest)
      rw [lines] at ih
      by_cases feed : c = '\n'
      · rw [splitLines, if_pos feed, lines] at member
        rcases List.mem_cons.1 member with rfl | later
        · exact List.not_mem_nil
        · exact ih later
      · rw [splitLines, if_neg feed, lines] at member
        rcases List.mem_cons.1 member with rfl | later
        · exact List.not_mem_cons_of_ne_of_not_mem (Ne.symm feed) (ih List.mem_cons_self)
        · exact ih (List.mem_cons_of_mem _ later)

theorem length_splitLines (text : List Char) :
    (splitLines text).length = text.count '\n' + 1 := by
  induction text with
  | nil => rfl
  | cons c rest ih =>
      obtain ⟨first, more, lines⟩ := List.exists_cons_of_ne_nil (splitLines_ne_nil rest)
      rw [lines] at ih
      by_cases feed : c = '\n'
      · simp [splitLines, feed, lines, ← ih]
      · simpa [splitLines, feed, lines] using ih

/-- The last line of a text is empty just if the text is, or ends in a line feed. -/
theorem getLast?_splitLines_eq_nil_iff (text : List Char) :
    (splitLines text).getLast? = some [] ↔ text = [] ∨ text.getLast? = some '\n' := by
  induction text with
  | nil => simp [splitLines]
  | cons c rest ih =>
      obtain ⟨first, more, lines⟩ := List.exists_cons_of_ne_nil (splitLines_ne_nil rest)
      have joined := joinLines_splitLines rest
      rw [lines] at ih joined
      by_cases feed : c = '\n'
      · rw [splitLines, if_pos feed, lines, List.getLast?_cons_cons, ih]
        cases rest with
        | nil => simp [feed]
        | cons next rest => simp [List.getLast?_cons_cons]
      · rw [splitLines, if_neg feed, lines]
        cases more with
        | nil =>
            have last : first = rest := joined
            subst last
            cases first with
            | nil => simp [feed]
            | cons next rest => simpa [List.getLast?_cons_cons] using ih
        | cons second more =>
            have written : rest ≠ [] := by
              rintro rfl
              simp [splitLines] at lines
            obtain ⟨next, rest, rfl⟩ := List.exists_cons_of_ne_nil written
            simpa [List.getLast?_cons_cons] using ih

/-! ## Lines that are put together -/

theorem joinLines_cons_of_ne_nil (line : List Char) {lines : List (List Char)}
    (some_line : lines ≠ []) : joinLines (line :: lines) = line ++ '\n' :: joinLines lines := by
  cases lines with
  | nil => exact absurd rfl some_line
  | cons => rfl

/-- Lines are put together from what stands before a place on a line and what stands behind it. -/
theorem joinLines_append_cons (front back : List (List Char)) (before behind : List Char) :
    joinLines (front ++ (before ++ behind) :: back) =
      joinLines (front ++ [before]) ++ joinLines (behind :: back) := by
  induction front with
  | nil => cases back <;> simp [joinLines]
  | cons line front ih =>
      rw [List.cons_append, List.cons_append, joinLines_cons_of_ne_nil line (by simp),
        joinLines_cons_of_ne_nil line (by simp), ih, List.append_assoc, List.cons_append]

theorem splitLines_append_feed {line : List Char} (plain : '\n' ∉ line) (rest : List Char) :
    splitLines (line ++ '\n' :: rest) = line :: splitLines rest := by
  induction line with
  | nil => simp [splitLines]
  | cons c line ih =>
      rw [List.mem_cons, not_or] at plain
      rw [List.cons_append, splitLines, if_neg (Ne.symm plain.1), ih plain.2]

theorem splitLines_of_not_mem {line : List Char} (plain : '\n' ∉ line) :
    splitLines line = [line] := by
  induction line with
  | nil => rfl
  | cons c line ih =>
      rw [List.mem_cons, not_or] at plain
      rw [splitLines, if_neg (Ne.symm plain.1), ih plain.2]

/-- Lines put together are cut into the same lines again. -/
theorem splitLines_joinLines {lines : List (List Char)} (some_line : lines ≠ [])
    (plain : ∀ line ∈ lines, '\n' ∉ line) : splitLines (joinLines lines) = lines := by
  induction lines with
  | nil => exact absurd rfl some_line
  | cons line rest ih =>
      have first := plain line List.mem_cons_self
      cases rest with
      | nil => exact splitLines_of_not_mem first
      | cons next more =>
          rw [joinLines, splitLines_append_feed first,
            ih (List.cons_ne_nil _ _) fun other later => plain other (List.mem_cons_of_mem _ later)]

theorem exists_splitLines_concat (text : List Char) :
    ∃ front last, splitLines text = front ++ [last] :=
  ⟨_, _, (List.dropLast_concat_getLast (splitLines_ne_nil text)).symm⟩

/-- A text ends as its last line does, unless that is empty. -/
theorem getLast?_of_splitLines {text last : List Char} {front : List (List Char)}
    (lines : splitLines text = front ++ [last]) (some_last : last ≠ []) :
    text.getLast? = last.getLast? := by
  have joined := joinLines_append_cons front [] [] last
  rw [List.nil_append, ← lines, joinLines_splitLines, joinLines] at joined
  rw [joined, List.getLast?_append, List.getLast?_eq_some_getLast some_last, Option.some_or]

/-- Where two texts meet, the last line of the one and the first of the other are one line. -/
theorem splitLines_append {before behind last first : List Char} {front back : List (List Char)}
    (beforeLines : splitLines before = front ++ [last])
    (behindLines : splitLines behind = first :: back) :
    splitLines (before ++ behind) = front ++ (last ++ first) :: back := by
  have joined : before ++ behind = joinLines (front ++ (last ++ first) :: back) := by
    rw [joinLines_append_cons, ← beforeLines, ← behindLines, joinLines_splitLines,
      joinLines_splitLines]
  have plainBefore (line : List Char) := @not_mem_of_mem_splitLines before line
  have plainBehind (line : List Char) := @not_mem_of_mem_splitLines behind line
  rw [beforeLines] at plainBefore
  rw [behindLines] at plainBehind
  rw [joined]
  refine splitLines_joinLines (by simp) fun line member => ?_
  rcases List.mem_append.1 member with earlier | here
  · exact plainBefore line (List.mem_append_left _ earlier)
  · rcases List.mem_cons.1 here with rfl | later
    · rw [List.mem_append, not_or]
      exact ⟨plainBefore last (by simp), plainBehind first List.mem_cons_self⟩
    · exact plainBehind line (List.mem_cons_of_mem _ later)

/-- A text begins as its first line does, unless that is empty. -/
theorem mem_head?_joinLines {line : List Char} {back : List (List Char)} {d : Char}
    (first : d ∈ (joinLines (line :: back)).head?) : d ∈ line.head? ∨ d = '\n' := by
  cases back with
  | nil => exact .inl first
  | cons second more =>
      cases line with
      | nil => exact .inr (Option.some.inj first).symm
      | cons e line => exact .inl first

end WorkflowScope.Text
