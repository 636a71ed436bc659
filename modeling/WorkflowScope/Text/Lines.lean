/-!
# Cutting a text into lines
-/

namespace WorkflowScope.Text

/-- The lines of a text, cut at line feeds, which are left out. -/
def splitLines : List Char → List (List Char)
  | [] => [[]]
  | c :: rest =>
      if c = '\n' then [] :: splitLines rest
      else
        match splitLines rest with
        | line :: more => (c :: line) :: more
        | [] => [[c]]

theorem splitLines_ne_nil (text : List Char) : splitLines text ≠ [] := by
  cases text with
  | nil => simp [splitLines]
  | cons c rest =>
      unfold splitLines
      split
      · simp
      · split <;> simp

end WorkflowScope.Text
