/-!
# Marks

A mark is a place of a YAML text as its reader counts: lines from one, columns from zero. A line
ends at a line feed, or at a carriage return that no line feed follows.
-/

namespace WorkflowScope.Yaml

structure Mark where
  /-- Characters before the place. -/
  index : Nat := 0
  /-- Line, from one. -/
  line : Nat := 1
  /-- Column, from zero. -/
  column : Nat := 0
  deriving DecidableEq, Repr, Inhabited

/-- Offsets past each line break of a text whose first character has offset `base`. -/
def startsAfterBreaks (base : Nat) : List Char → List Nat
  | [] => []
  | c :: rest =>
      if c = '\n' || (c = '\r' && rest.head? ≠ some '\n') then
        (base + 1) :: startsAfterBreaks (base + 1) rest
      else startsAfterBreaks (base + 1) rest

def lineStarts (text : List Char) : List Nat :=
  0 :: startsAfterBreaks 0 text

namespace Mark

/-- The character offset of a mark in a text of `length` characters with the given line starts. A
mark on no line stands for the end, as does one past it. -/
def offset (starts : List Nat) (length : Nat) (mark : Mark) : Nat :=
  match mark.line with
  | 0 => length
  | line + 1 =>
      match starts[line]? with
      | some start => min (start + mark.column) length
      | none => length

theorem offset_le (starts : List Nat) (length : Nat) (mark : Mark) :
    mark.offset starts length ≤ length := by
  unfold offset
  split
  · exact Nat.le_refl _
  · split
    · exact Nat.min_le_right _ _
    · exact Nat.le_refl _

end Mark

end WorkflowScope.Yaml
