import WorkflowScope.Text.Span
import WorkflowScope.Text.Word

/-!
# Lines and positions

Trees speak in character offsets, editors in positions: a line and a column of UTF-16 units. Lines
end at a line feed; a carriage return before it (or at the end of the text) is no part of a line's
content.
-/

namespace WorkflowScope

/-- A place in a text as an editor names it, with both counts from zero. -/
structure Position where
  line : Nat
  character : Nat
  deriving DecidableEq, Repr, Inhabited

namespace Position

def le (a b : Position) : Bool :=
  a.line < b.line || (a.line == b.line && a.character ≤ b.character)

theorem le_iff {a b : Position} :
    a.le b = true ↔ a.line < b.line ∨ (a.line = b.line ∧ a.character ≤ b.character) := by
  simp [le]

end Position

structure Range where
  start : Position
  stop : Position
  deriving DecidableEq, Repr, Inhabited

namespace Range

def contains (range : Range) (position : Position) : Bool :=
  range.start.le position && position.le range.stop

end Range

namespace Text

def units16 (c : Char) : Nat :=
  if c.toNat < 0x10000 then 1 else 2

def width16 : List Char → Nat
  | [] => 0
  | c :: rest => units16 c + width16 rest

/-- Offsets just past each line feed of a text whose first character has offset `base`. -/
def startsAfterFeeds (base : Nat) : List Char → List Nat
  | [] => []
  | c :: rest =>
      if c = '\n' then (base + 1) :: startsAfterFeeds (base + 1) rest
      else startsAfterFeeds (base + 1) rest

def lineStarts (text : List Char) : List Nat :=
  0 :: startsAfterFeeds 0 text

/-- How many of `content` fit into a column of `units` UTF-16 units. A character that would pass the
column does not fit. -/
def fitting (units : Nat) : List Char → Nat
  | [] => 0
  | c :: rest => if units16 c ≤ units then fitting (units - units16 c) rest + 1 else 0

theorem fitting_le (units : Nat) (content : List Char) :
    fitting units content ≤ content.length := by
  induction content generalizing units with
  | nil => simp [fitting]
  | cons c rest ih =>
      simp only [fitting, List.length_cons]
      split
      · exact Nat.succ_le_succ (ih _)
      · exact Nat.zero_le _

end Text

structure LineIndex where
  text : List Char
  starts : List Nat

namespace LineIndex

open Text

def ofText (text : List Char) : LineIndex :=
  { text, starts := lineStarts text }

def length (index : LineIndex) : Nat :=
  index.text.length

def isEmpty (index : LineIndex) : Bool :=
  index.text.isEmpty

def lineCount (index : LineIndex) : Nat :=
  index.starts.length

/-- The offset at which a line starts; the end of the text for a line that is not there. -/
def lineStart (index : LineIndex) (line : Nat) : Nat :=
  index.starts.getD line index.length

def lineOf (index : LineIndex) (offset : Nat) : Nat :=
  index.starts.countP (· ≤ offset) - 1

/-- The position of a character offset; offsets past the end stand for the end. -/
def positionAt (index : LineIndex) (offset : Nat) : Position :=
  let offset := min offset index.length
  let line := index.lineOf offset
  let before := Span.slice ⟨index.lineStart line, offset⟩ index.text
  { line := Word32.wrap line, character := Word32.wrap (width16 before) }

/-- The offset past the last character of a line, its `\n` or `\r\n` left out. -/
def lineContentEnd (index : LineIndex) (line : Nat) : Nat :=
  let stop := match index.starts[line + 1]? with
    | some next => next - 1
    | none => index.length
  if index.lineStart line < stop && index.text[stop - 1]? == some '\r' then stop - 1 else stop

/-- The character offset of a position. Lines past the end stand for the end of the text, columns
past the end of a line for the end of its content. -/
def offsetAt (index : LineIndex) (position : Position) : Nat :=
  if index.lineCount ≤ position.line then index.length
  else
    let start := index.lineStart position.line
    let content := Span.slice ⟨start, index.lineContentEnd position.line⟩ index.text
    start + fitting position.character content

def rangeOf (index : LineIndex) (span : Span) : Range :=
  { start := index.positionAt span.start, stop := index.positionAt span.stop }

def slice (index : LineIndex) (span : Span) : String :=
  String.ofList (span.slice index.text)

end LineIndex

end WorkflowScope
