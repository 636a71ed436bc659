import WorkflowScope.Yaml.Alphabet
import WorkflowScope.Yaml.Fault

/-!
# Reading a YAML text

A cursor is the unread part of a text, the mark that has been reached, and two facts about the way
there: whether only blanks were read on the current line, and how many characters have been read
ahead.
-/

namespace WorkflowScope.Yaml

/-- A place in a text together with what follows it. -/
structure Cursor where
  /-- What has not been read. -/
  rest : List Char
  mark : Mark := {}
  /-- Only blanks have been read on this line. -/
  atLineStart : Bool := true
  /-- Number of characters that have been read ahead; at least the next one. -/
  ahead : Nat := 1
  deriving Repr, Inhabited

namespace Cursor

def peek (c : Cursor) : Char :=
  c.rest.headD '\x00'

def peekAt (c : Cursor) (n : Nat) : Char :=
  c.rest.getD n '\x00'

def column (c : Cursor) : Int :=
  c.mark.column

def lookAhead (n : Nat) (c : Cursor) : Cursor :=
  { c with ahead := max c.ahead n }

def skipBlank (n : Nat) (c : Cursor) : Cursor :=
  { c with
    rest := c.rest.drop n
    mark := { c.mark with index := c.mark.index + n, column := c.mark.column + n }
    ahead := max (c.ahead - n) 1 }

/-- Reads `n` characters of the current line that are not blank. -/
def skip (n : Nat) (c : Cursor) : Cursor :=
  { c.skipBlank n with atLineStart := false }

def breakWidth (c : Cursor) : Nat :=
  if c.peek == '\r' && c.peekAt 1 == '\n' then 2 else if isBreak c.peek then 1 else 0

/-- Reads one line break, if there is one. -/
def skipBreak (c : Cursor) : Cursor :=
  match c.breakWidth with
  | 0 => c
  | width =>
    { rest := c.rest.drop width
      mark := { index := c.mark.index + width, line := c.mark.line + 1, column := 0 }
      atLineStart := true
      ahead := max (c.ahead - width) 1 }

def upcoming (p : Char → Bool) (c : Cursor) : List Char :=
  c.rest.takeWhile p

def skipComment (c : Cursor) : Cursor :=
  match (c.upcoming (!isBreakOrEnd ·)).length with
  | 0 => c
  | n => c.skip n

/-- `---` or `...`, written with `c`, stands at the start of this line and alone. -/
def startsWithMarker (c : Cursor) (dash : Char) : Bool :=
  c.peek == dash && c.peekAt 1 == dash && c.peekAt 2 == dash && isBlankBreakOrEnd (c.peekAt 3)

/-- The next line begins or ends a document. -/
def atDocumentIndicator (c : Cursor) : Bool :=
  c.mark.column == 0 && (c.startsWithMarker '-' || c.startsWithMarker '.')

def fail {α : Type} (c : Cursor) (fault : Fault) : Except SyntaxError α :=
  .error { fault, mark := c.mark }

/-- Which blanks stood between a token and the end of its line or the next token. -/
structure Gap where
  tabs : Bool
  spaces : Bool

/-- Reads blanks, and a comment after them. A comment that touches the token before it is
refused. -/
def skipToLineEnd (c : Cursor) : Except SyntaxError (Cursor × Gap) :=
  let blanks := c.upcoming isBlank
  let gap := { tabs := blanks.contains '\t', spaces := blanks.contains ' ' }
  let c := c.skipBlank blanks.length
  if c.peek == '#' then
    if blanks.isEmpty then c.fail .commentNotSeparated else .ok (c.skipComment, gap)
  else .ok (c, gap)

@[simp] theorem rest_lookAhead (n : Nat) (c : Cursor) : (c.lookAhead n).rest = c.rest := rfl

@[simp] theorem rest_skipBlank (n : Nat) (c : Cursor) : (c.skipBlank n).rest = c.rest.drop n := rfl

@[simp] theorem rest_skip (n : Nat) (c : Cursor) : (c.skip n).rest = c.rest.drop n := rfl

end Cursor

end WorkflowScope.Yaml
