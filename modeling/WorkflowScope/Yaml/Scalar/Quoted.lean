import WorkflowScope.Text.Hex
import WorkflowScope.Yaml.Cursor

/-!
# Quoted scalars

In single quotes only the quote itself is escaped, by doubling it; in double quotes a backslash
starts an escape. Both may run over several lines, which are folded.
-/

namespace WorkflowScope.Yaml.Quoted

inductive Quote where
  | single
  | double
  deriving DecidableEq, Repr

def Quote.char : Quote → Char
  | .single => '\''
  | .double => '"'

inductive Escape where
  /-- It stands for a character. -/
  | stands (c : Char)
  /-- It is followed by a code point of so many hexadecimal digits. -/
  | code (digits : Nat)

def Escape.ofChar? (c : Char) : Option Escape :=
  match c with
  | '0' => some (.stands '\x00')
  | 'a' => some (.stands '\x07')
  | 'b' => some (.stands '\x08')
  | 't' => some (.stands '\t')
  | '\t' => some (.stands '\t')
  | 'n' => some (.stands '\n')
  | 'v' => some (.stands '\x0b')
  | 'f' => some (.stands '\x0c')
  | 'r' => some (.stands '\r')
  | 'e' => some (.stands '\x1b')
  | ' ' => some (.stands ' ')
  | '"' => some (.stands '"')
  | '/' => some (.stands '/')
  | '\\' => some (.stands '\\')
  | 'N' => some (.stands '\u0085')
  | '_' => some (.stands '\u00a0')
  | 'L' => some (.stands '\u2028')
  | 'P' => some (.stands '\u2029')
  | 'x' => some (.code 2)
  | 'u' => some (.code 4)
  | 'U' => some (.code 8)
  | _ => none

/-- Reads an escape that stands for a character. -/
def readEscape (start : Mark) (c : Cursor) : Except SyntaxError (Cursor × Char) :=
  match Escape.ofChar? (c.peekAt 1) with
  | none => .error ⟨.quotedUnknownEscape, start⟩
  | some (.stands char) => .ok (c.skip 2, char)
  | some (.code digits) =>
      let c := (c.skip 2).lookAhead digits
      match Text.ofHex? ((List.range digits).map c.peekAt) with
      | none => .error ⟨.quotedHexadecimal, start⟩
      | some code =>
          match Text.charOfCode? code with
          | none => .error ⟨.quotedCodePoint, start⟩
          | some char => .ok (c.skip digits, char)

/-- Reads up to a blank, a line break or the closing quote. The last result tells whether it ended
at an escaped line break, which is read too. -/
def readRun (quote : Quote) (start : Mark) :
    Nat → Cursor → Except SyntaxError (Cursor × List Char × Bool)
  | 0, c => .ok (c, [], false)
  | fuel + 1, c =>
      let c := c.lookAhead 2
      let next := c.peek
      if isBlankBreakOrEnd next then .ok (c, [], false)
      else if quote = .single && next == '\'' && c.peekAt 1 == '\'' then do
        let (c, more, broken) ← readRun quote start fuel (c.skip 2)
        .ok (c, '\'' :: more, broken)
      else if next == quote.char then .ok (c, [], false)
      else if quote = .double && next == '\\' then
        if isBreak (c.peekAt 1) then .ok (((c.lookAhead 3).skip 1).skipBreak, [], true)
        else do
          let (c, char) ← readEscape start c
          let (c, more, broken) ← readRun quote start fuel c
          .ok (c, char :: more, broken)
      else do
        let (c, more, broken) ← readRun quote start fuel (c.skip 1)
        .ok (c, next :: more, broken)

/-- What was read since the last run. -/
structure Gap where
  /-- Blanks on the line of the last run. -/
  blanks : List Char := []
  /-- That line has ended. -/
  broken : Bool := false
  /-- It ended without an escape. -/
  folds : Bool := false
  /-- Number of line breaks after the first. -/
  empties : Nat := 0

def Gap.joined (gap : Gap) : List Char :=
  if !gap.broken then gap.blanks
  else if gap.folds && gap.empties == 0 then [' ']
  else List.replicate gap.empties '\n'

/-- Reads blanks and line breaks. After a line break no tab may stand before column `indent`. -/
def skipGap (indent : Int) : Nat → Cursor → Gap → Except SyntaxError (Cursor × Gap)
  | 0, c, gap => .ok (c, gap)
  | fuel + 1, c, gap =>
      if isBlank c.peek then
        if !gap.broken then
          skipGap indent fuel (c.skipBlank 1) { gap with blanks := gap.blanks ++ [c.peek] }
        else if c.peek == '\t' && c.column < indent then c.fail .quotedTab
        else skipGap indent fuel (c.skipBlank 1) gap
      else if isBreak c.peek then
        let after := (c.lookAhead 2).skipBreak
        if gap.broken then skipGap indent fuel after { gap with empties := gap.empties + 1 }
        else skipGap indent fuel after { gap with blanks := [], broken := true, folds := true }
      else .ok (c, gap)

def readRuns (quote : Quote) (indent : Int) (start : Mark) :
    Nat → Cursor → Except SyntaxError (Cursor × List Char)
  | 0, _ => .error ⟨.quotedEndOfStream, start⟩
  | fuel + 1, c =>
      let c := c.lookAhead 4
      if c.atDocumentIndicator then .error ⟨.quotedDocumentIndicator, start⟩
      else if isEnd c.peek then .error ⟨.quotedEndOfStream, start⟩
      else if c.column < indent then .error ⟨.quotedIndentation, start⟩
      else do
        let (c, run, escaped) ← readRun quote start (c.rest.length + 1) c
        if c.peek == quote.char then .ok (c, run)
        else
          let (c, gap) ← skipGap indent (c.rest.length + 1) c { broken := escaped }
          let (c, more) ← readRuns quote indent start fuel c
          .ok (c, run ++ gap.joined ++ more)

/-- What may stand after the closing quote, on the line `start` of the opening one. -/
def mayFollow (flow : Bool) (start : Mark) (c : Cursor) : Bool :=
  let next := c.peek
  isBreakOrEnd next ||
    (flow && (next == ',' || next == ']' || next == '\x7d' || next == ':')) ||
    (!flow && next == ':' && c.mark.line == start.line)

def read (quote : Quote) (flow : Bool) (indent : Int) (c : Cursor) :
    Except SyntaxError (Cursor × List Char) := do
  let start := c.mark
  let (c, value) ← readRuns quote indent start (c.rest.length + 1) (c.skip 1)
  let (c, _) ← (c.skip 1).skipToLineEnd
  if mayFollow flow start c then .ok (c, value) else c.fail .quotedTrailing

end WorkflowScope.Yaml.Quoted
