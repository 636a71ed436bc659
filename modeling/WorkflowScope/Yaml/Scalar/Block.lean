import WorkflowScope.Yaml.Cursor

/-!
# Block scalars

A block scalar is a header (`|` or `>`, an indentation, what to do with trailing line breaks) and
the lines indented under it. A literal scalar keeps its line breaks, a folded one joins lines.
-/

namespace WorkflowScope.Yaml.Block

/-- What becomes of the line breaks at the end. -/
inductive Chomp where
  | strip
  | clip
  | keep
  deriving DecidableEq, Repr

def Chomp.ofChar? : Char → Option Chomp
  | '+' => some .keep
  | '-' => some .strip
  | _ => none

/-- What stands in a header after `|` or `>`. -/
structure Header where
  chomp : Chomp := .clip
  /-- The indentation relative to the parent, if it is given. -/
  indent : Option Nat := none

def readIndicator (start : Mark) (c : Cursor) : Except SyntaxError (Cursor × Option Nat) :=
  if c.peek.isDigit then
    if c.peek == '0' then .error ⟨.blockIndicatorZero, start⟩
    else .ok (c.skip 1, some (c.peek.toNat - '0'.toNat))
  else .ok (c, none)

/-- Reads a header: the two indicators come in either order. -/
def readHeader (start : Mark) (c : Cursor) : Except SyntaxError (Cursor × Header) :=
  match Chomp.ofChar? c.peek with
  | some chomp => do
      let (c, indent) ← readIndicator start (c.skip 1)
      .ok (c, { chomp, indent })
  | none => do
      let (c, indent) ← readIndicator start c
      match indent, Chomp.ofChar? c.peek with
      | some _, some chomp => .ok (c.skip 1, { chomp, indent })
      | _, _ => .ok (c, { indent })

/-- Number of characters that are read ahead at once. -/
def window : Nat := 16

/-- What is still read ahead once `spaces` spaces of an indentation have been read. -/
def aheadAfter (spaces : Nat) (complete : Bool) : Nat :=
  if 0 < spaces && spaces % window == 0 && complete then 2 else max 2 (window - spaces % window)

/-- Reads up to `indent` spaces, over lines that hold nothing more. Counts those lines. -/
def skipIndent (indent : Nat) : Nat → Cursor → Cursor × Nat
  | 0, c => (c, 0)
  | fuel + 1, c =>
      let spaces := min (c.upcoming (· == ' ')).length (indent - c.mark.column)
      let c := c.skipBlank spaces
      let c := { c with ahead := aheadAfter spaces (c.mark.column == indent) }
      if isBreak c.peek then
        let (c, more) := skipIndent indent fuel c.skipBreak
        (c, more + 1)
      else (c, 0)

/-- Reads all spaces, over lines that hold nothing more. Counts those lines, and finds the largest
column reached. -/
def skipSpaces : Nat → Cursor → Cursor × Nat × Nat
  | 0, c => (c, 0, 0)
  | fuel + 1, c =>
      let c := c.skipBlank (c.upcoming (· == ' ')).length
      if isBreak c.peek then
        let (after, more, widest) := skipSpaces fuel (c.lookAhead 2).skipBreak
        (after, more + 1, max c.mark.column widest)
      else (c, 0, c.mark.column)

def width8 : List Char → Nat
  | [] => 0
  | c :: rest => c.utf8Size + width8 rest

/-- Reads the rest of a line. Characters that have been read ahead count one column each; those
after them count by their UTF-8 bytes. -/
def readLine (c : Cursor) : Cursor × List Char :=
  let line := c.upcoming (!isBreakOrEnd ·)
  let columns := min line.length c.ahead + width8 (line.drop c.ahead)
  let after := c.skipBlank line.length
  let mark :=
    { c.mark with index := c.mark.index + columns, column := c.mark.column + columns }
  ({ after with mark }, line)

/-- What was read since the last content line. -/
structure Gap where
  /-- A content line came before. -/
  broken : Bool := false
  /-- It began with a blank. -/
  afterBlank : Bool := false
  /-- Number of empty lines. -/
  empties : Nat := 0

/-- What a gap contributes before a content line. Two lines that begin with no blank are folded. -/
def Gap.joined (gap : Gap) (folded beforeBlank : Bool) : List Char :=
  if folded && gap.broken && !gap.afterBlank && !beforeBlank then
    if gap.empties == 0 then [' '] else List.replicate gap.empties '\n'
  else List.replicate ((if gap.broken then 1 else 0) + gap.empties) '\n'

def readLines (folded : Bool) (indent : Nat) : Nat → Cursor → Gap → Cursor × List Char × Gap
  | 0, c, gap => (c, [], gap)
  | fuel + 1, c, gap =>
      if c.mark.column != indent || isEnd c.peek then (c, [], gap)
      else
        let c := if indent = 0 then c.lookAhead 4 else c
        if indent = 0 && c.startsWithMarker '.' then (c, [], gap)
        else
          let blank := isBlank c.peek
          let joint := gap.joined folded blank
          let (c, line) := readLine c
          if isEnd c.peek then (c, joint ++ line, { afterBlank := blank })
          else
            let c := (c.lookAhead 2).skipBreak
            let (c, empties) := skipIndent indent (c.rest.length + 1) c
            let (c, more, gap) :=
              readLines folded indent fuel c { broken := true, afterBlank := blank, empties }
            (c, joint ++ line ++ more, gap)

/-- What stays of the end of a scalar. -/
def tail (chomp : Chomp) (indent : Nat) (c : Cursor) (gap : Gap) : List Char :=
  let last := if gap.broken then ['\n'] else []
  let unbroken := if isEnd c.peek && max indent 1 ≤ c.mark.column then ['\n'] else []
  match chomp with
  | .strip => []
  | .clip => last ++ unbroken
  | .keep => last ++ unbroken ++ List.replicate gap.empties '\n'

def emptyValue (chomp : Chomp) (sameLine : Bool) (empties : Nat) : List Char :=
  match chomp with
  | .strip => []
  | .clip => if sameLine then [] else ['\n']
  | .keep => if sameLine then [] else List.replicate (max empties 1) '\n'

/-- The column of content lines under a parent indented by `parent`, when the header gives
`relative` or else spaces reach up to the column `widest`. -/
def contentIndent (parent : Int) (relative : Option Nat) (widest : Nat) : Nat :=
  match relative with
  | some n => if 0 ≤ parent then parent.toNat + n else n
  | none => max widest (parent + 1).toNat

/-- Reads a block scalar under a parent indented by `parent`. The mark is the one to report: that of
the first content line, or that of the indicator if the text ends before any. -/
def read (folded : Bool) (parent : Int) (c : Cursor) :
    Except SyntaxError (Cursor × List Char × Mark) := do
  let start := c.mark
  let (c, header) ← readHeader start (c.skip 1)
  let (c, _) ← c.skipToLineEnd
  if !isBreakOrEnd c.peek then .error ⟨.blockHeader, start⟩
  else
    let c := (c.lookAhead 2).skipBreak
    if c.peek == '\t' then .error ⟨.blockTab, start⟩
    else
      let (c, empties, indent) :=
        match header.indent with
        | some _ =>
            let indent := contentIndent parent header.indent 0
            let (c, empties) := skipIndent indent (c.rest.length + 1) c
            (c, empties, indent)
        | none =>
            let (c, empties, widest) := skipSpaces (c.rest.length + 1) c
            (c, empties, contentIndent parent none widest)
      if isEnd c.peek then
        .ok (c, emptyValue header.chomp (c.mark.line == start.line) empties, start)
      else if c.mark.column < indent && parent < c.column then c.fail .blockIndentation
      else
        let (after, value, gap) :=
          readLines folded indent (c.rest.length + 1) c { empties }
        .ok (after, value ++ tail header.chomp indent after gap, c.mark)

end WorkflowScope.Yaml.Block
