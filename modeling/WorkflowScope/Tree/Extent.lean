import WorkflowScope.Text.Lines
import WorkflowScope.Text.Span
import WorkflowScope.Text.Whitespace

/-!
# How far a scalar reaches

Events say only where a node starts, so its end is found in the text: a quoted scalar ends at its
closing quote, a plain one at its last word, a block scalar with its last content line. Block
scalars are marked at their content, so their header has to be found as well.
-/

namespace WorkflowScope.Extent

open Text

def singleQuotedLength : List Char → Nat
  | [] => 0
  | '\'' :: '\'' :: rest => singleQuotedLength rest + 2
  | c :: rest => if c = '\'' then 1 else singleQuotedLength rest + 1

def singleQuotedEnd (text : List Char) (mark : Nat) : Nat :=
  min (mark + 1 + singleQuotedLength (text.drop (mark + 1))) text.length

def doubleQuotedLength : List Char → Nat
  | [] => 0
  | '\\' :: _ :: rest => doubleQuotedLength rest + 2
  | c :: rest => if c = '"' then 1 else doubleQuotedLength rest + 1

def doubleQuotedEnd (text : List Char) (mark : Nat) : Nat :=
  min (mark + 1 + doubleQuotedLength (text.drop (mark + 1))) text.length

def endsAlias (c : Char) : Bool :=
  isWhite c || c == ',' || c == '[' || c == ']' || c == '\x7b' || c == '\x7d'

def aliasEnd (text : List Char) (mark : Nat) : Nat :=
  mark + 1 + ((text.drop (mark + 1)).takeWhile (!endsAlias ·)).length

/-- A line up to its comment. A comment begins at a `#` that is first or follows a white
character. -/
def beforeComment : Bool → List Char → List Char
  | _, [] => []
  | apart, c :: rest => if c = '#' && apart then [] else c :: beforeComment (isWhite c) rest

/-- Number of characters of a line without its comment and the white characters before it. -/
def contentLength (line : List Char) : Nat :=
  ((beforeComment true line).reverse.dropWhile isWhite).length

/-- The end of the last line with content, of lines that start at `offset`; `found` if none has. -/
def lastContentEnd (offset found : Nat) : List (List Char) → Nat
  | [] => found
  | line :: rest =>
      let content := contentLength line
      lastContentEnd (offset + line.length + 1) (if 0 < content then offset + content else found)
        rest

def standsVerbatim (text value : List Char) (mark : Nat) : Bool :=
  !value.contains '\n' && (text.drop mark).take value.length == value

def plainEnd (text value : List Char) (mark next : Nat) : Nat :=
  if standsVerbatim text value mark then mark + value.length
  else
    let lines := splitLines (Span.slice ⟨mark, max next mark⟩ text)
    min (max (lastContentEnd mark mark lines) (mark + 1)) text.length

/-- The characters that may follow `|` or `>` in a header. -/
def isHeaderIndicator (c : Char) : Bool :=
  c.isDigit || c == '+' || c == '-'

/-- What may stand before the header of a block scalar. -/
def isHeaderLead (c : Char) : Bool :=
  c == ' ' || c == '\t' || c == '\n' || c == '\r'

/-- The rest of a line after `|` or `>` makes it a header: indicators, blanks, and perhaps a comment
after a blank. -/
def finishesHeader (rest : List Char) : Bool :=
  let blanks := rest.dropWhile isHeaderIndicator
  let after := blanks.dropWhile fun c => c == ' ' || c == '\t'
  match after.head? with
  | none => true
  | some '\n' => true
  | some '\r' => true
  | some '#' => after.length < blanks.length
  | some _ => false

def isHeaderAt (text : List Char) (offset : Nat) : Bool :=
  match text.drop offset with
  | c :: rest =>
      (c == '|' || c == '>') &&
        (offset == 0 || (text[offset - 1]?).any isHeaderLead) && finishesHeader rest
  | [] => false

def lineStartBefore (text : List Char) (offset : Nat) : Nat :=
  let before := (text.take offset).reverse.takeWhile fun c => c != '\n' && c != '\r'
  min offset text.length - before.length

def headerBetween? (text : List Char) (start stop : Nat) : Option Nat :=
  (List.range' start (stop - start)).find? (isHeaderAt text)

def lineAboveEnd (text : List Char) (start : Nat) : Nat :=
  let stop := start - 1
  if 0 < stop && text[stop]? == some '\n' && text[stop - 1]? == some '\r' then stop - 1 else stop

/-- Looks for a header on the line that ends at `stop`, and on the lines above it as long as they
are blank. -/
def headerAbove? (text : List Char) : Nat → Nat → Option Nat
  | 0, _ => none
  | fuel + 1, stop =>
      let start := lineStartBefore text stop
      match headerBetween? text start stop with
      | some found => some found
      | none =>
          if start = 0 || !(Span.slice ⟨start, stop⟩ text).all isWhite then none
          else headerAbove? text fuel (lineAboveEnd text start)

/-- Where the header of the block scalar marked at `mark` starts; `mark` itself if none is found. -/
def blockStart (text : List Char) (mark : Nat) : Nat :=
  if isHeaderAt text mark then mark else (headerAbove? text (mark + 1) mark).getD mark

/-- The end of the last line that belongs to a block scalar, of lines that start at `offset`. Blank
lines at the end do not belong to it, nor do comments that stand further out than its first line
(`floor`). -/
def lastBlockLineEnd (offset found : Nat) (floor : Option Nat) : List (List Char) → Nat
  | [] => found
  | line :: rest =>
      let indent := (line.takeWhile (· == ' ')).length
      let body := line.drop indent
      let next := offset + line.length + 1
      if body.all isWhite then lastBlockLineEnd next found floor rest
      else
        let least := floor.getD indent
        let outerComment := body.head? == some '#' && indent < least
        let stop := if rest.isEmpty then offset + line.length else next
        lastBlockLineEnd next (if outerComment then found else stop) (some least) rest

/-- Where the block scalar whose header starts at `start` ends, when the next event stands at
`next`. Its last line takes its line feed along. -/
def blockEnd (text : List Char) (start next : Nat) : Nat :=
  let limit := max next start
  let region := Span.slice ⟨start, limit⟩ text
  let header := (region.takeWhile (· != '\n')).length
  if region.length ≤ header then limit
  else
    let first := start + header + 1
    lastBlockLineEnd first first none (splitLines (region.drop (header + 1)))

/-- The characters that may stand between a key and its colon. -/
def isKeyTail (c : Char) : Bool :=
  c == ' ' || c == '\t' || c == '"' || c == '\''

/-- The offset after the colon that follows a key on its line; the end of the key if there is
none. -/
def afterColon (text : List Char) (keyEnd : Nat) : Nat :=
  let tail := text.drop keyEnd
  let skipped := (tail.takeWhile isKeyTail).length
  if tail[skipped]? == some ':' then keyEnd + skipped + 1 else keyEnd

end WorkflowScope.Extent
