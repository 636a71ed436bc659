import WorkflowScope.Yaml.Cursor

/-!
# Plain scalars

A plain scalar is words without quotes. Blanks between two words of a line are kept; a line break
between two words becomes a space, and of `k > 1` line breaks `k - 1` are kept.
-/

namespace WorkflowScope.Yaml.Plain

/-- The word at the start of a text: it ends at a blank, at a colon that ends a key, and in a flow
collection at one of its indicators. -/
def word (flow : Bool) : List Char → List Char
  | [] => []
  | c :: rest =>
      let next := rest.headD '\x00'
      let colon := c == ':' && (isBlankBreakOrEnd next || (flow && isFlow next))
      if isBlankBreakOrEnd c || colon || (flow && isFlow c) then [] else c :: word flow rest

/-- What was read since the last word. -/
structure Gap where
  /-- Blanks on the line of the last word. -/
  blanks : List Char := []
  /-- That line has ended. -/
  broken : Bool := false
  /-- Number of line breaks after the first. -/
  empties : Nat := 0

def Gap.joined (gap : Gap) (atLineStart : Bool) : List Char :=
  if atLineStart then
    if gap.broken && gap.empties == 0 then [' '] else List.replicate gap.empties '\n'
  else gap.blanks

/-- Reads the blanks and line breaks between two words. Before column `indent` a tab may only stand
on a line without content. -/
def skipGap (indent : Int) (start : Mark) :
    Nat → Cursor → Gap → Except SyntaxError (Cursor × Gap)
  | 0, c, gap => .ok (c, gap)
  | fuel + 1, c, gap =>
      if isBlank c.peek then
        if !c.atLineStart then
          skipGap indent start fuel (c.skipBlank 1) { gap with blanks := gap.blanks ++ [c.peek] }
        else if c.column < indent && c.peek == '\t' then do
          let (after, _) ← c.skipToLineEnd
          if !isBreakOrEnd after.peek then .error ⟨.plainTab, start⟩
          else skipGap indent start fuel after gap
        else skipGap indent start fuel (c.skipBlank 1) gap
      else if isBreak c.peek then
        if c.atLineStart then
          let gap := { gap with empties := gap.empties + 1 }
          skipGap indent start fuel (c.lookAhead 2).skipBreak gap
        else
          let gap := { gap with blanks := [], broken := true }
          skipGap indent start fuel (c.lookAhead 2).skipBreak gap
      else .ok (c, gap)

def readWords (flow : Bool) (indent : Int) (start : Mark) :
    Nat → Cursor → Gap → Except SyntaxError (Cursor × List Char)
  | 0, c, _ => .ok (c, [])
  | fuel + 1, c, gap =>
      let c := c.lookAhead 4
      if c.atDocumentIndicator || c.peek == '#' then .ok (c, [])
      else if flow && c.peek == '-' && isFlow (c.peekAt 1) then c.fail .plainDashInFlow
      else
        let found := word flow c.rest
        let text := if found.isEmpty then [] else gap.joined c.atLineStart ++ found
        let gap := if found.isEmpty then gap else {}
        let c := if found.isEmpty then c else (c.skip found.length).lookAhead 2
        if !(isBlank c.peek || isBreak c.peek) then .ok (c, text)
        else do
          let (c, gap) ← skipGap indent start (c.rest.length + 1) c gap
          if !flow && c.column < indent then .ok (c, text)
          else
            let (c, more) ← readWords flow indent start fuel c gap
            .ok (c, text ++ more)

/-- Reads a plain scalar whose further lines are indented by at least `indent`. -/
def read (flow : Bool) (indent : Int) (c : Cursor) : Except SyntaxError (Cursor × List Char) :=
  if flow && c.column < indent then c.fail .plainIndentation
  else readWords flow indent c.mark (c.rest.length + 1) c {}

end WorkflowScope.Yaml.Plain
