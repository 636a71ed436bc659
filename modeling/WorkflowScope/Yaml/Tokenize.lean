import WorkflowScope.Yaml.Directive
import WorkflowScope.Yaml.Layout
import WorkflowScope.Yaml.Scalar.Block
import WorkflowScope.Yaml.Scalar.Plain
import WorkflowScope.Yaml.Scalar.Quoted

/-!
# From texts to tokens

`tokenize` cuts a text into tokens. It gives the tokens before the first fault too, because a reader
of the tokens may refuse the text before it comes to that fault.
-/

namespace WorkflowScope.Yaml

namespace Layout

/-- The text has been read: every level and every place for a key ends. -/
def endStream (l : Layout) : Except SyntaxError Layout := do
  let here := l.mark
  let mark : Mark := if here.column = 0 then here else ⟨here.index, here.line + 1, 0⟩
  let l := { l with cursor := { l.cursor with mark := mark } }
  if l.keys.any fun key => key.required && key.possible then l.fail .simpleKeyExpected
  else
    let l := { l with keys := l.keys.map fun (key : SimpleKey) => { key with possible := false } }
    let l ← (l.leaveBlocks (-1)).removeKey
    .ok ({ l with keyAllowed := false }.push l.mark .streamEnd)

def endContent (l : Layout) : Except SyntaxError Layout := do
  let l ← (l.leaveBlocks (-1)).removeKey
  .ok { l with keyAllowed := false }

def takeDirective (l : Layout) : Except SyntaxError Layout := do
  let l ← l.endContent
  let (cursor, token) ← Directive.read l.cursor
  .ok ({ l with cursor }.push l.mark token)

def takeDocumentStart (l : Layout) : Except SyntaxError Layout := do
  let l ← l.endContent
  .ok ({ l with cursor := l.cursor.skip 3 }.push l.mark .documentStart)

/-- Reads `...`, after which the line has to end. -/
def takeDocumentEnd (l : Layout) : Except SyntaxError Layout := do
  let l ← l.endContent
  let l ← ({ l with cursor := l.cursor.skip 3 }.push l.mark .documentEnd).skipToLineEnd
  if isBreakOrEnd l.cursor.peek then .ok l else l.fail .contentAfterDocumentEnd

def takeFlowStart (l : Layout) (token : Token) : Except SyntaxError Layout := do
  let l := l.saveKey.enterInline
  if maxFlowDepth ≤ l.flowDepth then l.fail .tooDeep
  else
    let start := l.mark
    let l :=
      { l with
        keys := {} :: l.keys
        flowDepth := l.flowDepth + 1
        keyAllowed := true
        cursor := l.cursor.skip 1
        flowMappingStarted := l.flowMappingStarted || (token == Token.flowMappingStart) }
    let l ← l.skipToLineEnd
    .ok (l.push start token)

def takeFlowEnd (l : Layout) (token : Token) : Except SyntaxError Layout := do
  let l ← l.removeKey
  let l := if l.inFlow then { l with flowDepth := l.flowDepth - 1, keys := l.keys.tail } else l
  let l := { l with keyAllowed := false }.endImplicitMapping
  let start := l.mark
  let l ← { l with cursor := l.cursor.skip 1 }.skipToLineEnd
  let l := if l.inFlow then { l with adjacentValueAt := l.mark.index } else l
  .ok (l.push start token)

def takeFlowEntry (l : Layout) : Except SyntaxError Layout := do
  let l ← l.removeKey
  let l := { l with keyAllowed := true }.endImplicitMapping
  let start := l.mark
  let l ← { l with cursor := l.cursor.skip 1 }.skipToLineEnd
  .ok (l.push start .flowEntry)

/-- The mark of an anchor or tag that waits last and stands in the first column. -/
def outerProperty? (l : Layout) : Option Mark :=
  match l.queue.getLast? with
  | some ⟨mark, .anchor _⟩ => if mark.column = 0 then some mark else none
  | some ⟨mark, .tag _⟩ => if mark.column = 0 then some mark else none
  | _ => none

def takeBlockEntry (l : Layout) : Except SyntaxError Layout := do
  if l.inFlow then l.fail .entryInFlow
  else if !l.keyAllowed then l.fail .entryNotAllowed
  else
    match l.outerProperty?, l.mark.column == 0 && -1 < l.indent with
    | some mark, true => .error ⟨.anchorIndentation, mark⟩
    | _, _ =>
      let start := l.mark
      let l :=
        { l with cursor := l.cursor.skip 1 }.enterBlock start.column none start .blockSequenceStart
      let (cursor, gap) ← l.cursor.skipToLineEnd
      let l := { l with cursor := cursor.lookAhead 2 }
      if gap.tabs && cursor.peek == '-' && isBlankBreakOrEnd (cursor.peekAt 1) then
        l.fail .tabAfterDash
      else
        let l := if isBreak cursor.peek || isFlow cursor.peek then l.enterInline else l
        let l ← l.removeKey
        .ok ({ l with keyAllowed := true }.push l.mark .blockEntry)

/-- Reads spaces, line breaks and comments after `?`. The last result tells whether there were any
but comments. -/
def skipAfterQuestionMark : Nat → Layout → Layout × Bool
  | 0, l => (l, false)
  | fuel + 1, l =>
      let c := l.cursor
      if c.peek == ' ' then
        ((skipAfterQuestionMark fuel { l with cursor := c.skipBlank 1 }).1, true)
      else if isBreak c.peek then
        let cursor := (c.lookAhead 2).skipBreak
        let l := { l with cursor, keyAllowed := l.keyAllowed || !l.inFlow }
        ((skipAfterQuestionMark fuel l).1, true)
      else if c.peek == '#' then skipAfterQuestionMark fuel { l with cursor := c.skipComment }
      else (l, false)

def takeKey (l : Layout) : Except SyntaxError Layout := do
  let start := l.mark
  if !l.inFlow && !l.keyAllowed then l.fail .keyNotAllowed
  else
    let l :=
      if l.inFlow then { l with flowMappingStarted := true }
      else l.enterBlock start.column none start .blockMappingStart
    let l ← l.removeKey
    let l := { l with keyAllowed := !l.inFlow, cursor := l.cursor.skip 1 }
    let (l, spaced) := skipAfterQuestionMark (l.cursor.rest.length + 1) l
    if !spaced then l.fail .whitespaceExpected
    else if l.cursor.peek == '\t' then l.fail .tabAfterQuestionMark
    else .ok (l.push start .key)

/-- Reads a tab after a colon, which may not stand alone before what looks like a value. -/
def skipTabAfterColon (l : Layout) : Except SyntaxError Layout := do
  if l.cursor.peek == '\t' then
    let (cursor, gap) ← l.cursor.skipToLineEnd
    if !gap.spaces && (cursor.peek == '-' || isWordChar cursor.peek) then cursor.fail .tabAfterColon
    else .ok { l with cursor }
  else .ok l

/-- Makes a simple key of the tokens from the saved place on. -/
def completeKey (l : Layout) (key : SimpleKey) (colon : Mark) : Except SyntaxError Layout := do
  let l := l.insertAt key.number key.mark .key
  let l ←
    if !l.implicitFlowMapping then .ok l
    else if key.mark.line < colon.line then .error ⟨.colonMisplaced, colon⟩
    else .ok (l.insertAt key.number l.mark .flowMappingStart)
  let l := (l.enterBlock key.mark.column (some key.number) colon .blockMappingStart).enterInline
  .ok { l.setTopKey { key with possible := false } with keyAllowed := false }

/-- Begins the value of a key that was marked by `?`, or of an empty one. -/
def beginValue (l : Layout) (colon : Mark) : Except SyntaxError Layout := do
  let l := if l.implicitFlowMapping then l.push l.mark .flowMappingStart else l
  if !l.inFlow && !l.keyAllowed then .error ⟨.valueNotAllowed, colon⟩
  else
    let l := (l.enterBlock colon.column none colon .blockMappingStart).enterInline
    .ok { l with keyAllowed := !l.inFlow }

def takeValue (l : Layout) : Except SyntaxError Layout := do
  let key := l.topKey
  let colon := l.mark
  let l :=
    { l with
      implicitFlowMapping := l.inFlow && !l.flowMappingStarted
      cursor := l.cursor.skip 1 }
  let l ← l.skipTabAfterColon
  let l ← if key.possible then l.completeKey key colon else l.beginValue colon
  .ok (l.push colon .value)

def takeName (l : Layout) (token : List Char → Token) : Except SyntaxError Layout := do
  let l := { l.saveKey with keyAllowed := false }
  let name := (l.cursor.skip 1).upcoming isAnchorChar
  if name.isEmpty then l.fail .nameExpected
  else .ok ({ l with cursor := l.cursor.skip (name.length + 1) }.push l.mark (token name))

def takeTag (l : Layout) : Except SyntaxError Layout := do
  let l := { l.saveKey with keyAllowed := false }
  let (cursor, handle) ← Tag.read l.inFlow l.cursor
  .ok ({ l with cursor }.push l.mark (.tag handle))

def takeBlockScalar (l : Layout) (style : Style) : Except SyntaxError Layout := do
  let l := { l.saveKey with keyAllowed := true }.leaveInlineLevels
  let (cursor, value, mark) ← Block.read (style = .folded) l.indent l.cursor
  .ok ({ l with cursor }.push mark (.scalar style value))

def takeQuotedScalar (l : Layout) (quote : Quoted.Quote) (style : Style) :
    Except SyntaxError Layout := do
  let l := { l.saveKey with keyAllowed := false }
  let start := l.mark
  let (cursor, value) ← Quoted.read quote l.inFlow l.indent l.cursor
  let l ← { l with cursor }.toToken
  .ok ({ l with adjacentValueAt := l.mark.index }.push start (.scalar style value))

def takePlainScalar (l : Layout) : Except SyntaxError Layout := do
  let l := { l.saveKey with keyAllowed := false }.leaveInlineLevels
  let (cursor, value) ← Plain.read l.inFlow (l.indent + 1) l.cursor
  .ok ({ l with cursor, keyAllowed := cursor.atLineStart }.push l.mark (.scalar .plain value))

/-- Reads the token that begins with the next character. -/
def takeContent (l : Layout) : Except SyntaxError Layout :=
  let next := l.cursor.peekAt 1
  let apart := isBlankBreakOrEnd next
  match l.cursor.peek with
  | '[' => l.takeFlowStart .flowSequenceStart
  | '\x7b' => l.takeFlowStart .flowMappingStart
  | ']' => l.takeFlowEnd .flowSequenceEnd
  | '\x7d' => l.takeFlowEnd .flowMappingEnd
  | ',' => l.takeFlowEntry
  | '-' => if apart then l.takeBlockEntry else l.takePlainScalar
  | '?' => if apart then l.takeKey else l.takePlainScalar
  | ':' =>
      if apart || (l.inFlow && (isFlow next || l.mark.index == l.adjacentValueAt)) then l.takeValue
      else l.takePlainScalar
  | '*' => l.takeName .reference
  | '&' => l.takeName .anchor
  | '!' => l.takeTag
  | '|' => if l.inFlow then l.takePlainScalar else l.takeBlockScalar .literal
  | '>' => if l.inFlow then l.takePlainScalar else l.takeBlockScalar .folded
  | '\'' => l.takeQuotedScalar .single .singleQuoted
  | '"' => l.takeQuotedScalar .double .doubleQuoted
  | '%' => l.fail (.unexpectedCharacter '%')
  | '@' => l.fail (.unexpectedCharacter '@')
  | '\x60' => l.fail (.unexpectedCharacter '\x60')
  | _ => l.takePlainScalar

def beginStream (l : Layout) : Layout :=
  { l with keys := [{}], keyAllowed := true }.push l.mark .streamStart

/-- Reads the next piece of the text, which puts at least one token into the queue or ends at a
fault. -/
def takeNext (l : Layout) : Except SyntaxError Layout := do
  let l ← l.toToken
  let l ← l.dropExpiredKeys
  let l := l.leaveBlocks l.cursor.column
  let l := { l with cursor := l.cursor.lookAhead 4 }
  if isEnd l.cursor.peek then l.endStream
  else if l.mark.column == 0 && l.cursor.peek == '%' then l.takeDirective
  else if l.mark.column == 0 && l.cursor.startsWithMarker '-' then l.takeDocumentStart
  else if l.mark.column == 0 && l.cursor.startsWithMarker '.' then l.takeDocumentEnd
  else if l.cursor.column < l.indent then l.fail .badIndentation
  else l.takeContent

/-- The first waiting token may turn out to begin a simple key. -/
def awaitsKey (l : Layout) : Bool :=
  l.keys.any fun key => key.possible && key.number == l.gone

end Layout

/-- A token as it leaves the queue. -/
structure ReadToken where
  mark : Mark
  token : Token
  /-- How far the text had been read by then. -/
  reached : Mark
  deriving DecidableEq, Repr, Inhabited

/-- Lets go the waiting tokens up to the first that may still become a key. -/
def Layout.release : List MarkedToken → Layout → List ReadToken × Layout
  | [], l => ([], { l with queue := [] })
  | ⟨mark, token⟩ :: rest, l =>
      if l.awaitsKey then ([], { l with queue := ⟨mark, token⟩ :: rest })
      else
        let (more, after) := release rest { l with gone := l.gone + 1 }
        (⟨mark, token, l.mark⟩ :: more, after)

/-- The tokens of a text, up to the first fault if there is one. -/
structure TokenStream where
  tokens : List ReadToken
  fault : Option SyntaxError
  deriving Repr, Inhabited

/-- Reads piece by piece, and lets tokens go in between. -/
def tokenizeFrom : Nat → Layout → TokenStream
  | 0, _ => ⟨[], none⟩
  | fuel + 1, l =>
      match (if l.queue.isEmpty then .ok l else l.dropExpiredKeys) with
      | .error fault => ⟨[], some fault⟩
      | .ok l =>
          let (tokens, l) := l.release l.queue
          if tokens.any (·.token = .streamEnd) then ⟨tokens, none⟩
          else
            match l.takeNext with
            | .error fault => ⟨tokens, some fault⟩
            | .ok l =>
                let more := tokenizeFrom fuel l
                ⟨tokens ++ more.tokens, more.fault⟩

/-- The tokens of a text. Each piece that is read takes a character, apart from the first and the
last, so the length of the text bounds their number. -/
def tokenize (text : List Char) : TokenStream :=
  tokenizeFrom (text.length + 3) (Layout.initial text).beginStream

end WorkflowScope.Yaml
