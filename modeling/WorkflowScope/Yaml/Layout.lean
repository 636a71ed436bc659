import WorkflowScope.Yaml.Cursor
import WorkflowScope.Yaml.Token

/-!
# Layout: indentation, flow collections and simple keys

What a reader of YAML has to remember while it cuts a text into tokens. Block collections have no
brackets, so their start and end follow from columns. A simple key is known to be one only at the
colon after it; until then the tokens from the key on wait in a queue, where a key token may be put
before them.
-/

namespace WorkflowScope.Yaml

structure Level where
  /-- The column of the level around it. -/
  outer : Int
  /-- A block collection ends with it. -/
  isBlock : Bool
  deriving DecidableEq, Repr

/-- A place at which a simple key may stand. -/
structure SimpleKey where
  /-- A colon may still make it a key. -/
  possible : Bool := false
  /-- Only a key can stand there. -/
  required : Bool := false
  /-- Number of the token at which it stands. -/
  number : Nat := 0
  mark : Mark := ⟨0, 0, 0⟩
  deriving DecidableEq, Repr, Inhabited

structure Layout where
  cursor : Cursor
  /-- Tokens that wait, the first to go in front. -/
  queue : List MarkedToken := []
  /-- Number of tokens that have gone. -/
  gone : Nat := 0
  /-- The column of the innermost block level; `-1` outside of any. -/
  indent : Int := -1
  /-- The levels of indentation, innermost first. -/
  levels : List Level := []
  /-- A simple key may stand here. -/
  keyAllowed : Bool := true
  /-- For the block context and each open flow collection, innermost first. -/
  keys : List SimpleKey := []
  /-- Number of open flow collections. -/
  flowDepth : Nat := 0
  /-- The index at which a colon needs no blank after it. -/
  adjacentValueAt : Nat := 0
  /-- The innermost flow collection is a mapping or holds one that has begun. -/
  flowMappingStarted : Bool := false
  /-- The mapping that has begun is one without braces. -/
  implicitFlowMapping : Bool := false

namespace Layout

def maxFlowDepth : Nat := 255

def initial (text : List Char) : Layout :=
  { cursor := { rest := text } }

def inFlow (l : Layout) : Bool :=
  l.flowDepth != 0

def mark (l : Layout) : Mark :=
  l.cursor.mark

def fail {α : Type} (l : Layout) (fault : Fault) : Except SyntaxError α :=
  l.cursor.fail fault

def push (l : Layout) (mark : Mark) (token : Token) : Layout :=
  { l with queue := l.queue ++ [⟨mark, token⟩] }

def insertAt (l : Layout) (number : Nat) (mark : Mark) (token : Token) : Layout :=
  { l with queue := l.queue.insertIdx (number - l.gone) ⟨mark, token⟩ }

def topKey (l : Layout) : SimpleKey :=
  l.keys.headD {}

def setTopKey (l : Layout) (key : SimpleKey) : Layout :=
  { l with keys := key :: l.keys.tail }

/-- A simple key stands on one line and is not longer than 1024 characters. -/
def expired (l : Layout) (key : SimpleKey) : Bool :=
  key.possible && !l.inFlow &&
    (key.mark.line < l.mark.line || key.mark.index + 1024 < l.mark.index)

def dropExpiredKeys (l : Layout) : Except SyntaxError Layout :=
  if l.keys.any fun key => l.expired key && key.required then l.fail .simpleKeyUnfinished
  else
    .ok { l with keys := l.keys.map fun key =>
            if l.expired key then { key with possible := false } else key }

def topIsBlock (l : Layout) : Bool :=
  l.levels.head?.any (·.isBlock)

def saveKey (l : Layout) : Layout :=
  if l.keyAllowed then
    l.setTopKey
      { possible := true
        required := !l.inFlow && l.indent == l.cursor.column && l.topIsBlock
        number := l.gone + l.queue.length
        mark := l.mark }
  else l

def removeKey (l : Layout) : Except SyntaxError Layout :=
  if l.topKey.possible && l.topKey.required then l.fail .simpleKeyExpected
  else .ok (l.setTopKey { l.topKey with possible := false })

/-- Leaves the levels that no block collection ends with. -/
def leaveInlineLevels (l : Layout) : Layout :=
  let inline := l.levels.takeWhile (!·.isBlock)
  { l with
    levels := l.levels.dropWhile (!·.isBlock)
    indent := (inline.getLast?.map (·.outer)).getD l.indent }

/-- Enters the block collection at a column, if it lies further in. Its start goes before the token
of the given number, or behind the waiting ones. -/
def enterBlock (l : Layout) (column : Int) (number : Option Nat) (mark : Mark) (start : Token) :
    Layout :=
  if l.inFlow then l
  else
    let l :=
      match l.levels with
      | top :: outer =>
          if l.indent ≤ column && !top.isBlock then { l with indent := top.outer, levels := outer }
          else l
      | [] => l
    if l.indent < column then
      let l := { l with levels := ⟨l.indent, true⟩ :: l.levels, indent := column }
      match number with
      | some number => l.insertAt number mark start
      | none => l.push mark start
    else l

/-- Asks for one more column of indentation from here on. -/
def enterInline (l : Layout) : Layout :=
  if !l.inFlow && l.topIsBlock then
    { l with levels := ⟨l.indent, false⟩ :: l.levels, indent := l.indent + 1 }
  else l

/-- Leaves levels as long as they lie further in than a column. -/
def leaveLevels (column : Int) : List Level → Layout → Layout
  | [], l => l
  | top :: outer, l =>
      if l.indent ≤ column then l
      else
        let inner := { l with levels := outer, indent := top.outer }
        leaveLevels column outer (if top.isBlock then inner.push l.mark .blockEnd else inner)

/-- Ends the block collections that lie further in than a column. -/
def leaveBlocks (l : Layout) (column : Int) : Layout :=
  if l.inFlow then l else leaveLevels column l.levels l

def endImplicitMapping (l : Layout) : Layout :=
  if l.implicitFlowMapping then
    { l with implicitFlowMapping := false, flowMappingStarted := false }.push l.mark .flowMappingEnd
  else l

def skipToLineEnd (l : Layout) : Except SyntaxError Layout := do
  let (cursor, _) ← l.cursor.skipToLineEnd
  .ok { l with cursor }

def skipToToken : Nat → Layout → Except SyntaxError Layout
  | 0, l => .ok l
  | fuel + 1, l =>
      let c := l.cursor
      if c.peek == '\t' && !l.levels.isEmpty && c.atLineStart && c.column < l.indent then do
        let (c, _) ← c.skipToLineEnd
        if isBreakOrEnd c.peek then skipToToken fuel { l with cursor := c }
        else c.fail .tabIndentation
      else if isBlank c.peek then skipToToken fuel { l with cursor := c.skipBlank 1 }
      else if isBreak c.peek then
        let cursor := (c.lookAhead 2).skipBreak
        skipToToken fuel { l with cursor, keyAllowed := l.keyAllowed || !l.inFlow }
      else if c.peek == '#' then skipToToken fuel { l with cursor := c.skipComment }
      else .ok l

def toToken (l : Layout) : Except SyntaxError Layout :=
  skipToToken (l.cursor.rest.length + 1) l

end Layout

end WorkflowScope.Yaml
