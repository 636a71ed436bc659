import WorkflowScope.Yaml.Event
import WorkflowScope.Yaml.Tag
import WorkflowScope.Yaml.Tokenize

/-!
# From tokens to events

The grammar of YAML streams as a machine: a state says what may come next, and each step reads
tokens and gives one event. States to return to after a node wait on a stack.
-/

namespace WorkflowScope.Yaml

namespace Grammar

inductive State where
  | streamStart
  /-- A document, whose `---` may be missing. -/
  | implicitDocumentStart
  | documentStart
  | documentContent
  | documentEnd
  | blockNode
  | blockSequenceFirstEntry
  | blockSequenceEntry
  | indentlessSequenceEntry
  | blockMappingFirstKey
  | blockMappingKey
  | blockMappingValue
  | flowSequenceFirstEntry
  | flowSequenceEntry
  | flowPairKey
  | flowPairValue
  | flowPairEnd
  | flowMappingFirstKey
  | flowMappingKey
  | flowMappingValue
  | flowMappingEmptyValue
  | streamEnd
  deriving DecidableEq, Repr, Inhabited

structure Reader where
  /-- Tokens that have not been read. -/
  tokens : List ReadToken
  /-- The fault of the text after these tokens. -/
  fault : Option SyntaxError
  /-- How far the text had to be read for the tokens that were looked at. -/
  reached : Mark := {}
  state : State := .streamStart
  /-- Where to return to, innermost first. -/
  stack : List State := []
  /-- The names of all anchors so far. -/
  anchors : List (List Char) := []
  /-- The handles that the current document has declared. -/
  handles : List (List Char) := []

/-- A piece of the grammar: it reads tokens and may refuse them. -/
abbrev Step := StateT Reader (Except SyntaxError)

def peek : Step ReadToken := do
  let r ← get
  match r.tokens with
  | [] => throw (r.fault.getD ⟨.streamCutShort, r.reached⟩)
  | token :: _ =>
      set { r with reached := token.reached }
      return token

def advance : Step Unit :=
  modify fun r => { r with tokens := r.tokens.tail }

def goTo (state : State) : Step Unit :=
  modify fun r => { r with state }

def returnTo (state : State) : Step Unit :=
  modify fun r => { r with stack := state :: r.stack }

def leave : Step Unit :=
  modify fun r => { r with state := r.stack.headD .streamEnd, stack := r.stack.tail }

def refuse {α : Type} (fault : Fault) (mark : Mark) : Step α :=
  throw ⟨fault, mark⟩

def emptyThen (state : State) (mark : Mark) : Step MarkedEvent := do
  goTo state
  return ⟨mark, .empty⟩

def close (event : Event) (mark : Mark) : Step MarkedEvent := do
  leave
  advance
  return ⟨mark, event⟩

def checkHandle (handle : List Char) (mark : Mark) : Step Unit := do
  let r ← get
  if Tag.isNamedHandle handle && handle != ['!', '!'] && !r.handles.contains handle then
    refuse .undeclaredHandle mark

def declareAnchor (name : List Char) : Step Unit :=
  modify fun r => { r with anchors := name :: r.anchors }

/-- Reads the anchor and the tag before a node, in either order. Tells whether there was one. -/
def properties : Step Bool := do
  let first ← peek
  match first.token with
  | .anchor name =>
      advance
      declareAnchor name
      let second ← peek
      match second.token with
      | .tag handle =>
          advance
          checkHandle handle first.mark
      | _ => pure ()
      return true
  | .tag handle =>
      advance
      checkHandle handle first.mark
      let second ← peek
      match second.token with
      | .anchor name =>
          advance
          declareAnchor name
      | _ => pure ()
      return true
  | _ => return false

/-- The content of a node, after its properties. -/
def content (block indentless decorated : Bool) : Step MarkedEvent := do
  let next ← peek
  match next.token with
  | .scalar style value =>
      leave
      advance
      return ⟨next.mark, .scalar style value⟩
  | .flowSequenceStart =>
      goTo .flowSequenceFirstEntry
      return ⟨next.mark, .sequenceStart⟩
  | .flowMappingStart =>
      goTo .flowMappingFirstKey
      return ⟨next.mark, .mappingStart⟩
  | token =>
      if token = .blockEntry && indentless then
        goTo .indentlessSequenceEntry
        return ⟨next.mark, .sequenceStart⟩
      else if token = .blockSequenceStart && block then
        goTo .blockSequenceFirstEntry
        return ⟨next.mark, .sequenceStart⟩
      else if token = .blockMappingStart && block then
        goTo .blockMappingFirstKey
        return ⟨next.mark, .mappingStart⟩
      else if decorated then
        leave
        return ⟨next.mark, .empty⟩
      else refuse .nodeExpected next.mark

/-- A node. In a block context block collections may stand, and with `indentless` also a sequence
whose dashes stand no further in than the key before it. -/
def node (block indentless : Bool) : Step MarkedEvent := do
  let first ← peek
  match first.token with
  | .reference name =>
      leave
      advance
      if (← get).anchors.contains name then return ⟨first.mark, .reference⟩
      else refuse .unknownAnchor first.mark
  | _ =>
      let decorated ← properties
      content block indentless decorated

def nodeThen (state : State) (block indentless : Bool) : Step MarkedEvent := do
  returnTo state
  node block indentless

/-- Reads directives. Of those of a document only the last line is remembered. -/
def directives : Nat → Bool → Step Unit
  | 0, _ => pure ()
  | fuel + 1, versioned => do
      let next ← peek
      match next.token with
      | .versionDirective =>
          if versioned then refuse .versionTwice next.mark
          else
            modify fun r => { r with handles := [] }
            advance
            directives fuel true
      | .tagDirective handle =>
          modify fun r => { r with handles := [handle] }
          advance
          directives fuel versioned
      | _ => pure ()

def explicitDocument : Step MarkedEvent := do
  directives ((← get).tokens.length + 1) false
  let next ← peek
  if next.token = .documentStart then
    returnTo .documentEnd
    goTo .documentContent
    advance
    return ⟨next.mark, .documentStart⟩
  else refuse .documentStartExpected next.mark

/-- Reads the ends of documents that have ended already. -/
def skipDocumentEnds : Nat → Step Unit
  | 0 => pure ()
  | fuel + 1 => do
      if (← peek).token = .documentEnd then
        advance
        skipDocumentEnds fuel

/-- A document, or the end of the stream. -/
def documentStart (implicit : Bool) : Step MarkedEvent := do
  skipDocumentEnds ((← get).tokens.length + 1)
  let next ← peek
  match next.token with
  | .streamEnd =>
      goTo .streamEnd
      advance
      return ⟨next.mark, .streamEnd⟩
  | .versionDirective => explicitDocument
  | .tagDirective _ => explicitDocument
  | .documentStart => explicitDocument
  | _ =>
      if implicit then
        returnTo .documentEnd
        goTo .blockNode
        return ⟨next.mark, .documentStart⟩
      else explicitDocument

/-- The node of a document, which may be missing. -/
def documentContent : Step MarkedEvent := do
  let next ← peek
  match next.token with
  | .versionDirective | .tagDirective _ | .documentStart | .documentEnd | .streamEnd =>
      leave
      return ⟨next.mark, .empty⟩
  | _ => node true false

def documentEnd : Step MarkedEvent := do
  let next ← peek
  modify fun r => { r with handles := [] }
  match next.token with
  | .documentEnd =>
      advance
      goTo .implicitDocumentStart
      return ⟨next.mark, .documentEnd⟩
  | .versionDirective | .tagDirective _ => refuse .directiveAfterContent next.mark
  | _ =>
      goTo .documentStart
      return ⟨next.mark, .documentEnd⟩

def opened : Step Unit := do
  let _ ← peek
  advance

/-- An entry of a block sequence, or its end. -/
def blockSequenceEntry : Step MarkedEvent := do
  let next ← peek
  match next.token with
  | .blockEnd => close .sequenceEnd next.mark
  | .blockEntry =>
      advance
      let entry ← peek
      match entry.token with
      | .blockEntry | .blockEnd => emptyThen .blockSequenceEntry entry.mark
      | _ => nodeThen .blockSequenceEntry true false
  | _ => refuse .dashExpected next.mark

/-- An entry of a sequence that is indented no further than its key, or its end. -/
def indentlessSequenceEntry : Step MarkedEvent := do
  let next ← peek
  match next.token with
  | .blockEntry =>
      advance
      let entry ← peek
      match entry.token with
      | .blockEntry | .key | .value | .blockEnd => emptyThen .indentlessSequenceEntry entry.mark
      | _ => nodeThen .indentlessSequenceEntry true false
  | _ =>
      leave
      return ⟨next.mark, .sequenceEnd⟩

/-- A node of a block mapping, which is empty before another key or value. -/
def blockMappingNode (state : State) : Step MarkedEvent := do
  let next ← peek
  match next.token with
  | .key | .value | .blockEnd => emptyThen state next.mark
  | _ => nodeThen state true true

/-- A key of a block mapping, or its end. -/
def blockMappingKey : Step MarkedEvent := do
  let next ← peek
  match next.token with
  | .key =>
      advance
      blockMappingNode .blockMappingValue
  | .value => emptyThen .blockMappingValue next.mark
  | .blockEnd => close .mappingEnd next.mark
  | _ => refuse .blockKeyExpected next.mark

def blockMappingValue : Step MarkedEvent := do
  let next ← peek
  match next.token with
  | .value =>
      advance
      blockMappingNode .blockMappingKey
  | _ => emptyThen .blockMappingKey next.mark

/-- An entry of a flow sequence after its comma, or the end of the sequence. -/
def flowSequenceItem : Step MarkedEvent := do
  let next ← peek
  match next.token with
  | .flowSequenceEnd => close .sequenceEnd next.mark
  | .key =>
      goTo .flowPairKey
      advance
      return ⟨next.mark, .mappingStart⟩
  | _ => nodeThen .flowSequenceEntry false false

/-- An entry of a flow sequence that is not the first, or the end of the sequence. -/
def flowSequenceEntry : Step MarkedEvent := do
  let next ← peek
  match next.token with
  | .flowSequenceEnd => close .sequenceEnd next.mark
  | .flowEntry =>
      advance
      flowSequenceItem
  | _ => refuse .flowSequenceSeparator next.mark

/-- The key of a pair that is an entry of a flow sequence. -/
def flowPairKey : Step MarkedEvent := do
  let next ← peek
  match next.token with
  | .value | .flowEntry | .flowSequenceEnd =>
      advance
      emptyThen .flowPairValue next.mark
  | _ => nodeThen .flowPairValue false false

def flowPairValue : Step MarkedEvent := do
  let next ← peek
  match next.token with
  | .value =>
      advance
      let value ← peek
      match value.token with
      | .flowEntry | .flowSequenceEnd => emptyThen .flowPairEnd value.mark
      | _ => nodeThen .flowPairEnd false false
  | _ => emptyThen .flowPairEnd next.mark

/-- The end of such a pair has no token; it stands where the text has been read to. -/
def flowPairEnd : Step MarkedEvent := do
  goTo .flowSequenceEntry
  return ⟨(← get).reached, .mappingEnd⟩

/-- A key of a flow mapping after its comma, or the end of the mapping, which is placed at
`before`. -/
def flowMappingItem (before : Mark) : Step MarkedEvent := do
  let next ← peek
  match next.token with
  | .key =>
      advance
      let key ← peek
      match key.token with
      | .value | .flowEntry | .flowMappingEnd => emptyThen .flowMappingValue key.mark
      | _ => nodeThen .flowMappingValue false false
  | .value => emptyThen .flowMappingValue next.mark
  | .flowMappingEnd => close .mappingEnd before
  | _ => nodeThen .flowMappingEmptyValue false false

/-- A key of a flow mapping that is not the first, or the end of the mapping. -/
def flowMappingKey : Step MarkedEvent := do
  let next ← peek
  match next.token with
  | .flowMappingEnd => close .mappingEnd next.mark
  | .flowEntry =>
      advance
      flowMappingItem next.mark
  | _ => refuse .flowMappingSeparator next.mark

def flowMappingValue : Step MarkedEvent := do
  let next ← peek
  match next.token with
  | .value =>
      advance
      let value ← peek
      match value.token with
      | .flowEntry | .flowMappingEnd => emptyThen .flowMappingKey next.mark
      | _ => nodeThen .flowMappingKey false false
  | _ => emptyThen .flowMappingKey next.mark

def step : Step MarkedEvent := do
  match (← get).state with
  | .streamStart =>
      let next ← peek
      goTo .implicitDocumentStart
      advance
      return ⟨next.mark, .streamStart⟩
  | .implicitDocumentStart => documentStart true
  | .documentStart => documentStart false
  | .documentContent => documentContent
  | .documentEnd => documentEnd
  | .blockNode => node true false
  | .blockSequenceFirstEntry => opened; blockSequenceEntry
  | .blockSequenceEntry => blockSequenceEntry
  | .indentlessSequenceEntry => indentlessSequenceEntry
  | .blockMappingFirstKey => opened; blockMappingKey
  | .blockMappingKey => blockMappingKey
  | .blockMappingValue => blockMappingValue
  | .flowSequenceFirstEntry => opened; flowSequenceItem
  | .flowSequenceEntry => flowSequenceEntry
  | .flowPairKey => flowPairKey
  | .flowPairValue => flowPairValue
  | .flowPairEnd => flowPairEnd
  | .flowMappingFirstKey =>
      opened
      flowMappingItem (← peek).mark
  | .flowMappingKey => flowMappingKey
  | .flowMappingValue => flowMappingValue
  | .flowMappingEmptyValue => emptyThen .flowMappingKey (← peek).mark
  | .streamEnd => return ⟨(← get).reached, .streamEnd⟩

/-- All events up to the end of the stream. -/
def eventsFrom : Nat → Reader → Except SyntaxError (List MarkedEvent)
  | 0, _ => .ok []
  | fuel + 1, r => do
      let (event, r) ← step.run r
      if event.event = .streamEnd then .ok [event]
      else
        let more ← eventsFrom fuel r
        .ok (event :: more)

end Grammar

/-- The events of a token stream. Between two events that read a token there are fewer than eight
that read none, so the number of tokens bounds that of events. -/
def TokenStream.events (stream : TokenStream) : Except SyntaxError (List MarkedEvent) :=
  Grammar.eventsFrom (8 * stream.tokens.length + 16)
    { tokens := stream.tokens, fault := stream.fault }

def events (text : List Char) : Except SyntaxError (List MarkedEvent) :=
  (tokenize text).events

end WorkflowScope.Yaml
