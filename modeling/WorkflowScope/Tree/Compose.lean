import WorkflowScope.Tree.Extent
import WorkflowScope.Tree.Node
import WorkflowScope.Yaml.Event

/-!
# From events to trees

`Composer.node` reads the events of one node and gives the node together with the events after it.
Where a node ends is found in the text, for which the place of the next event is a limit.
-/

namespace WorkflowScope

structure PlacedEvent where
  offset : Nat
  event : Yaml.Event
  deriving DecidableEq, Repr, Inhabited

namespace Composer

open Yaml (Event Style)

/-- The offset of the next event; the end of the text after the last one. -/
def nextOffset (text : List Char) (rest : List PlacedEvent) : Nat :=
  match rest with
  | next :: _ => min next.offset text.length
  | [] => text.length

/-- A scalar that is not written. -/
def emptyScalar (offset : Nat) : Scalar :=
  { span := ⟨offset, offset⟩, value := "", raw := "", style := .plain }

def scalarOver (text : List Char) (span : Span) (value : List Char) (style : Style) : Scalar :=
  { span
    value := String.ofList value
    raw := String.ofList (span.slice text)
    style }

def scalarSpan (text value : List Char) (style : Style) (mark next : Nat) : Span :=
  match style with
  | .singleQuoted => ⟨mark, Extent.singleQuotedEnd text mark⟩
  | .doubleQuoted => ⟨mark, Extent.doubleQuotedEnd text mark⟩
  | .plain => ⟨mark, Extent.plainEnd text value mark next⟩
  | .literal | .folded =>
      let start := Extent.blockStart text mark
      ⟨start, Extent.blockEnd text start next⟩

/-- The scalar of an event at `mark`. One that is not written stands at `emptyAt` if that is
given. -/
def scalar (text : List Char) (style : Style) (value : List Char) (mark : Nat)
    (emptyAt : Option Nat) (rest : List PlacedEvent) : Scalar :=
  if style = .plain ∧ value = [] then emptyScalar (emptyAt.getD mark)
  else scalarOver text (scalarSpan text value style mark (nextOffset text rest)) value style

/-- The scalar of an alias, whose value is its text. -/
def reference (text : List Char) (mark : Nat) : Scalar :=
  let span : Span := ⟨mark, Extent.aliasEnd text mark⟩
  scalarOver text span (span.slice text) .plain

/-- A node as a key. A collection is known by its text. -/
def keyOf (text : List Char) : Node → Key
  | .scalar s => { span := s.span, value := s.value }
  | other =>
      { span := other.span, value := String.ofList (Text.trim (other.span.slice text)) }

def entryOf (key : Key) (value : Node) : Entry :=
  { span := ⟨key.span.start, max value.span.stop key.span.stop⟩, key, value }

def itemsEnd (items : List Node) (start : Nat) : Nat :=
  (items.getLast?.map (·.span.stop)).getD start

def pairsEnd (pairs : List Entry) (start : Nat) : Nat :=
  (pairs.getLast?.map (·.span.stop)).getD start

/-- A block mapping is marked at its first colon; it starts at its first key. -/
def pairsStart (pairs : List Entry) (mark : Nat) : Nat :=
  (pairs.head?.map fun pair => min pair.key.span.start mark).getD mark

def opensAt (text : List Char) (mark : Nat) (bracket : Char) : Bool :=
  text[mark]? == some bracket

/-- A sequence marked at `mark`. A flow sequence reaches past its closing bracket at `close`. -/
def sequenceOf (text : List Char) (mark : Nat) (items : List Node) : Option Nat → Node
  | some close =>
      let stop := if opensAt text mark '[' then close + 1 else itemsEnd items mark
      .sequence ⟨mark, max stop mark⟩ items
  | none => .sequence ⟨mark, itemsEnd items mark⟩ items

/-- A mapping marked at `mark`. A flow mapping reaches past its closing bracket at `close`. -/
def mappingOf (text : List Char) (mark : Nat) (pairs : List Entry) (close : Option Nat) : Node :=
  let flow := opensAt text mark '\x7b'
  let start := if flow then mark else pairsStart pairs mark
  let stop :=
    match close with
    | some close => if flow then close + 1 else pairsEnd pairs mark
    | none => pairsEnd pairs mark
  .mapping ⟨start, max stop start⟩ pairs

mutual

/-- The node at the front of the events. A scalar that is not written stands at `emptyAt`. -/
def node (text : List Char) : Nat → Option Nat → List PlacedEvent → Node × List PlacedEvent
  | 0, _, rest => (.scalar (emptyScalar text.length), rest)
  | _ + 1, _, [] => (.scalar (emptyScalar text.length), [])
  | fuel + 1, emptyAt, ⟨mark, event⟩ :: rest =>
      match event with
      | .scalar style value => (.scalar (scalar text style value mark emptyAt rest), rest)
      | .reference => (.scalar (reference text mark), rest)
      | .sequenceStart =>
          let (found, close, rest) := items text fuel rest
          (sequenceOf text mark found close, rest)
      | .mappingStart =>
          let (found, close, rest) := pairs text fuel rest
          (mappingOf text mark found close, rest)
      | _ => (.scalar (emptyScalar (emptyAt.getD mark)), rest)

/-- The items up to the end of a sequence, and the offset of that end. -/
def items (text : List Char) : Nat → List PlacedEvent → List Node × Option Nat × List PlacedEvent
  | 0, rest => ([], none, rest)
  | _ + 1, [] => ([], none, [])
  | fuel + 1, next :: rest =>
      match next.event with
      | .sequenceEnd => ([], some next.offset, rest)
      | .streamEnd => ([], none, next :: rest)
      | _ =>
          let (first, rest) := node text fuel none (next :: rest)
          let (more, close, rest) := items text fuel rest
          (first :: more, close, rest)

/-- The pairs up to the end of a mapping, and the offset of that end. -/
def pairs (text : List Char) : Nat → List PlacedEvent → List Entry × Option Nat × List PlacedEvent
  | 0, rest => ([], none, rest)
  | _ + 1, [] => ([], none, [])
  | fuel + 1, next :: rest =>
      match next.event with
      | .mappingEnd => ([], some next.offset, rest)
      | .streamEnd => ([], none, next :: rest)
      | _ =>
          let (keyNode, rest) := node text fuel none (next :: rest)
          let key := keyOf text keyNode
          let (value, rest) := node text fuel (some (Extent.afterColon text key.span.stop)) rest
          let (more, close, rest) := pairs text fuel rest
          (entryOf key value :: more, close, rest)

end

/-- Enough steps for any events: along nested calls every second one reads an event. -/
def steps (events : List PlacedEvent) : Nat :=
  2 * events.length + 2

def isPrologue (event : PlacedEvent) : Bool :=
  event.event = .streamStart || event.event = .documentStart

/-- The root of the first document. A document without a node is an empty mapping, and the root
covers the whole text. -/
def root (text : List Char) (events : List PlacedEvent) : Node :=
  let whole : Span := ⟨0, text.length⟩
  let events := events.dropWhile isPrologue
  match events with
  | [] => .mapping whole []
  | first :: _ =>
      if first.event = .streamEnd ∨ first.event = .documentEnd then .mapping whole []
      else (node text (steps events) none events).1.withSpan whole

end Composer

end WorkflowScope
