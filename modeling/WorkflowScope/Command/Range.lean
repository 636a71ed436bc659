import WorkflowScope.Text.Lines
import WorkflowScope.Tree.Snapshot

/-!
# Command lines

The value of a step's `run` key holds commands. A literal block has one on each of its lines; any
other scalar is one command.
-/

namespace WorkflowScope

structure CommandRange where
  span : Span
  range : Range
  deriving DecidableEq, Repr, Inhabited

namespace CommandRange

def contains (command : CommandRange) (position : Position) : Bool :=
  command.range.contains position

/-- The span of a line that starts at `offset`, without indentation and carriage returns at the
end. -/
def lineSpan (offset : Nat) (line : List Char) : Span :=
  let content := line.dropWhile fun c => c == ' ' || c == '\t'
  let start := offset + (line.length - content.length)
  ⟨start, start + (content.reverse.dropWhile (· == '\r')).length⟩

/-- The spans of lines that start at `offset`. What follows the last line feed is a line only if it
is not empty. -/
def lineSpans (offset : Nat) : List (List Char) → List Span
  | [] => []
  | [last] => if last.isEmpty then [] else [lineSpan offset last]
  | line :: rest => lineSpan offset line :: lineSpans (offset + line.length + 1) rest

/-- The spans of the content lines of a literal block that starts at `offset`. Its header is no
content. -/
def blockSpans (offset : Nat) (raw : List Char) : List Span :=
  match Text.splitLines raw with
  | [] => []
  | header :: rest => lineSpans (offset + header.length + 1) rest

def spansOf : Node → List Span
  | .scalar s =>
      if s.raw.toList.head? = some '|' then blockSpans s.span.start s.raw.toList else [s.span]
  | _ => []

def ofValue (snapshot : Snapshot) (value : Node) : List CommandRange :=
  (spansOf value).map fun span => { span, range := snapshot.rangeOf span }

end CommandRange

end WorkflowScope
