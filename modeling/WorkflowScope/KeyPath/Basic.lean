import WorkflowScope.Text.Whitespace

/-!
# Key paths

A key path is the chain of mapping keys from the root of a document down to an entry. Places in
sequences are no part of it. As a pattern, a key path may have wildcards in place of keys.
-/

namespace WorkflowScope

inductive Segment where
  | key (name : String)
  /-- Any key. -/
  | wildcard
  deriving DecidableEq, Repr, Inhabited

namespace Segment

def acceptsKey : Segment → String → Bool
  | key name, other => name == other
  | wildcard, _ => true

def accepts : Segment → Segment → Bool
  | wildcard, _ => true
  | key a, key b => a == b
  | key _, wildcard => false

@[simp] theorem accepts_key (segment : Segment) (name : String) :
    segment.accepts (key name) = segment.acceptsKey name := by
  cases segment <;> rfl

def isKeyChar (c : Char) : Bool :=
  !(Text.isWhite c || c == '.' || c == '[' || c == ']' || c == '*' || c == '\'' || c == '"')

def needsBrackets (name : String) : Bool :=
  name.toList.isEmpty || !name.toList.all isKeyChar

/-- A key between quotes: a quote in it gets a backslash. -/
def escapeQuotes : List Char → List Char
  | [] => []
  | c :: rest => if c = '\'' then '\\' :: '\'' :: escapeQuotes rest else c :: escapeQuotes rest

def chars : Segment → List Char
  | wildcard => ['*']
  | key name =>
      if needsBrackets name then ['[', '\''] ++ escapeQuotes name.toList ++ ['\'', ']']
      else name.toList

/-- A segment that stands between brackets brings its own separator. -/
def isBracketed : Segment → Bool
  | wildcard => false
  | key name => needsBrackets name

end Segment

structure KeyPath where
  segments : List Segment
  deriving DecidableEq, Repr, Inhabited

namespace KeyPath

def ofKeys (keys : List String) : KeyPath :=
  ⟨keys.map .key⟩

def length (path : KeyPath) : Nat :=
  path.segments.length

def isEmpty (path : KeyPath) : Bool :=
  path.segments.isEmpty

def accepts (pattern path : KeyPath) : Bool :=
  pattern.length == path.length &&
    (pattern.segments.zip path.segments).all fun (a, b) => a.accepts b

def acceptsKeys (pattern : KeyPath) (keys : List String) : Bool :=
  pattern.length == keys.length &&
    (pattern.segments.zip keys).all fun (segment, key) => segment.acceptsKey key

/-- The segments after the first, each with its separator. -/
def charsAfter (segments : List Segment) : List Char :=
  segments.flatMap fun segment =>
    if segment.isBracketed then segment.chars else '.' :: segment.chars

def chars : KeyPath → List Char
  | ⟨[]⟩ => []
  | ⟨first :: rest⟩ => first.chars ++ charsAfter rest

def render (path : KeyPath) : String :=
  String.ofList path.chars

end KeyPath

end WorkflowScope
