import WorkflowScope.Command.Range
import WorkflowScope.KeyPath.Basic

/-!
# Command lines as JSON

The listing is an array of objects whose fields stand in a fixed order, each on a line of its own.
-/

namespace WorkflowScope.CommandLine

/-- A command line and the key path of the value that holds it. -/
structure CommandEntry where
  path : KeyPath
  range : Range
  command : String
  deriving DecidableEq, Repr, Inhabited

inductive Json where
  | number (value : Nat)
  | text (value : String)
  | array (items : List Json)
  | object (fields : List (String × Json))
  deriving Inhabited

namespace Json

def hexDigit (value : Nat) : Char :=
  if value < 10 then Char.ofNat ('0'.toNat + value) else Char.ofNat ('a'.toNat + (value - 10))

/-- A character between quotes. Quotes, backslashes and controls are escaped. -/
def escapeChar (c : Char) : List Char :=
  if c = '"' then ['\\', '"']
  else if c = '\\' then ['\\', '\\']
  else if c = '\x08' then ['\\', 'b']
  else if c = '\t' then ['\\', 't']
  else if c = '\n' then ['\\', 'n']
  else if c = '\x0c' then ['\\', 'f']
  else if c = '\r' then ['\\', 'r']
  else if c.toNat < 0x20 then
    ['\\', 'u', '0', '0', hexDigit (c.toNat / 16), hexDigit (c.toNat % 16)]
  else [c]

def quote (text : String) : String :=
  String.ofList (['"'] ++ text.toList.flatMap escapeChar ++ ['"'])

def newLine (depth : Nat) : String :=
  "\n" ++ String.ofList (List.replicate (2 * depth) ' ')

def block (opening closing : String) (depth : Nat) : List String → String
  | [] => opening ++ closing
  | parts =>
      opening ++ newLine (depth + 1) ++ ("," ++ newLine (depth + 1)).intercalate parts ++
        newLine depth ++ closing

mutual

def render (depth : Nat) : Json → String
  | number value => toString value
  | text value => quote value
  | array items => block "[" "]" depth (renderItems (depth + 1) items)
  | object fields => block "\x7b" "\x7d" depth (renderFields (depth + 1) fields)

def renderItems (depth : Nat) : List Json → List String
  | [] => []
  | item :: rest => item.render depth :: renderItems depth rest

def renderFields (depth : Nat) : List (String × Json) → List String
  | [] => []
  | (name, value) :: rest => (quote name ++ ": " ++ value.render depth) :: renderFields depth rest

end

def ofPosition (position : Position) : Json :=
  object [("line", number position.line), ("character", number position.character)]

def ofRange (range : Range) : Json :=
  object [("start", ofPosition range.start), ("end", ofPosition range.stop)]

def ofEntry (entry : CommandEntry) : Json :=
  object
    [("path", text entry.path.render), ("range", ofRange entry.range),
     ("command", text entry.command)]

end Json

end WorkflowScope.CommandLine
