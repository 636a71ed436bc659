/-!
# Writing TOML

A string is written in the first of several forms that keeps it readable.
-/

namespace WorkflowScope.Toml

/-- A character that has to be escaped wherever it stands. -/
def isControl (c : Char) : Bool :=
  (c.toNat < 0x20 && c != '\t' && c != '\n') || c.toNat == 0x7f

/-- Length of the longest run of a character, where `run` of them come before. -/
def longestRun (c : Char) (run : Nat) : List Char → Nat
  | [] => run
  | x :: rest => if x = c then longestRun c (run + 1) rest else max run (longestRun c 0 rest)

def hexDigits (code : Nat) : List Char :=
  let digits := (Nat.toDigits 16 code).map Char.toUpper
  List.replicate (4 - digits.length) '0' ++ digits

/-- The escape of a character that is no quote; the character itself if it needs none. -/
def escapeChar (c : Char) : List Char :=
  match c with
  | '\x08' => ['\\', 'b']
  | '\t' => ['\\', 't']
  | '\x0c' => ['\\', 'f']
  | '\r' => ['\\', 'r']
  | '\\' => ['\\', '\\']
  | _ => if isControl c then ['\\', 'u'] ++ hexDigits c.toNat else [c]

def escapeShort (text : List Char) : List Char :=
  text.flatMap fun c =>
    if c = '"' then ['\\', '"'] else if c = '\n' then ['\\', 'n'] else escapeChar c

/-- A string between tripled double quotes, of which `run` come before. Every third quote in a row
is escaped. -/
def escapeLong (run : Nat) : List Char → List Char
  | [] => []
  | c :: rest =>
      if c = '"' then
        if run = 2 then '\\' :: '"' :: escapeLong 0 rest else '"' :: escapeLong (run + 1) rest
      else escapeChar c ++ escapeLong 0 rest

inductive Form where
  | basic
  | literal
  | longBasic
  | longLiteral
  deriving DecidableEq, Repr

/-- The first form that fits a string. -/
def formOf (text : List Char) : Form :=
  let control := text.any isControl
  let broken := text.contains '\n'
  if !control && !text.contains '\\' && !text.contains '"' && !broken then .basic
  else if !control && !text.contains '\'' && !broken then .literal
  else if !control && !text.contains '\\' && longestRun '"' 0 text ≤ 2 then .longBasic
  else if !control && longestRun '\'' 0 text ≤ 2 then .longLiteral
  else if broken then .longBasic
  else .basic

/-- A string as it is written. Long forms begin on a line of their own if the string has lines. -/
def writeChars (text : List Char) : List Char :=
  let first := if text.contains '\n' then ['\n'] else []
  match formOf text with
  | .basic => ['"'] ++ escapeShort text ++ ['"']
  | .literal => ['\''] ++ text ++ ['\'']
  | .longBasic => ['"', '"', '"'] ++ first ++ escapeLong 0 text ++ ['"', '"', '"']
  | .longLiteral => ['\'', '\'', '\''] ++ first ++ text ++ ['\'', '\'', '\'']

def writeString (text : String) : String :=
  String.ofList (writeChars text.toList)

/-- An array of strings. From two items on each has a line of its own. -/
def writeStrings : List String → String
  | [] => "[]"
  | [item] => "[" ++ writeString item ++ "]"
  | items => "[\n" ++ String.join (items.map fun item => "    " ++ writeString item ++ ",\n") ++ "]"

def writeLine (key value : String) : String :=
  key ++ " = " ++ value ++ "\n"

end WorkflowScope.Toml
