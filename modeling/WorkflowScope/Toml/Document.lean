import WorkflowScope.Toml.Number
import WorkflowScope.Toml.Text
import WorkflowScope.Toml.Value

/-!
# TOML documents

A document is a list of statements: key and value, header of a table, header of an array of tables.
A key may not be set twice, and a table may not be opened twice.
-/

namespace WorkflowScope.Toml

/-! ## Keys -/

def isBareChar (c : Char) : Bool :=
  c.isAlphanum || c == '_' || c == '-'

def readSimpleKey (text : List Char) : Option (String × List Char) :=
  let bare := text.takeWhile isBareChar
  if bare.isEmpty then (readShortString text).map fun (key, rest) => (String.ofList key, rest)
  else some (String.ofList bare, text.dropWhile isBareChar)

/-- The deepest nesting of values, and the largest number of parts of a key. -/
def maxDepth : Nat := 79

/-- Reads a key of at most `parts` parts with its dots, and the blanks around it. -/
def readKeyParts : Nat → List Char → Option (List String × List Char)
  | 0, _ => none
  | parts + 1, text => do
      let (first, rest) ← readSimpleKey (skipBlanks text)
      match skipBlanks rest with
      | '.' :: after =>
          let (more, rest) ← readKeyParts parts after
          some (first :: more, rest)
      | after => some ([first], after)

def readKey (text : List Char) : Option (List String × List Char) :=
  readKeyParts maxDepth text

/-! ## Tables -/

/-- Adds the value of a key inside a table that has been reached by `key`. Only tables that came
about by dotted keys may be extended so. -/
def insertDotted (value : Value) : List String → Entries → Option Entries
  | [], _ => none
  | [key], entries =>
      match entries.get? key with
      | some _ => none
      | none => some (entries.set key (.value value))
  | key :: next :: rest, entries =>
      match entries.get? key with
      | none => do
          let inner ← insertDotted value (next :: rest) []
          some (entries.set key (.table .dotted inner))
      | some (.table origin inner) =>
          if origin = .header || (origin = .implicit && rest.isEmpty) then none
          else do
            let inner ← insertDotted value (next :: rest) inner
            some (entries.set key (.table origin inner))
      | some (.tables latest earlier) =>
          if rest.isEmpty then none
          else do
            let inner ← insertDotted value (next :: rest) latest
            some (entries.set key (.tables inner earlier))
      | some (.value _) => none

/-- Changes the entries of the table that a header names; tables on the way come about by it. -/
def updateAt (change : Entries → Option Entries) : List String → Entries → Option Entries
  | [], entries => change entries
  | key :: rest, entries =>
      match entries.get? key with
      | none => do
          let inner ← updateAt change rest []
          some (entries.set key (.table .implicit inner))
      | some (.table origin inner) => do
          let inner ← updateAt change rest inner
          some (entries.set key (.table origin inner))
      | some (.tables latest earlier) => do
          let inner ← updateAt change rest latest
          some (entries.set key (.tables inner earlier))
      | some (.value _) => none

def openTable (path : List String) (root : Entries) : Option Entries :=
  match path.getLast? with
  | none => none
  | some key =>
      updateAt
        (fun entries =>
          match entries.get? key with
          | none => some (entries.set key (.table .header []))
          | some (.table .implicit inner) => some (entries.set key (.table .header inner))
          | some _ => none)
        path.dropLast root

/-- Begins another table of an array of tables. -/
def openTables (path : List String) (root : Entries) : Option Entries :=
  match path.getLast? with
  | none => none
  | some key =>
      updateAt
        (fun entries =>
          match entries.get? key with
          | none => some (entries.set key (.tables [] 0))
          | some (.tables _ earlier) => some (entries.set key (.tables [] (earlier + 1)))
          | some _ => none)
        path.dropLast root

/-! ## Values -/

def isCommentChar (c : Char) : Bool :=
  c == '\t' || (0x20 ≤ c.toNat && c != '\x7f')

def skipComment (text : List Char) : List Char :=
  match skipBlanks text with
  | '#' :: rest => rest.dropWhile isCommentChar
  | rest => rest

def skipSpace : Nat → List Char → List Char
  | 0, text => text
  | fuel + 1, text =>
      let text := skipComment text
      match skipBreak? text with
      | some rest => skipSpace fuel rest
      | none => text

def skipAllSpace (text : List Char) : List Char :=
  skipSpace (text.length + 1) text

def readStringValue (text : List Char) : Option (Value × List Char) := do
  let (value, rest) ← readString text
  some (.string (String.ofList value), rest)

mutual

/-- Reads a value in which arrays and inline tables are nested at most `depth` deep. -/
def readValue : Nat → Nat → List Char → Option (Value × List Char)
  | 0, _, _ => none
  | fuel + 1, depth, text =>
      match text with
      | '[' :: rest =>
          match depth with
          | 0 => none
          | inner + 1 => do
              let (items, after) ← readItems fuel inner (skipAllSpace rest)
              some (.array items, after)
      | '\x7b' :: rest =>
          match depth with
          | 0 => none
          | inner + 1 => do
              let (entries, after) ← readInline fuel inner [] (skipBlanks rest)
              some (.inlineTable (entries.map (·.1)), after)
      | '"' :: _ => readStringValue text
      | '\'' :: _ => readStringValue text
      | _ => do
          let (word, rest) := splitWord text
          let value ← wordValue? word
          some (value, rest)

/-- Reads the items of an array up to its end. A comma may stand after the last. -/
def readItems : Nat → Nat → List Char → Option (List Value × List Char)
  | 0, _, _ => none
  | fuel + 1, depth, text =>
      match text with
      | ']' :: rest => some ([], rest)
      | _ => do
          let (first, rest) ← readValue fuel depth text
          match skipAllSpace rest with
          | ',' :: after =>
              let (more, rest) ← readItems fuel depth (skipAllSpace after)
              some (first :: more, rest)
          | ']' :: after => some ([first], after)
          | _ => none

def readInline : Nat → Nat → Entries → List Char → Option (Entries × List Char)
  | 0, _, _, _ => none
  | fuel + 1, depth, entries, text =>
      match entries, text with
      | [], '\x7d' :: rest => some ([], rest)
      | _, _ => do
          let (key, rest) ← readKey text
          match rest with
          | '=' :: rest =>
              let (value, rest) ← readValue fuel depth (skipBlanks rest)
              let entries ← insertDotted value key entries
              match skipBlanks rest with
              | ',' :: after => readInline fuel depth entries after
              | '\x7d' :: after => some (entries, after)
              | _ => none
          | _ => none

end

/-! ## Statements -/

inductive Statement where
  | assign (key : List String) (value : Value)
  | table (path : List String)
  | tables (path : List String)
  deriving Inhabited

def readStatement (text : List Char) : Option (Statement × List Char) := do
  match text with
  | '[' :: '[' :: rest =>
      let (path, rest) ← readKey rest
      match rest with
      | ']' :: ']' :: after => some (.tables path, after)
      | _ => none
  | '[' :: rest =>
      let (path, rest) ← readKey rest
      match rest with
      | ']' :: after => some (.table path, after)
      | _ => none
  | _ =>
      let (key, rest) ← readKey text
      match rest with
      | '=' :: rest =>
          let (value, rest) ← readValue (text.length + 1) maxDepth (skipBlanks rest)
          some (.assign key value, rest)
      | _ => none

/-- Reads all statements. Each ends with its line. -/
def readStatements : Nat → List Char → Option (List Statement)
  | 0, _ => none
  | fuel + 1, text =>
      match skipAllSpace text with
      | [] => some []
      | start => do
          let (statement, rest) ← readStatement start
          match skipComment rest with
          | [] => some [statement]
          | after =>
              let next ← skipBreak? after
              let more ← readStatements fuel next
              some (statement :: more)

/-- Carries out statements, where `current` is the table that was opened last. -/
def execute : List Statement → List String → Entries → Option Entries
  | [], _, root => some root
  | .assign key value :: rest, current, root => do
      let root ← updateAt (insertDotted value key) current root
      execute rest current root
  | .table path :: rest, _, root => do
      let root ← openTable path root
      execute rest path root
  | .tables path :: rest, _, root => do
      let root ← openTables path root
      execute rest path root

/-- A byte order mark in front does not count. -/
def dropByteOrderMark : List Char → List Char
  | '\ufeff' :: rest => rest
  | text => text

def parse (text : String) : Option Entries := do
  let chars := dropByteOrderMark text.toList
  let statements ← readStatements (chars.length + 1) chars
  execute statements [] []

end WorkflowScope.Toml
