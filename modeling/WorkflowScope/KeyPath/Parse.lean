import WorkflowScope.KeyPath.Basic

/-!
# Reading key paths

`jobs.*.steps['my.key']`: keys and wildcards after dots, quoted keys and wildcards between brackets,
and perhaps a root marker `$` in front. White characters may stand around separators.
-/

namespace WorkflowScope.KeyPath

/-- What should have stood where reading stopped. -/
inductive Expectation where
  | keyName
  | separator
  | separatorAfterRoot
  | quotedKey
  | closingBracket
  | closingQuote
  deriving DecidableEq, Repr, Inhabited

def Expectation.message : Expectation → String
  | keyName => "key name"
  | separator => "'.' or '['"
  | separatorAfterRoot => "'.' or '[' after '$'"
  | quotedKey => "quoted key or '*'"
  | closingBracket => "']'"
  | closingQuote => "closing quote"

/-- Why a text is no key path. Positions count characters. -/
inductive Error where
  | empty
  | unexpectedChar (position : Nat) (found : Char) (expected : Expectation)
  | unexpectedEnd (expected : Expectation)
  /-- Brackets hold a quoted key or `*`. -/
  | unsupportedBracket (position : Nat)
  | invalidEscape (position : Nat)
  deriving DecidableEq, Repr, Inhabited

def Error.message : Error → String
  | empty => "key-path is empty"
  | unexpectedChar position found expected =>
      "unexpected '" ++ found.toString ++ "' at position " ++ toString position ++ ", expected " ++
        expected.message
  | unexpectedEnd expected => "key-path ends early, expected " ++ expected.message
  | unsupportedBracket position =>
      "unsupported bracket segment at position " ++ toString position
  | invalidEscape position =>
      "invalid escape in quoted key at position " ++ toString position

/-! In the following `total` is the length of the whole text, so what is left of it gives the
position. -/

def unexpected {α : Type} (total : Nat) (expected : Expectation) : List Char → Except Error α
  | [] => .error (.unexpectedEnd expected)
  | c :: rest => .error (.unexpectedChar (total - (rest.length + 1)) c expected)

def skipWhite (text : List Char) : List Char :=
  text.dropWhile Text.isWhite

def readName (total : Nat) (text : List Char) : Except Error (Segment × List Char) :=
  let name := text.takeWhile Segment.isKeyChar
  if name.isEmpty then unexpected total .keyName text
  else .ok (.key (String.ofList name), text.dropWhile Segment.isKeyChar)

def readDotted (total : Nat) (text : List Char) : Except Error (Segment × List Char) :=
  match skipWhite text with
  | '*' :: rest => .ok (.wildcard, rest)
  | other => readName total other

/-- The meaning of the character after a backslash. -/
def unescape? : Char → Option Char
  | 'n' => some '\n'
  | 't' => some '\t'
  | '\\' => some '\\'
  | '\'' => some '\''
  | '"' => some '"'
  | _ => none

def readQuoted (total : Nat) (quote : Char) : List Char → Except Error (List Char × List Char)
  | [] => .error (.unexpectedEnd .closingQuote)
  | c :: rest =>
      if c = quote then .ok ([], rest)
      else if c = '\\' then
        match rest with
        | [] => .error (.invalidEscape (total - 1))
        | escaped :: rest =>
            match unescape? escaped with
            | none => .error (.invalidEscape (total - (rest.length + 1)))
            | some char => do
                let (value, after) ← readQuoted total quote rest
                .ok (char :: value, after)
      else do
        let (value, after) ← readQuoted total quote rest
        .ok (c :: value, after)

def closeBracket (total : Nat) (segment : Segment) (text : List Char) :
    Except Error (Segment × List Char) :=
  match skipWhite text with
  | ']' :: rest => .ok (segment, rest)
  | other => unexpected total .closingBracket other

/-- Reads a segment between brackets, after the opening one. -/
def readBracket (total : Nat) (text : List Char) : Except Error (Segment × List Char) :=
  match skipWhite text with
  | [] => .error (.unexpectedEnd .quotedKey)
  | '*' :: rest => closeBracket total .wildcard rest
  | c :: rest =>
      if c = '\'' ∨ c = '"' then do
        let (name, after) ← readQuoted total c rest
        closeBracket total (.key (String.ofList name)) after
      else .error (.unsupportedBracket (total - (rest.length + 1)))

def readRest (total : Nat) : Nat → List Char → Except Error (List Segment)
  | 0, _ => .ok []
  | fuel + 1, text =>
      match skipWhite text with
      | [] => .ok []
      | '.' :: rest => do
          let (segment, after) ← readDotted total rest
          let more ← readRest total fuel after
          .ok (segment :: more)
      | '[' :: rest => do
          let (segment, after) ← readBracket total rest
          let more ← readRest total fuel after
          .ok (segment :: more)
      | other => unexpected total .separator other

/-- Reads a root marker and its dot, if there are any. -/
def readRoot (total : Nat) : List Char → Except Error (List Char)
  | '$' :: rest =>
      match skipWhite rest with
      | '.' :: after => .ok after
      | '[' :: after => .ok ('[' :: after)
      | [] => .ok []
      | other => unexpected total .separatorAfterRoot other
  | other => .ok other

def readFirst (total : Nat) : List Char → Except Error (Segment × List Char)
  | '[' :: rest => readBracket total rest
  | other => readDotted total other

/-- Reads a key path. Every segment takes a character, so the length of the text bounds their
number. -/
def parseChars (text : List Char) : Except Error KeyPath :=
  match skipWhite text with
  | [] => .error .empty
  | start => do
      let start ← readRoot text.length start
      let (first, after) ← readFirst text.length start
      let rest ← readRest text.length (text.length + 1) after
      .ok ⟨first :: rest⟩

def parse (text : String) : Except Error KeyPath :=
  parseChars text.toList

end WorkflowScope.KeyPath
