import WorkflowScope.Text.Hex

/-!
# TOML strings

Strings stand between quotes. Double quotes allow escapes, single quotes none; tripled quotes allow
line breaks.
-/

namespace WorkflowScope.Toml

/-! A reading function gives what it read and what is left of the text, or nothing if the text is
not as it should be. -/

def isBlank (c : Char) : Bool :=
  c == ' ' || c == '\t'

def skipBlanks (text : List Char) : List Char :=
  text.dropWhile isBlank

/-- What follows a line break, if one stands here. -/
def skipBreak? : List Char → Option (List Char)
  | '\n' :: rest => some rest
  | '\r' :: '\n' :: rest => some rest
  | _ => none

def isStringChar (c : Char) : Bool :=
  c == '\t' || (0x20 ≤ c.toNat && c.toNat != 0x7f)

/-- The character of a code point of so many hexadecimal digits. -/
def readCode (digits : Nat) (text : List Char) : Option (Char × List Char) := do
  let code ← Text.ofHex? (text.take digits)
  let char ← Text.charOfCode? code
  if digits ≤ text.length then some (char, text.drop digits) else none

/-- The character that an escape stands for, after the backslash. -/
def readEscape : List Char → Option (Char × List Char)
  | 'b' :: rest => some ('\x08', rest)
  | 't' :: rest => some ('\t', rest)
  | 'n' :: rest => some ('\n', rest)
  | 'f' :: rest => some ('\x0c', rest)
  | 'r' :: rest => some ('\r', rest)
  | '"' :: rest => some ('"', rest)
  | '\\' :: rest => some ('\\', rest)
  | 'u' :: rest => readCode 4 rest
  | 'U' :: rest => readCode 8 rest
  | _ => none

def put (c : Char) (reading : Option (List Char × List Char)) :
    Option (List Char × List Char) :=
  reading.map fun (text, rest) => (c :: text, rest)

def readBasic : Nat → List Char → Option (List Char × List Char)
  | 0, _ => none
  | _, [] => none
  | fuel + 1, c :: rest =>
      if c = '"' then some ([], rest)
      else if c = '\\' then do
        let (escaped, rest) ← readEscape rest
        put escaped (readBasic fuel rest)
      else if isStringChar c then put c (readBasic fuel rest)
      else none

def readLiteral : List Char → Option (List Char × List Char)
  | [] => none
  | c :: rest =>
      if c = '\'' then some ([], rest)
      else if isStringChar c then put c (readLiteral rest)
      else none

def skipBreaks : Nat → List Char → List Char
  | 0, text => text
  | fuel + 1, text =>
      let text := skipBlanks text
      match skipBreak? text with
      | some rest => skipBreaks fuel rest
      | none => text

/-- A run of quotes: whether it closes a string with tripled quotes, and how many stand before the
closing ones. At most two may. -/
def closing? (quote : Char) (text : List Char) : Option (Nat × List Char) :=
  let run := (text.takeWhile (· == quote)).length
  if run < 3 then none else some (min (run - 3) 2, text.drop (min run 5))

/-- Reads a string between tripled double quotes, after the opening ones. A backslash at the end of
a line drops the break and the white characters after it. -/
def readLongBasic : Nat → List Char → Option (List Char × List Char)
  | 0, _ => none
  | _, [] => none
  | fuel + 1, c :: rest =>
      if c = '"' then
        match closing? '"' (c :: rest) with
        | some (quotes, after) => some (List.replicate quotes '"', after)
        | none => put c (readLongBasic fuel rest)
      else if c = '\\' then
        match skipBreak? (skipBlanks rest) with
        | some after => readLongBasic fuel (skipBreaks (after.length + 1) after)
        | none => do
            let (escaped, after) ← readEscape rest
            put escaped (readLongBasic fuel after)
      else
        match skipBreak? (c :: rest) with
        | some after => put '\n' (readLongBasic fuel after)
        | none => if isStringChar c then put c (readLongBasic fuel rest) else none

def readLongLiteral : Nat → List Char → Option (List Char × List Char)
  | 0, _ => none
  | _, [] => none
  | fuel + 1, c :: rest =>
      if c = '\'' then
        match closing? '\'' (c :: rest) with
        | some (quotes, after) => some (List.replicate quotes '\'', after)
        | none => put c (readLongLiteral fuel rest)
      else
        match skipBreak? (c :: rest) with
        | some after => put '\n' (readLongLiteral fuel after)
        | none => if isStringChar c then put c (readLongLiteral fuel rest) else none

/-- A line break right after tripled quotes does not count. -/
def skipFirstBreak (text : List Char) : List Char :=
  (skipBreak? text).getD text

def readString (text : List Char) : Option (List Char × List Char) :=
  match text with
  | '"' :: '"' :: '"' :: rest => readLongBasic (rest.length + 1) (skipFirstBreak rest)
  | '"' :: rest => readBasic (rest.length + 1) rest
  | '\'' :: '\'' :: '\'' :: rest => readLongLiteral (rest.length + 1) (skipFirstBreak rest)
  | '\'' :: rest => readLiteral rest
  | _ => none

/-- Reads a string on one line, as it may stand for a key. -/
def readShortString (text : List Char) : Option (List Char × List Char) :=
  match text with
  | '"' :: rest => readBasic (rest.length + 1) rest
  | '\'' :: rest => readLiteral rest
  | _ => none

end WorkflowScope.Toml
