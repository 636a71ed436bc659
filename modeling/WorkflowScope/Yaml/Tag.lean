import WorkflowScope.Text.Hex
import WorkflowScope.Yaml.Cursor

/-!
# Tags and directives

A tag is a handle and a suffix, or an address between `!<` and `>`. Nothing depends on suffixes and
addresses, so they are read, checked and dropped; handles are kept.
-/

namespace WorkflowScope.Yaml.Tag

/-- Number of octets of the UTF-8 sequence that an octet leads. -/
def sequenceLength? (octet : Nat) : Option Nat :=
  if octet < 0x80 then some 1
  else if 0xc0 ≤ octet && octet < 0xe0 then some 2
  else if 0xe0 ≤ octet && octet < 0xf0 then some 3
  else if 0xf0 ≤ octet && octet < 0xf8 then some 4
  else none

def octetAt (start : Mark) (c : Cursor) : Except SyntaxError Nat :=
  match c.peek, Text.hexValue? (c.peekAt 1), Text.hexValue? (c.peekAt 2) with
  | '%', some high, some low => .ok (high * 16 + low)
  | _, _, _ => .error ⟨.tagEscape, start⟩

/-- Reads the octets that follow a leading one, and puts them behind `code`. -/
def readTrailing (start : Mark) : Nat → Nat → Cursor → Except SyntaxError (Cursor × Nat)
  | 0, code, c => .ok (c, code)
  | n + 1, code, c => do
      let octet ← octetAt start c
      if 0x80 ≤ octet && octet < 0xc0 then
        readTrailing start n (code * 256 + octet) ((c.lookAhead 3).skip 3)
      else .error ⟨.tagTrailingOctet, start⟩

/-- Reads an escaped character. Its octets, one behind the other, have to be a code point. -/
def skipEscape (start : Mark) (c : Cursor) : Except SyntaxError Cursor := do
  let octet ← octetAt start c
  match sequenceLength? octet with
  | none => .error ⟨.tagLeadingOctet, start⟩
  | some n =>
      let (c, code) ← readTrailing start (n - 1) octet ((c.lookAhead 3).skip 3)
      if (Text.charOfCode? code).isSome then .ok c else .error ⟨.tagCodePoint, start⟩

/-- Reads characters of a class, escaped ones included. Counts them. -/
def skipAddress (p : Char → Bool) (start : Mark) :
    Nat → Cursor → Except SyntaxError (Cursor × Nat)
  | 0, c => .ok (c, 0)
  | fuel + 1, c =>
      if !p c.peek then .ok (c, 0)
      else do
        let c ← if c.peek == '%' then skipEscape start c else .ok (c.skip 1)
        let (c, more) ← skipAddress p start fuel c
        .ok (c, more + 1)

def readHandle (start : Mark) (c : Cursor) : Except SyntaxError (Cursor × List Char) :=
  if c.peek != '!' then .error ⟨.tagBang, start⟩
  else
    let c := c.skip 1
    let word := c.upcoming isWordChar
    let c := c.skip word.length
    if c.peek == '!' then .ok (c.skip 1, '!' :: word ++ ['!']) else .ok (c, '!' :: word)

/-- A handle that a directive has to declare, unless it is `!!`. -/
def isNamedHandle (handle : List Char) : Bool :=
  2 ≤ handle.length && handle.head? == some '!' && handle.getLast? == some '!'

/-- Reads a tag. Its handle is empty for an address and for the tag `!` alone. -/
def read (flow : Bool) (c : Cursor) : Except SyntaxError (Cursor × List Char) := do
  let start := c.mark
  let (c, handle) ←
    if c.peekAt 1 == '<' then do
      let (c, _) ← skipAddress isUriChar start (c.rest.length + 1) ((c.lookAhead 2).skip 2)
      if c.peek == '>' then .ok (c.skip 1, []) else .error ⟨.verbatimTagEnd, start⟩
    else do
      let (c, handle) ← readHandle start c
      let (c, suffix) ← skipAddress isTagChar start (c.rest.length + 1) c
      if isNamedHandle handle then
        if suffix = 0 then .error ⟨.tagSuffix, start⟩ else .ok (c, handle)
      else if handle.length = 1 && suffix = 0 then .ok (c, [])
      else .ok (c, ['!'])
  if isBlankBreakOrEnd c.peek || (flow && isFlow c.peek) then .ok (c, handle)
  else .error ⟨.tagFollow, start⟩

end WorkflowScope.Yaml.Tag
