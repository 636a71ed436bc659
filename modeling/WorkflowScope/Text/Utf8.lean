/-!
# Texts as bytes

A text is written in UTF-8, where a character takes one to four bytes. Reading stops at the first
byte that cannot be part of a character and says where that character began.
-/

namespace WorkflowScope

abbrev Bytes := List UInt8

namespace Utf8

inductive Defect where
  /-- The bytes at an index, so many of them, begin no character. -/
  | malformed (index length : Nat)
  /-- The bytes end inside of the character at an index. -/
  | truncated (index : Nat)
  deriving DecidableEq, Repr, Inhabited

def Defect.message : Defect → String
  | malformed index length =>
      "invalid utf-8 sequence of " ++ toString length ++ " bytes from index " ++ toString index
  | truncated index => "incomplete utf-8 byte sequence from index " ++ toString index

/-- A character of which some bytes have been read. -/
structure Begun where
  /-- Where it begins. -/
  index : Nat
  /-- Number of bytes that have been read. -/
  taken : Nat := 1
  /-- Number of bytes to come after the next. -/
  owed : Nat
  /-- The smallest byte that may come next. -/
  low : Nat := 0x80
  /-- The largest byte that may come next. -/
  high : Nat := 0xBF
  /-- The code point as far as it is known. -/
  code : Nat
  deriving DecidableEq, Repr, Inhabited

/-- The character that a first byte begins, if it is none of the characters of one byte. The bounds
on the second byte keep out codes that have a shorter form, surrogates, and codes that are too
large. -/
def begin? (index byte : Nat) : Option Begun :=
  if byte < 0xC2 then none
  else if byte < 0xE0 then some { index, owed := 0, code := byte - 0xC0 }
  else if byte = 0xE0 then some { index, owed := 1, low := 0xA0, code := 0 }
  else if byte = 0xED then some { index, owed := 1, high := 0x9F, code := 0xD }
  else if byte < 0xF0 then some { index, owed := 1, code := byte - 0xE0 }
  else if byte = 0xF0 then some { index, owed := 2, low := 0x90, code := 0 }
  else if byte < 0xF4 then some { index, owed := 2, code := byte - 0xF0 }
  else if byte = 0xF4 then some { index, owed := 2, high := 0x8F, code := 4 }
  else none

def Begun.codeWith (begun : Begun) (byte : Nat) : Nat :=
  begun.code * 64 + (byte - 0x80)

/-- The character after one more byte that is not its last. -/
def Begun.extend (begun : Begun) (byte : Nat) : Begun :=
  { index := begun.index, taken := begun.taken + 1, owed := begun.owed - 1,
    code := begun.codeWith byte }

/-- Reads the bytes from an index on, perhaps inside of a character. -/
def decodeFrom : Nat → Option Begun → Bytes → Except Defect (List Char)
  | _, none, [] => .ok []
  | _, some begun, [] => .error (.truncated begun.index)
  | index, none, byte :: rest =>
      if byte.toNat < 0x80 then (decodeFrom (index + 1) none rest).map (Char.ofNat byte.toNat :: ·)
      else
        match begin? index byte.toNat with
        | some begun => decodeFrom (index + 1) (some begun) rest
        | none => .error (.malformed index 1)
  | index, some begun, byte :: rest =>
      if byte.toNat < begun.low ∨ begun.high < byte.toNat then
        .error (.malformed begun.index begun.taken)
      else if begun.owed = 0 then
        (decodeFrom (index + 1) none rest).map (Char.ofNat (begun.codeWith byte.toNat) :: ·)
      else decodeFrom (index + 1) (some (begun.extend byte.toNat)) rest

def decode (bytes : Bytes) : Except Defect String :=
  (decodeFrom 0 none bytes).map String.ofList

def encode (text : String) : Bytes :=
  text.toList.flatMap String.utf8EncodeChar

end Utf8

end WorkflowScope
