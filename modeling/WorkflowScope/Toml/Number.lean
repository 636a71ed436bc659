import WorkflowScope.Text.Hex
import WorkflowScope.Toml.Value

/-!
# TOML numbers and times

These functions tell whether a word is a number or a time as TOML writes them.
-/

namespace WorkflowScope.Toml

/-- Digits of a class, with an underscore only between two of them. -/
def isDigitRun (digit : Char → Bool) : List Char → Bool
  | [] => false
  | [c] => digit c
  | c :: '_' :: rest => digit c && isDigitRun digit rest
  | c :: rest => digit c && isDigitRun digit rest

def isHexDigit (c : Char) : Bool :=
  (Text.hexValue? c).isSome

def isOctalDigit (c : Char) : Bool :=
  '0' ≤ c && c ≤ '7'

def isBinaryDigit (c : Char) : Bool :=
  c == '0' || c == '1'

def unsigned : List Char → List Char
  | '+' :: rest => rest
  | '-' :: rest => rest
  | word => word

def isPlainDecimal (word : List Char) : Bool :=
  isDigitRun Char.isDigit word && (word.length == 1 || word.head? != some '0')

def valueOf (base : Nat) (word : List Char) : Nat :=
  (word.filter (· != '_')).foldl (fun sum c => sum * base + (Text.hexValue? c).getD 0) 0

def integerLimit : Nat := 0x8000000000000000

/-- An integer, which has to fit into a signed word of 64 bits. -/
def isInteger (word : List Char) : Bool :=
  match word with
  | '0' :: 'x' :: rest => isDigitRun isHexDigit rest && valueOf 16 rest < integerLimit
  | '0' :: 'o' :: rest => isDigitRun isOctalDigit rest && valueOf 8 rest < integerLimit
  | '0' :: 'b' :: rest => isDigitRun isBinaryDigit rest && valueOf 2 rest < integerLimit
  | _ =>
      let limit := if word.head? == some '-' then integerLimit + 1 else integerLimit
      isPlainDecimal (unsigned word) && valueOf 10 (unsigned word) < limit

def isExponent (word : List Char) : Bool :=
  isDigitRun Char.isDigit (unsigned word)

def isExponentMark (c : Char) : Bool :=
  c == 'e' || c == 'E'

def exponentOf (word : List Char) : Int :=
  let size : Int := valueOf 10 (unsigned word)
  if word.head? == some '-' then -size else size

/-- The least number that has no finite double near it. It lies half a step above the largest double
with 53 bits, and such a half is rounded up. -/
def doubleLimit : Nat :=
  Nat.pow 2 1024 - Nat.pow 2 970

/-- Number of decimal digits of `doubleLimit`. -/
def doubleLimitDigits : Int := 309

/-- The number that `digits` write times ten to the power of `scale` is too large for a double. The
place of its first digit decides, unless it is that of `doubleLimit`; so no large power is
needed. -/
def exceedsDouble (digits : List Char) (scale : Int) : Bool :=
  let significant := (digits.filter (· != '_')).dropWhile (· == '0')
  let place := significant.length + scale
  if significant.isEmpty || place < doubleLimitDigits then false
  else if doubleLimitDigits < place then true
  else
    doubleLimit * Nat.pow 10 (-scale).toNat ≤ valueOf 10 significant * Nat.pow 10 scale.toNat

/-- A number with a fraction or an exponent, or one of the special ones. One that is too large is
refused unless it is negative. -/
def isFloat (word : List Char) : Bool :=
  let body := unsigned word
  let mantissa := body.takeWhile (!isExponentMark ·)
  let exponent := body.dropWhile (!isExponentMark ·)
  let whole := mantissa.takeWhile (· != '.')
  let fraction := mantissa.dropWhile (· != '.')
  let places := (fraction.tail.filter (· != '_')).length
  body == ['i', 'n', 'f'] || body == ['n', 'a', 'n'] ||
    (isPlainDecimal whole &&
      (fraction.isEmpty || isDigitRun Char.isDigit fraction.tail) &&
      (exponent.isEmpty || isExponent exponent.tail) &&
      !(fraction.isEmpty && exponent.isEmpty) &&
      (word.head? == some '-' ||
        !exceedsDouble (whole ++ fraction.tail) (exponentOf exponent.tail - places)))

def fixedNumber? (count : Nat) (word : List Char) : Option Nat :=
  if word.length = count && word.all Char.isDigit then some (valueOf 10 word) else none

def daysIn (year month : Nat) : Nat :=
  let leap := (year % 4 == 0 && year % 100 != 0) || year % 400 == 0
  match month with
  | 2 => if leap then 29 else 28
  | 4 | 6 | 9 | 11 => 30
  | _ => 31

/-- A date, such as `1979-05-27`. -/
def isDate (word : List Char) : Bool :=
  word.length == 10 && word[4]? == some '-' && word[7]? == some '-' &&
    match fixedNumber? 4 (word.take 4), fixedNumber? 2 ((word.drop 5).take 2),
        fixedNumber? 2 (word.drop 8) with
    | some year, some month, some day =>
        1 ≤ month && month ≤ 12 && 1 ≤ day && day ≤ daysIn year month
    | _, _, _ => false

/-- A time of day, such as `07:32:00.5`. -/
def isTime (word : List Char) : Bool :=
  let fraction := word.drop 8
  word[2]? == some ':' && word[5]? == some ':' &&
    (fraction.isEmpty ||
      (fraction.head? == some '.' && !fraction.tail.isEmpty && fraction.tail.all Char.isDigit)) &&
    match fixedNumber? 2 (word.take 2), fixedNumber? 2 ((word.drop 3).take 2),
        fixedNumber? 2 ((word.drop 6).take 2) with
    | some hour, some minute, some second => hour ≤ 23 && minute ≤ 59 && second ≤ 60
    | _, _, _ => false

/-- An offset from universal time, such as `-07:00`. -/
def isOffset (word : List Char) : Bool :=
  word == ['Z'] || word == ['z'] ||
    (word.length == 6 && (word.head? == some '+' || word.head? == some '-') &&
      word[3]? == some ':' &&
      match fixedNumber? 2 ((word.drop 1).take 2), fixedNumber? 2 (word.drop 4) with
      | some hour, some minute => hour ≤ 23 && minute ≤ 59
      | _, _ => false)

def isTimeChar (c : Char) : Bool :=
  c.isDigit || c == ':' || c == '.'

def isTimeWithOffset (word : List Char) : Bool :=
  let offset := word.dropWhile isTimeChar
  isTime (word.takeWhile isTimeChar) && (offset.isEmpty || isOffset offset)

def isDateTime (word : List Char) : Bool :=
  isTime word || isDate word ||
    (isDate (word.take 10) && (word[10]?).any (fun c => c == 'T' || c == 't' || c == ' ') &&
      isTimeWithOffset (word.drop 11))

def isWordChar (c : Char) : Bool :=
  c.isAlphanum || c == '_' || c == '+' || c == '-' || c == '.' || c == ':'

/-- The word at the start of a text. A date may have a space before its time. -/
def splitWord (text : List Char) : List Char × List Char :=
  let word := text.takeWhile isWordChar
  let rest := text.dropWhile isWordChar
  match rest with
  | ' ' :: c :: more =>
      if isDate word && c.isDigit then
        (word ++ ' ' :: (c :: more).takeWhile isWordChar, (c :: more).dropWhile isWordChar)
      else (word, rest)
  | _ => (word, rest)

def wordValue? (word : List Char) : Option Value :=
  if word = ['t', 'r', 'u', 'e'] then some (.boolean true)
  else if word = ['f', 'a', 'l', 's', 'e'] then some (.boolean false)
  else if isDateTime word then some (.dateTime (String.ofList word))
  else if isFloat word then some (.float (String.ofList word))
  else if isInteger word then some (.integer (String.ofList word))
  else none

end WorkflowScope.Toml
