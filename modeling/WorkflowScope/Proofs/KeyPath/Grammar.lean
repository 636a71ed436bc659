import WorkflowScope.KeyPath.Basic

/-!
# The grammar of key paths

The texts that stand for a key path, and for which one. Each kind of piece is a relation between its
characters and what they stand for; no piece says where the next one begins.
-/

namespace WorkflowScope.KeyPath

def White (text : List Char) : Prop :=
  ∀ c ∈ text, Text.isWhite c = true

/-- The characters of a name that stands without quotes. -/
def NameChar (c : Char) : Prop :=
  Text.isWhite c = false ∧ c ∉ ['.', '[', ']', '*', '\'', '"']

/-- What a character after a backslash stands for. -/
inductive Escape : Char → Char → Prop where
  | lineFeed : Escape 'n' '\n'
  | tab : Escape 't' '\t'
  | backslash : Escape '\\' '\\'
  | singleQuote : Escape '\'' '\''
  | doubleQuote : Escape '"' '"'

/-- What stands between two quotes, and the key that it stands for. -/
inductive Body (quote : Char) : List Char → List Char → Prop where
  | nil : Body quote [] []
  | char {c : Char} {body value : List Char} (other : c ≠ quote) (plain : c ≠ '\\')
      (rest : Body quote body value) : Body quote (c :: body) (c :: value)
  | escape {escaped c : Char} {body value : List Char} (meaning : Escape escaped c)
      (rest : Body quote body value) : Body quote ('\\' :: escaped :: body) (c :: value)

/-- A key between two equal quotes. -/
inductive Quoted : List Char → List Char → Prop where
  | key {quote : Char} {body value : List Char} (isQuote : quote = '\'' ∨ quote = '"')
      (inner : Body quote body value) : Quoted (quote :: (body ++ [quote])) value

inductive Bracket : List Char → Segment → Prop where
  | wildcard {before behind : List Char} (leading : White before) (trailing : White behind) :
      Bracket ('[' :: (before ++ '*' :: (behind ++ [']']))) .wildcard
  | quoted {before behind text name : List Char} (leading : White before)
      (inner : Quoted text name) (trailing : White behind) :
      Bracket ('[' :: (before ++ (text ++ (behind ++ [']'])))) (.key (String.ofList name))

inductive Dotted : List Char → Segment → Prop where
  | wildcard : Dotted ['*'] .wildcard
  | name {name : List Char} (written : name ≠ []) (plain : ∀ c ∈ name, NameChar c) :
      Dotted name (.key (String.ofList name))

/-- A segment at the start or behind the dot of a root marker. -/
inductive First : List Char → Segment → Prop where
  | bracket {text : List Char} {segment : Segment} (inner : Bracket text segment) :
      First text segment
  | dotted {before text : List Char} {segment : Segment} (leading : White before)
      (inner : Dotted text segment) : First (before ++ text) segment

/-- The first segment with its root marker, if there is one. Without one, `$` does not begin a
name. -/
inductive Start : List Char → Segment → Prop where
  | bracket {text : List Char} {segment : Segment} (inner : Bracket text segment) :
      Start text segment
  | dotted {before text : List Char} {segment : Segment} (leading : White before)
      (inner : Dotted text segment) (unmarked : text.head? ≠ some '$') :
      Start (before ++ text) segment
  | rootDot {between text : List Char} {segment : Segment} (white : White between)
      (inner : First text segment) : Start ('$' :: (between ++ '.' :: text)) segment
  | rootBracket {between text : List Char} {segment : Segment} (white : White between)
      (inner : Bracket text segment) : Start ('$' :: (between ++ text)) segment

/-- A further segment and what separates it from the one before. -/
inductive Link : List Char → Segment → Prop where
  | dotted {before behind text : List Char} {segment : Segment} (leading : White before)
      (trailing : White behind) (inner : Dotted text segment) :
      Link (before ++ '.' :: (behind ++ text)) segment
  | bracket {before text : List Char} {segment : Segment} (leading : White before)
      (inner : Bracket text segment) : Link (before ++ text) segment

inductive Rest : List Char → List Segment → Prop where
  | nil : Rest [] []
  | cons {text rest : List Char} {segment : Segment} {segments : List Segment}
      (link : Link text segment) (more : Rest rest segments) :
      Rest (text ++ rest) (segment :: segments)

/-- A text stands for the segments of a key path. -/
inductive Denotes : List Char → List Segment → Prop where
  | path {before text rest behind : List Char} {first : Segment} {segments : List Segment}
      (leading : White before) (start : Start text first) (more : Rest rest segments)
      (trailing : White behind) :
      Denotes (before ++ (text ++ (rest ++ behind))) (first :: segments)

end WorkflowScope.KeyPath
