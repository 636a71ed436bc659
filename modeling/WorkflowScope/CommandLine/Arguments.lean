import WorkflowScope.Text.Word

/-!
# Arguments

The first argument names what to do. Options stand anywhere among the values behind it; a value is
refused as soon as it is read, so of a call for help and a bad value the first counts.
-/

namespace WorkflowScope.CommandLine

inductive Verb where
  /-- Tells the key path at a position. -/
  | locate
  /-- Lists the values under a pattern. -/
  | collect
  /-- Lists the command lines under a pattern. -/
  | ranges
  /-- Lints a document. -/
  | check
  deriving DecidableEq, Repr, Inhabited

inductive Action where
  | locate (file : String) (line column : Nat)
  | collect (file : String) (pattern : Option String)
  | ranges (file : String) (pattern : Option String) (json : Bool)
  | check (file : String)
  deriving DecidableEq, Repr, Inhabited

inductive Topic where
  | program
  | verb (verb : Verb)
  /-- Help itself. -/
  | help
  deriving DecidableEq, Repr, Inhabited

/-- Why there is nothing to do. -/
inductive Stop where
  | version
  | help (topic : Topic)
  /-- The arguments are wrong. -/
  | misuse
  deriving DecidableEq, Repr, Inhabited

namespace Verb

def name : Verb → String
  | locate => "locate"
  | collect => "collect"
  | ranges => "ranges"
  | check => "check"

def all : List Verb :=
  [locate, collect, ranges, check]

def ofName? (name : String) : Option Verb :=
  all.find? (·.name == name)

def arity : Verb → Nat
  | locate => 3
  | _ => 1

def takesPattern : Verb → Bool
  | collect | ranges => true
  | locate | check => false

def takesJson : Verb → Bool
  | ranges => true
  | _ => false

end Verb

/-- A number that fits into a word, in decimal digits after an optional sign. -/
def number? (text : String) : Option Nat := do
  let (negative, digits) := match text.toList with
    | '+' :: digits => (false, digits)
    | '-' :: digits => (true, digits)
    | digits => (false, digits)
  if digits.isEmpty || !digits.all Char.isDigit then none
  else
    let value := digits.foldl (fun sum digit => sum * 10 + (digit.toNat - '0'.toNat)) 0
    if (negative && value != 0) || Word32.count ≤ value then none else some value

inductive Shape where
  /-- Two dashes, behind which there are only values. -/
  | escape
  /-- A long option, with what stands behind an equals sign. -/
  | long (name : List Char) (value : Option String)
  /-- Short options behind one dash. -/
  | short (first : Char) (rest : List Char)
  | value
  deriving DecidableEq, Repr, Inhabited

def afterEquals : List Char → Option String
  | [] => none
  | '=' :: rest => some (String.ofList rest)
  | _ :: rest => afterEquals rest

/-- The looks of an argument. A single dash is a value. -/
def Shape.of (argument : String) : Shape :=
  match argument.toList with
  | ['-', '-'] => escape
  | '-' :: '-' :: rest => long (rest.takeWhile (· != '=')) (afterEquals rest)
  | '-' :: first :: rest => short first rest
  | _ => value

/-- What has been read behind a verb. -/
structure Given where
  values : List String := []
  pattern : Option String := none
  json : Bool := false
  deriving DecidableEq, Repr, Inhabited

namespace Given

/-- Reads a value. A file has to have a name, and lines and columns are numbers. -/
def addValue (verb : Verb) (given : Given) (value : String) : Except Stop Given :=
  if verb.arity ≤ given.values.length then .error .misuse
  else if given.values.isEmpty then
    if value.isEmpty then .error .misuse else .ok { given with values := [value] }
  else if (number? value).isNone then .error .misuse
  else .ok { given with values := given.values ++ [value] }

def setPattern (given : Given) (pattern : String) : Except Stop Given :=
  match given.pattern with
  | none => .ok { given with pattern := some pattern }
  | some _ => .error .misuse

def setJson (given : Given) : Except Stop Given :=
  if given.json then .error .misuse else .ok { given with json := true }

/-- The action, if no value is missing. -/
def action (given : Given) (verb : Verb) : Except Stop Action :=
  match verb, given.values with
  | .locate, [file, line, column] =>
      match number? line, number? column with
      | some line, some column => .ok (.locate file line column)
      | _, _ => .error .misuse
  | .collect, [file] => .ok (.collect file given.pattern)
  | .ranges, [file] => .ok (.ranges file given.pattern given.json)
  | .check, [file] => .ok (.check file)
  | _, _ => .error .misuse

end Given

/-- The pattern in the same argument as its short option. -/
def attached? : List Char → Option String
  | [] => none
  | '=' :: rest => some (String.ofList rest)
  | rest => some (String.ofList rest)

inductive Choice where
  | help
  | pattern (attached : Option String)
  | json
  | unknown
  deriving DecidableEq, Repr, Inhabited

def Choice.ofLong (verb : Verb) (name : List Char) (attached : Option String) : Choice :=
  if name = "help".toList ∧ attached = none then help
  else if name = "pattern".toList ∧ verb.takesPattern then pattern attached
  else if name = "json".toList ∧ attached = none ∧ verb.takesJson then json
  else unknown

def Choice.ofShort (verb : Verb) (first : Char) (rest : List Char) : Choice :=
  if first = 'h' then help
  else if first = 'p' ∧ verb.takesPattern then pattern (attached? rest)
  else unknown

/-- The option that an argument behind a verb is; none if it is a value or the two dashes. -/
def Choice.of? (verb : Verb) (argument : String) : Option Choice :=
  match Shape.of argument with
  | .long name attached => some (ofLong verb name attached)
  | .short first rest => some (ofShort verb first rest)
  | .escape | .value => none

/-- Reads the arguments behind a verb. A pattern that is not attached is the next argument, unless
that looks like an option. -/
def readGiven (verb : Verb) : Given → List String → Except Stop Given
  | given, [] => .ok given
  | given, argument :: rest =>
      match Choice.of? verb argument with
      | some .help => .error (.help (.verb verb))
      | some .unknown => .error .misuse
      | some .json => do
          let given ← given.setJson
          readGiven verb given rest
      | some (.pattern (some pattern)) => do
          let given ← given.setPattern pattern
          readGiven verb given rest
      | some (.pattern none) =>
          match rest with
          | [] => .error .misuse
          | pattern :: rest =>
              if Shape.of pattern = .value then do
                let given ← given.setPattern pattern
                readGiven verb given rest
              else .error .misuse
      | none =>
          if Shape.of argument = .escape then rest.foldlM (Given.addValue verb) given
          else do
            let given ← given.addValue verb argument
            readGiven verb given rest

def topic : List String → Except Stop Topic
  | [] => .ok .program
  | [name] =>
      if name = "help" then .ok .help
      else
        match Verb.ofName? name with
        | some verb => .ok (.verb verb)
        | none => .error .misuse
  | _ => .error .misuse

def readAction : List String → Except Stop Action
  | [] => .error .misuse
  | first :: rest =>
      match Shape.of first with
      | .escape => .error .misuse
      | .long name attached =>
          if attached ≠ none then .error .misuse
          else if name = "help".toList then .error (.help .program)
          else if name = "version".toList then .error .version
          else .error .misuse
      | .short letter _ =>
          if letter = 'h' then .error (.help .program)
          else if letter = 'V' then .error .version
          else .error .misuse
      | .value =>
          match Verb.ofName? first with
          | some verb => do
              let given ← readGiven verb {} rest
              given.action verb
          | none => if first = "help" then (topic rest) >>= fun about => .error (.help about)
                    else .error .misuse

end WorkflowScope.CommandLine
