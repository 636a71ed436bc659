/-!
# Glob patterns

`?` stands for a character, `*` for a run of characters, `[…]` for one of a set, none of them for a
slash. `**` stands for any number of whole components.
-/

namespace WorkflowScope.Glob

inductive Member where
  | single (c : Char)
  | range (low high : Char)
  deriving DecidableEq, Repr, Inhabited

def Member.contains : Member → Char → Bool
  | single c, x => c == x
  | range low high, x => low ≤ x && x ≤ high

inductive Piece where
  | literal (c : Char)
  | anyChar
  | anyRun
  /-- Any number of whole components. -/
  | anyComponents
  | within (set : List Member)
  | without (set : List Member)
  deriving DecidableEq, Repr, Inhabited

inductive Fault where
  | wildcards
  | recursiveWildcards
  | range
  deriving DecidableEq, Repr, Inhabited

def Fault.message : Fault → String
  | wildcards => "wildcards are either regular `*` or recursive `**`"
  | recursiveWildcards => "recursive wildcards must form a single path component"
  | range => "invalid range pattern"

/-- Why a text is no pattern, and where. -/
structure Error where
  position : Nat
  fault : Fault
  deriving DecidableEq, Repr, Inhabited

def Error.info (error : Error) : String :=
  error.fault.message

def Error.message (error : Error) : String :=
  "Pattern syntax error near position " ++ toString error.position ++ ": " ++ error.info

/-- The members of a set. A dash between two characters makes a range. -/
def members : List Char → List Member
  | a :: '-' :: b :: rest => .range a b :: members rest
  | c :: rest => .single c :: members rest
  | [] => []

/-- The text of a set and what follows it, after `[`. The first character belongs to it, whatever it
is. -/
def splitSet : List Char → Option (List Char × List Char)
  | [] => none
  | first :: rest =>
      match rest.dropWhile (· != ']') with
      | _ :: after => some (first :: rest.takeWhile (· != ']'), after)
      | [] => none

/-- The set after `[`, and what follows it. -/
def readSet? : List Char → Option (Piece × List Char)
  | '!' :: rest => (splitSet rest).map fun (set, after) => (.without (members set), after)
  | text => (splitSet text).map fun (set, after) => (.within (members set), after)

/-- The piece of two stars between the character `before` and the text `rest`, which starts at
`position`, and what follows it. -/
def readComponents (before : Option Char) (position : Nat) (rest : List Char) :
    Except Error (Piece × List Char) :=
  if before.any (· != '/') then .error ⟨position - 3, .recursiveWildcards⟩
  else
    match rest with
    | [] => .ok (.anyComponents, [])
    | '/' :: after => .ok (.anyComponents, after)
    | _ => .error ⟨position, .recursiveWildcards⟩

/-- Reads a pattern of `total` characters, of which `text` is left and `before` came last. -/
def readPieces (total : Nat) : Nat → Option Char → List Char → Except Error (List Piece)
  | 0, _, _ => .ok []
  | _ + 1, _, [] => .ok []
  | fuel + 1, before, c :: rest =>
      match c with
      | '?' => do
          let more ← readPieces total fuel (some c) rest
          .ok (.anyChar :: more)
      | '*' =>
          match rest with
          | '*' :: '*' :: after => .error ⟨total - (after.length + 1), .wildcards⟩
          | '*' :: after => do
              let (piece, left) ← readComponents before (total - after.length) after
              let last := if left.length < after.length then '/' else '*'
              let more ← readPieces total fuel (some last) left
              .ok (piece :: more)
          | _ => do
              let more ← readPieces total fuel (some c) rest
              .ok (.anyRun :: more)
      | '[' =>
          match readSet? rest with
          | some (piece, after) => do
              let more ← readPieces total fuel (some ']') after
              .ok (piece :: more)
          | none => .error ⟨total - (rest.length + 1), .range⟩
      | _ => do
          let more ← readPieces total fuel (some c) rest
          .ok (.literal c :: more)

structure Pattern where
  pieces : List Piece
  deriving DecidableEq, Repr, Inhabited

/-- Reads a pattern. Every piece takes a character, so the length of the text bounds their
number. -/
def Pattern.parse (text : String) : Except Error Pattern := do
  let pieces ← readPieces text.length (text.length + 1) none text.toList
  .ok ⟨pieces⟩

/-! ## Fitting -/

/-- The piece stands for a single character, which may be this one. -/
def Piece.takes : Piece → Char → Bool
  | literal c, x => c == x
  | anyChar, x => x != '/'
  | within set, x => x != '/' && set.any (·.contains x)
  | without set, x => x != '/' && !set.any (·.contains x)
  | anyRun, _ => false
  | anyComponents, _ => false

def afterSlashes : List Char → List (List Char)
  | [] => []
  | c :: rest => if c = '/' then rest :: afterSlashes rest else afterSlashes rest

/-- The ends of a text that a run without slashes leads to. -/
def runEnds : List Char → List (List Char)
  | [] => [[]]
  | c :: rest => (c :: rest) :: if c = '/' then [] else runEnds rest

def fits : List Piece → List Char → Bool
  | [], text => text.isEmpty
  | .anyRun :: pieces, text => (runEnds text).any (fits pieces)
  | .anyComponents :: pieces, text =>
      pieces.isEmpty || (text :: afterSlashes text).any (fits pieces)
  | piece :: pieces, text =>
      match text with
      | x :: rest => piece.takes x && fits pieces rest
      | [] => false

/-! ## Fitting all ends of a text at once

`fits` tries every end of a run, and so do the runs after it. `table` asks each question once: it
tells of all ends of a text whether the pieces fit them, and follows from the table of the pieces
after the first. -/

/-- All ends of a text, itself in front and the empty one last. -/
def ends : List Char → List (List Char)
  | [] => [[]]
  | c :: rest => (c :: rest) :: ends rest

/-- The table for a piece that takes a character, before pieces with the table `after`. -/
def takeBefore (piece : Piece) : List Char → List Bool → List Bool
  | c :: text, _ :: after => (piece.takes c && after.headD false) :: takeBefore piece text after
  | _, _ => [false]

/-- The table for a run, before pieces with the table `after`. -/
def runBefore : List Char → List Bool → List Bool
  | c :: text, here :: after =>
      let later := runBefore text after
      (here || (c != '/' && later.headD false)) :: later
  | _, after => after

/-- Tells of all ends of a text whether pieces with the table `after` fit what follows one of their
slashes. -/
def slashBefore : List Char → List Bool → List Bool
  | c :: text, _ :: after =>
      let later := slashBefore text after
      ((c == '/' && after.headD false) || later.headD false) :: later
  | _, _ => [false]

/-- Tells of all ends of a text whether pieces fit them. -/
def table : List Piece → List Char → List Bool
  | [], text => (ends text).map List.isEmpty
  | .anyRun :: pieces, text => runBefore text (table pieces text)
  | .anyComponents :: pieces, text =>
      let after := table pieces text
      if pieces.isEmpty then after.map fun _ => true
      else List.zipWith (· || ·) after (slashBefore text after)
  | piece :: pieces, text => takeBefore piece text (table pieces text)

@[simp] theorem head?_ends (text : List Char) : (ends text).head? = some text := by
  cases text <;> rfl

theorem takeBefore_map (piece : Piece) (p : List Char → Bool) (text : List Char) :
    takeBefore piece text ((ends text).map p) =
      (ends text).map fun
        | x :: rest => piece.takes x && p rest
        | [] => false := by
  induction text with
  | nil => rfl
  | cons c rest ih => simp [ends, takeBefore, ih]

theorem runBefore_map (p : List Char → Bool) (text : List Char) :
    runBefore text ((ends text).map p) = (ends text).map fun text => (runEnds text).any p := by
  induction text with
  | nil => simp [ends, runBefore, runEnds]
  | cons c rest ih =>
      by_cases slash : c = '/'
      · simp [ends, runBefore, runEnds, ih, slash]
      · simp [ends, runBefore, runEnds, ih, slash, bne, beq_false_of_ne slash]

theorem slashBefore_map (p : List Char → Bool) (text : List Char) :
    slashBefore text ((ends text).map p) =
      (ends text).map fun text => (afterSlashes text).any p := by
  induction text with
  | nil => rfl
  | cons c rest ih =>
      by_cases slash : c = '/' <;> simp [ends, slashBefore, afterSlashes, ih, slash]

/-- The table says what `fits` says. -/
theorem table_eq (pieces : List Piece) (text : List Char) :
    table pieces text = (ends text).map (fits pieces) := by
  induction pieces with
  | nil => exact List.map_congr_left fun _ _ => by simp [fits]
  | cons piece pieces ih =>
      cases piece with
      | anyRun => simpa [table, ih, fits] using runBefore_map _ text
      | anyComponents =>
          by_cases last : pieces.isEmpty = true
          · simp [table, ih, last, fits]
          · simp [table, ih, last, fits, slashBefore_map, List.zipWith_map, List.zipWith_self]
      | literal | anyChar | within | without => simpa [table, ih, fits] using takeBefore_map _ _ text

def Pattern.fits (pattern : Pattern) (path : List Char) : Bool :=
  (table pattern.pieces path).headD false

theorem Pattern.fits_eq (pattern : Pattern) (path : List Char) :
    pattern.fits path = Glob.fits pattern.pieces path := by
  simp [Pattern.fits, table_eq]

end WorkflowScope.Glob
