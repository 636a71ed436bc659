/-!
# File paths

Paths are texts whose components stand between slashes. Two spellings name the same path if their
components agree: repeated slashes, a slash at the end and `.` components do not count, apart from a
`.` in front.
-/

namespace WorkflowScope.Path

inductive Component where
  /-- The slash in front. -/
  | root
  /-- A `.` in front. -/
  | current
  | parent
  | name (text : List Char)
  deriving DecidableEq, Repr, Inhabited

def splitSlashes : List Char → List (List Char)
  | [] => [[]]
  | c :: rest =>
      if c = '/' then [] :: splitSlashes rest
      else
        match splitSlashes rest with
        | piece :: more => (c :: piece) :: more
        | [] => [[c]]

/-- The component of a piece that is not in front. -/
def Component.ofPiece? (piece : List Char) : Option Component :=
  if piece = [] ∨ piece = ['.'] then none
  else if piece = ['.', '.'] then some .parent
  else some (.name piece)

/-- The component that the front of a path makes. -/
def front : List Char → List Component
  | '/' :: _ => [.root]
  | ['.'] => [.current]
  | '.' :: '/' :: _ => [.current]
  | _ => []

def components (path : String) : List Component :=
  front path.toList ++ (splitSlashes path.toList).filterMap Component.ofPiece?

def same (a b : String) : Bool :=
  components a == components b

theorem same_iff {a b : String} : same a b = true ↔ components a = components b := by
  simp [same]

theorem same_refl (a : String) : same a a = true :=
  same_iff.2 rfl

/-- The name of the file or directory, unless the path ends in the root, `.` or `..`. -/
def fileName? (path : String) : Option String :=
  match (components path).getLast? with
  | some (.name text) => some (String.ofList text)
  | _ => none

/-- Drops what adds no component at the end of a spelling: slashes and `.` components, but neither
the root nor a `.` in front. The text is reversed. -/
def trimEnd : List Char → List Char
  | ['/'] => ['/']
  | '/' :: rest => trimEnd rest
  | ['.', '/'] => ['/']
  | '.' :: '/' :: rest => trimEnd rest
  | other => other

def parent? (path : String) : Option String :=
  let text := trimEnd path.toList.reverse
  if text = [] ∨ text = ['/'] then none
  else some (String.ofList (trimEnd (text.dropWhile (· != '/'))).reverse)

def ancestors : Nat → String → List String
  | 0, path => [path]
  | fuel + 1, path =>
      match parent? path with
      | some parent => path :: ancestors fuel parent
      | none => [path]

/-- The directories above a path, innermost first. -/
def above (path : String) : List String :=
  (ancestors path.length path).tail

def isAbsolute (path : String) : Bool :=
  path.toList.head? == some '/'

/-- The path that a path means in a directory. One that starts at the root stays as it is. -/
def join (directory entry : String) : String :=
  if isAbsolute entry then entry
  else if directory = "" || directory.toList.getLast? = some '/' then directory ++ entry
  else directory ++ "/" ++ entry

end WorkflowScope.Path
