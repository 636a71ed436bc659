import WorkflowScope.File.Fault
import WorkflowScope.Path.Basic

/-!
# Directories and files

A tree of directories and files without links. A path leads from the root or the working directory,
name by name; what stands before a slash has to be a directory.
-/

namespace WorkflowScope

inductive FileEntry where
  | directory
  | file (bytes : Bytes)
  deriving DecidableEq, Repr, Inhabited

/-- Entries by the names that lead to them from the root. The root itself is always there. -/
structure FileTree where
  entries : List (List String × FileEntry) := []
  /-- The place of the directory at which relative paths start. -/
  working : List String := []
  deriving DecidableEq, Repr, Inhabited

namespace FileTree

def entry? (tree : FileTree) (place : List String) : Option FileEntry :=
  if place.isEmpty then some .directory else tree.entries.lookup place

def put (tree : FileTree) (place : List String) (entry : FileEntry) : FileTree :=
  { tree with entries := (place, entry) :: tree.entries.filter (·.1 != place) }

/-- The largest number of bytes of a name. -/
def maxNameSize : Nat := 255

/-- The largest number of bytes of a path. -/
def maxPathSize : Nat := 4095

/-- The place that a piece of a path leads to from a place, which has to be a directory. The
directory above the root is the root. -/
def step (tree : FileTree) (place : List String) (piece : List Char) :
    Except FileFault (List String) :=
  match tree.entry? place with
  | none => .error .missing
  | some (.file _) => .error .notDirectory
  | some .directory =>
      match Path.Component.ofPiece? piece with
      | some (.name text) =>
          if maxNameSize < (String.ofList text).utf8ByteSize then .error .nameTooLong
          else .ok (place ++ [String.ofList text])
      | some .parent => .ok place.dropLast
      | _ => .ok place

def startOf (tree : FileTree) (path : String) : List String :=
  if Path.isAbsolute path then [] else tree.working

/-- The place that a path leads to. There may be nothing at it, but there is a directory above. -/
def resolve (tree : FileTree) (path : String) : Except FileFault (List String) :=
  if path.toList.contains '\x00' then .error .nameWithNul
  else if path.isEmpty then .error .missing
  else if maxPathSize < path.utf8ByteSize then .error .nameTooLong
  else (Path.splitSlashes path.toList).foldlM tree.step (tree.startOf path)

def read (tree : FileTree) (path : String) : Content := do
  let place ← tree.resolve path
  match tree.entry? place with
  | none => .error .missing
  | some .directory => .error .isDirectory
  | some (.file bytes) => .ok bytes

def write (tree : FileTree) (path : String) (bytes : Bytes) : Except FileFault FileTree := do
  let place ← tree.resolve path
  match tree.entry? place with
  | some .directory => .error .isDirectory
  | _ => .ok (tree.put place (.file bytes))

def isDirectory (tree : FileTree) (path : String) : Bool :=
  match tree.resolve path with
  | .ok place => tree.entry? place == some .directory
  | .error _ => false

/-- Follows a piece of a path and makes a directory where nothing is. -/
def makeStep (reached : FileTree × List String) (piece : List Char) :
    Except FileFault (FileTree × List String) := do
  let (tree, place) := reached
  let next ← tree.step place piece
  match tree.entry? next with
  | none => .ok (tree.put next .directory, next)
  | some _ => .ok (tree, next)

def makeDirectories (tree : FileTree) (path : String) : Except FileFault FileTree := do
  let start := tree.startOf path
  let (tree, place) ← (Path.splitSlashes path.toList).foldlM makeStep (tree, start)
  match tree.entry? place with
  | some (.file _) => .error .occupied
  | _ => .ok tree

def writeBelow (tree : FileTree) (path : String) (bytes : Bytes) : Except FileFault FileTree := do
  let tree ← match Path.parent? path with
    | some parent => tree.makeDirectories parent
    | none => .ok tree
  tree.write path bytes

end FileTree

end WorkflowScope
