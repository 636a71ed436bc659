import WorkflowScope.Path.Basic

/-!
# Repositories

The repository of a file is the closest directory above it that holds `.git` or `.github`.
-/

namespace WorkflowScope

structure Repository where
  root : String
  name : String
  deriving DecidableEq, Repr, Inhabited

namespace Repository

def ofRoot (root : String) : Repository :=
  { root, name := (Path.fileName? root).getD "" }

/-- The directories that show that a directory is the root of a repository. -/
def signs : List String :=
  [".git", ".github"]

/-- The repository of a file, where `isDirectory` tells which paths are directories. -/
def discover (isDirectory : String → Bool) (path : String) : Option Repository :=
  ((Path.above path).find? fun directory =>
    signs.any fun sign => isDirectory (Path.join directory sign)).map ofRoot

end Repository

end WorkflowScope
