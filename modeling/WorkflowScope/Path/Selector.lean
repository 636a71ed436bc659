import WorkflowScope.Path.Glob

/-!
# Workflow files

A selector decides by the path of a file whether it holds a workflow.
-/

namespace WorkflowScope

/-- Patterns, one of which has to fit. -/
structure Selector where
  patterns : List Glob.Pattern
  deriving DecidableEq, Repr, Inhabited

namespace Selector

def defaultGlobs : List String :=
  ["**/.github/workflows/**/*.yml", "**/.github/workflows/**/*.yaml"]

/-- Compiles globs; the first that is no pattern is refused. -/
def ofGlobs (globs : List String) : Except Glob.Error Selector := do
  let patterns ← globs.mapM Glob.Pattern.parse
  .ok ⟨patterns⟩

def standard : Selector :=
  ⟨defaultGlobs.filterMap fun glob => (Glob.Pattern.parse glob).toOption⟩

def normalize (path : String) : List Char :=
  path.toList.map fun c => if c = '\\' then '/' else c

def selects (selector : Selector) (path : String) : Bool :=
  selector.patterns.any (·.fits (normalize path))

end Selector

end WorkflowScope
