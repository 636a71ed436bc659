import WorkflowScope.Config
import WorkflowScope.File.Load

/-!
# Failures of a command

A failure is told with what lies behind it, the closest cause first.
-/

namespace WorkflowScope.CommandLine

inductive Failure where
  /-- The pattern among the arguments is no key path. -/
  | pattern (error : KeyPath.Error)
  /-- The settings do not name a key path. -/
  | settings (error : ConfigError)
  | load (error : LoadError)
  /-- The text of a document is no YAML. -/
  | parse (path : String) (error : DocumentError)
  /-- There is nothing at the position. -/
  | outside
  deriving DecidableEq, Repr, Inhabited

/-- What lies behind a fault of the settings. -/
def settingsCauses (error : ConfigError) : List String :=
  match error with
  | .enablePath inner => [error.message, inner.message]
  | .glob inner => [error.message, inner.message]
  | .io _ fault => [error.message, fault.message]
  | .format => [error.message]

namespace Failure

def summary : Failure → String
  | pattern _ => "Invalid key-path pattern"
  | settings _ => "Invalid enable_path in config"
  | load error => error.message
  | parse path _ => "Failed to parse " ++ path
  | outside => "Position is outside the document"

def causes : Failure → List String
  | pattern error => [error.message]
  | settings error => settingsCauses error
  | load error => [error.cause]
  | parse _ error => [error.message]
  | outside => []

/-- A cause with a label in front; its further lines are indented as far. -/
def labelled (label : List Char) (cause : String) : String :=
  let indent := List.replicate label.length ' '
  String.ofList (label ++ cause.toList.flatMap fun c => if c = '\n' then c :: indent else [c])

def numbered (number : Nat) : List String → List String
  | [] => []
  | cause :: rest =>
      let digits := (toString number).toList
      let label := List.replicate (5 - digits.length) ' ' ++ digits ++ [':', ' ']
      labelled label cause :: numbered (number + 1) rest

/-- The causes line by line. A single one has no number. -/
def causeLines : List String → List String
  | [] => []
  | [cause] => [labelled [' ', ' ', ' ', ' '] cause]
  | causes => numbered 0 causes

def message (failure : Failure) : String :=
  let behind := causeLines failure.causes
  "Error: " ++ failure.summary ++
    (if behind.isEmpty then "" else "\n\nCaused by:\n" ++ "\n".intercalate behind) ++ "\n"

end Failure

end WorkflowScope.CommandLine
