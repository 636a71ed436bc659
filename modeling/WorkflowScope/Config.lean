import WorkflowScope.Command.Provider
import WorkflowScope.File.Fault
import WorkflowScope.KeyPath.Parse
import WorkflowScope.Toml.Document
import WorkflowScope.Toml.Write

/-!
# Settings

Every setting has a default, so a settings file names only those it changes. Keys that mean nothing
here are passed over.
-/

namespace WorkflowScope

structure Config where
  /-- The key path of values that hold commands. -/
  enablePath : String := "jobs.*.steps.run"
  /-- Globs that select workflow files. -/
  workflowGlobs : List String := Selector.defaultGlobs
  /-- The language for which command queries are registered. -/
  languageId : String := "github-actions-workflow"
  /-- The name under which diagnostics are shown. -/
  diagnosticsSource : String := "workflowlens"
  deriving DecidableEq, Repr, Inhabited

inductive ConfigError where
  /-- The settings file cannot be read or written. -/
  | io (path : String) (fault : FileFault)
  /-- The text is no TOML, or a setting is of the wrong kind. -/
  | format
  | enablePath (error : KeyPath.Error)
  | glob (error : Glob.Error)
  deriving DecidableEq, Repr, Inhabited

namespace ConfigError

def message : ConfigError → String
  | io path fault => "failed to access config file " ++ path ++ ": " ++ fault.message
  | format => "invalid config file"
  | enablePath error => "invalid enable_path: " ++ error.message
  | glob error => "invalid workflow glob: " ++ error.message

end ConfigError

namespace Config

/-- The text of a setting; `fallback` if it is not set, nothing if it is no string. -/
def textOf (entries : Toml.Entries) (key fallback : String) : Option String :=
  match entries.get? key with
  | none => some fallback
  | some (.value value) => value.text?
  | some _ => none

/-- The texts of a setting; `fallback` if it is not set, nothing if it is no array of strings. -/
def textsOf (entries : Toml.Entries) (key : String) (fallback : List String) :
    Option (List String) :=
  match entries.get? key with
  | none => some fallback
  | some (.value value) => value.texts?
  | some _ => none

def ofEntries? (entries : Toml.Entries) : Option Config := do
  let standard : Config := {}
  let enablePath ← textOf entries "enable_path" standard.enablePath
  let workflowGlobs ← textsOf entries "workflow_globs" standard.workflowGlobs
  let languageId ← textOf entries "language_id" standard.languageId
  let diagnosticsSource ← textOf entries "diagnostics_source" standard.diagnosticsSource
  some { enablePath, workflowGlobs, languageId, diagnosticsSource }

def parse (text : String) : Except ConfigError Config :=
  match Toml.parse text >>= ofEntries? with
  | some config => .ok config
  | none => .error .format

def render (config : Config) : String :=
  Toml.writeLine "enable_path" (Toml.writeString config.enablePath) ++
    Toml.writeLine "workflow_globs" (Toml.writeStrings config.workflowGlobs) ++
    Toml.writeLine "language_id" (Toml.writeString config.languageId) ++
    Toml.writeLine "diagnostics_source" (Toml.writeString config.diagnosticsSource)

def keyPath (config : Config) : Except ConfigError KeyPath :=
  (KeyPath.parse config.enablePath).mapError .enablePath

def selector (config : Config) : Except ConfigError Selector :=
  (Selector.ofGlobs config.workflowGlobs).mapError .glob

/-- The command queries. A bad key path is reported before a bad glob. -/
def commandProvider (config : Config) : Except ConfigError CommandProvider := do
  let enablePath ← config.keyPath
  let selector ← config.selector
  .ok { enablePath, selector }

end Config

end WorkflowScope
