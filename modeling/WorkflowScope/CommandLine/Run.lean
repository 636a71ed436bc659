import WorkflowScope.CommandLine.Failure
import WorkflowScope.CommandLine.Json
import WorkflowScope.CommandLine.Usage
import WorkflowScope.Config.File
import WorkflowScope.Lint.Wellformed
import WorkflowScope.Query.Collect
import WorkflowScope.Query.Locate

/-!
# Running a command

An action works on settings and on a document that has been loaded or not. What it writes is told
together with the exit code. A bad pattern is reported before a document that cannot be loaded.
-/

namespace WorkflowScope.CommandLine

structure Response where
  exit : Nat := 0
  stdout : String := ""
  stderr : String := ""
  deriving DecidableEq, Repr, Inhabited

def renderPosition (position : Position) : String :=
  toString (position.line + 1) ++ ":" ++ toString (position.character + 1)

def renderRange (range : Range) : String :=
  renderPosition range.start ++ "-" ++ renderPosition range.stop

def lines (all : List String) : String :=
  String.join (all.map (· ++ "\n"))

/-- The first line of a text. The carriage return in front of its line feed is left out. -/
def firstLine (text : String) : String :=
  match Text.splitLines text.toList with
  | line :: _ :: _ =>
      String.ofList (if line.getLast? = some '\r' then line.dropLast else line)
  | _ => text

def snapshotOf (loaded : Except LoadError Document) : Except Failure Snapshot := do
  let document ← loaded.mapError .load
  document.snapshot.mapError (.parse document.path)

def patternOf (config : Config) : Option String → Except Failure KeyPath
  | some pattern => (KeyPath.parse pattern).mapError .pattern
  | none => config.keyPath.mapError .settings

/-- The key path at a position that is counted from one. The root has no keys and is a dollar
sign. -/
def locateLine (snapshot : Snapshot) (line column : Nat) : Except Failure String :=
  match snapshot.locate (snapshot.offsetAt ⟨line - 1, column - 1⟩) with
  | none => .error .outside
  | some located =>
      let path := if located.path.isEmpty then "$" else located.path.render
      .ok (path ++ "\t" ++ renderRange (snapshot.rangeOf located.element.span))

def collectLine (snapshot : Snapshot) (collected : Collected) : String :=
  let span := collected.pair.value.span
  collected.path.render ++ "\t" ++ renderRange (snapshot.rangeOf span) ++ "\t" ++
    firstLine (snapshot.slice span)

def commandEntries (snapshot : Snapshot) (pattern : KeyPath) : List CommandEntry :=
  (snapshot.collect pattern).flatMap fun collected =>
    (CommandRange.ofValue snapshot collected.pair.value).map fun command =>
      { path := collected.path, range := command.range, command := snapshot.slice command.span }

def commandLine (entry : CommandEntry) : String :=
  renderRange entry.range ++ "\t" ++ entry.command

def diagnosticLine (path : String) (diagnostic : Diagnostic) : String :=
  path ++ ":" ++ toString (diagnostic.range.start.line + 1) ++ ": error: " ++ diagnostic.message

def diagnosticsOf (config : Config) (document : Document) : List Diagnostic :=
  diagnose document.index config.diagnosticsSource (Lint.check document.text)

def Action.file : Action → String
  | locate file _ _ => file
  | collect file _ => file
  | ranges file _ _ => file
  | check file => file

def Action.perform (config : Config) (loaded : Except LoadError Document) :
    Action → Except Failure Response
  | locate _ line column => do
      let snapshot ← snapshotOf loaded
      let line ← locateLine snapshot line column
      .ok { stdout := lines [line] }
  | collect _ pattern => do
      let pattern ← patternOf config pattern
      let snapshot ← snapshotOf loaded
      .ok { stdout := lines ((snapshot.collect pattern).map (collectLine snapshot)) }
  | ranges _ pattern json => do
      let pattern ← patternOf config pattern
      let snapshot ← snapshotOf loaded
      let entries := commandEntries snapshot pattern
      if json then .ok { stdout := lines [(Json.array (entries.map Json.ofEntry)).render 0] }
      else .ok { stdout := lines (entries.map commandLine) }
  | check _ => do
      let document ← loaded.mapError .load
      let diagnostics := diagnosticsOf config document
      .ok
        { exit := if diagnostics.isEmpty then 0 else 1
          stdout := lines (diagnostics.map (diagnosticLine document.path)) }

def Action.respond (config : Config) (loaded : Except LoadError Document) (action : Action) :
    Response :=
  match action.perform config loaded with
  | .ok response => response
  | .error failure => { exit := 1, stderr := failure.message }

def Stop.respond : Stop → Response
  | version => { stdout := versionLine }
  | help topic => { stdout := helpText topic }
  | misuse => { exit := 2, stderr := helpText .program }

/-- What a command reaches for outside of the program. -/
structure Surroundings (m : Type → Type) where
  /-- The home directory. -/
  home : Option String
  /-- Reads a file. -/
  read : String → m Content
  /-- Reads the standard input. -/
  input : m Bytes

def loadConfig {m : Type → Type} [Monad m] (around : Surroundings m) : m Config :=
  match around.home with
  | some home => do
      let content ← around.read (Config.homePath home)
      pure (Config.ofFileOrDefault (Config.homePath home) content)
  | none => pure {}

def loadDocument {m : Type → Type} [Monad m] (around : Surroundings m) (path : String) :
    m (Except LoadError Document) :=
  if isInputPath path then Document.ofInput <$> around.input
  else Document.ofFile path <$> around.read path

def run {m : Type → Type} [Monad m] (around : Surroundings m) (arguments : List String) :
    m Response :=
  match readAction arguments with
  | .error stop => pure stop.respond
  | .ok action => do
      let config ← loadConfig around
      let loaded ← loadDocument around action.file
      pure (action.respond config loaded)

def Surroundings.ofTree (tree : FileTree) (home : Option String) (input : Bytes) :
    Surroundings Id :=
  { home, read := tree.read, input }

end WorkflowScope.CommandLine
