import WorkflowScope.Command.Bridge
import WorkflowScope.Config
import WorkflowScope.Diagnostics.Store
import WorkflowScope.Path.Repository

/-!
# Editing sessions

A session answers the events of an editor: edits, closing, focus, hover and completion. Repositories
are looked up, texts are linted and the command runner is reached outside of it, and each such
question is answered later. An event is therefore handled in stages: `Session.begin` runs it up to
its first question, and `Session.proceed` takes an answer and runs it up to the next. Between two
stages of one event those of others may run.
-/

namespace WorkflowScope

structure Suggestion where
  label : String
  /-- A description in Markdown. -/
  description : Option String
  deriving DecidableEq, Repr, Inhabited

/-- A question of an event to the outside, with what the event needs to go on. -/
inductive Question where
  /-- The repository of a changed document. -/
  | changeRepository (run : LintRun)
  /-- The findings in a changed document. -/
  | findings (run : LintRun) (repository : Repository)
  /-- The repository of a document that is pointed at. -/
  | hoverRepository (document : Document) (offset : Nat)
  /-- A description of what stands at an offset. -/
  | description (document : Document) (offset : Nat) (repository : Repository)
  /-- The repository of a document that is written in. -/
  | completionRepository (document : Document) (offset : Nat)
  /-- What may be written at an offset. -/
  | suggestions (document : Document) (offset : Nat) (repository : Repository)
  /-- Whether the command runner is installed. -/
  | installed
  /-- Whether the command runner could be activated. -/
  | activated
  deriving DecidableEq, Repr, Inhabited

/-- The answer to a question. A linter that fails answers `none`. -/
def Question.Answer : Question → Type
  | changeRepository _ => Option Repository
  | findings _ _ => Option (List Finding)
  | hoverRepository _ _ => Option Repository
  | description _ _ _ => Option (Option String)
  | completionRepository _ _ => Option Repository
  | suggestions _ _ _ => Option (List Suggestion)
  | installed => Bool
  | activated => Bool

/-- What an editor tells or asks. -/
inductive Request where
  /-- A document was opened or edited. -/
  | change (document : Document)
  | close (path : String)
  /-- A document, or none, has the focus. -/
  | focus (document : Option Document)
  | hover (document : Document) (position : Position)
  | completion (document : Document) (position : Position)
  | diagnostics (path : String)
  deriving DecidableEq, Repr, Inhabited

inductive Reply where
  /-- The number of stored diagnostics; `none` if nothing was stored. -/
  | changed (stored : Option Nat)
  | closed
  | focused (state : Registration)
  /-- A description in Markdown. -/
  | hovered (description : Option String)
  | completed (suggestions : List Suggestion)
  | diagnosed (diagnostics : List Diagnostic)
  deriving DecidableEq, Repr, Inhabited

inductive Progress where
  | done (reply : Reply)
  | asks (question : Question)
  deriving DecidableEq, Repr, Inhabited

structure Session where
  selector : Selector
  store : DiagnosticsStore
  bridge : Bridge
  deriving DecidableEq, Repr, Inhabited

namespace Session

/-- A session with the given settings. A bad glob is reported before a bad key path. -/
def ofConfig (config : Config) : Except ConfigError Session := do
  let selector ← config.selector
  let provider ← config.commandProvider
  .ok
    { selector
      store := { source := config.diagnosticsSource }
      bridge := { languageId := config.languageId, provider } }

def ofFocus : Bridge.Focus → Progress
  | .done state => .done (.focused state)
  | .asksInstalled => .asks .installed
  | .activates => .asks .activated

/-- Runs an event up to its first question. Documents that are no workflow files have nothing to
show. -/
def begin (session : Session) : Request → Session × Progress
  | .change document =>
      if session.selector.selects document.path then
        let (store, run) := session.store.start document.path document.text
        ({ session with store }, .asks (.changeRepository run))
      else (session, .done (.changed none))
  | .close path => ({ session with store := session.store.close path }, .done .closed)
  | .focus document => (session, ofFocus (session.bridge.focus (document.map (·.path))))
  | .hover document position =>
      if session.selector.selects document.path then
        (session, .asks (.hoverRepository document (document.offsetAt position)))
      else (session, .done (.hovered none))
  | .completion document position =>
      if session.selector.selects document.path then
        (session, .asks (.completionRepository document (document.offsetAt position)))
      else (session, .done (.completed []))
  | .diagnostics path => (session, .done (.diagnosed (session.store.lookup path)))

/-- Takes the answer to a question and runs its event up to the next. -/
def proceed (session : Session) : (question : Question) → question.Answer → Session × Progress
  | .changeRepository run, answer =>
      match (answer : Option Repository) with
      | some repository => (session, .asks (.findings run repository))
      | none => (session, .done (.changed none))
  | .findings run _, answer =>
      match (answer : Option (List Finding)) with
      | some findings =>
          let (store, stored) := session.store.finish run findings
          ({ session with store }, .done (.changed stored))
      | none => (session, .done (.changed none))
  | .hoverRepository document offset, answer =>
      match (answer : Option Repository) with
      | some repository => (session, .asks (.description document offset repository))
      | none => (session, .done (.hovered none))
  | .description _ _ _, answer =>
      (session, .done (.hovered ((answer : Option (Option String)).getD none)))
  | .completionRepository document offset, answer =>
      match (answer : Option Repository) with
      | some repository => (session, .asks (.suggestions document offset repository))
      | none => (session, .done (.completed []))
  | .suggestions _ _ _, answer =>
      (session, .done (.completed ((answer : Option (List Suggestion)).getD [])))
  | .installed, answer =>
      let (bridge, focus) := session.bridge.answerInstalled answer
      ({ session with bridge }, ofFocus focus)
  | .activated, _ => (session, .done (.focused .registered))

/-- What an answer makes the session register with the command runner. -/
def registration? (session : Session) :
    (question : Question) → question.Answer → Option (String × CommandProvider)
  | .activated, answer => session.bridge.registration? answer
  | _, _ => none

end Session

end WorkflowScope
