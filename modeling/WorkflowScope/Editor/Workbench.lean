import WorkflowScope.Editor.Session
import WorkflowScope.Lint.Wellformed

/-!
# The workbench around a session

A workbench runs several requests at once, one stage after the other: in every round each request
that is not finished has one turn, in which it runs until it has to wait. It answers the questions
of the session by collaborators that may take some turns, and notes every call to them.
-/

namespace WorkflowScope

/-- The linter and the repositories outside of a session, and for how many turns they let a request
wait. -/
structure Collaborators where
  repository : String → Option Repository
  repositoryTurns : Nat := 0
  lint : Repository → String → String → Option (List Finding)
  lintTurns : String → Nat := fun _ => 0
  describe : Repository → String → Nat → Option (Option String)
  suggest : Repository → String → Nat → Option (List Suggestion)

structure RunnerHost where
  installed : Bool := true
  /-- Activation fails. -/
  failing : Bool := false
  installedTurns : Nat := 0
  activationTurns : Nat := 0
  deriving DecidableEq, Repr, Inhabited

/-- A call to a collaborator, or a note that one has gone on. -/
inductive Call where
  | repository (path : String)
  | lint (repository path : String)
  /-- The linter has come to a text of so many characters. -/
  | linted (length : Nat)
  | describe (offset : Nat)
  | suggest (offset : Nat)
  | installed
  | activate
  | register (languageId : String)
  deriving DecidableEq, Repr, Inhabited

inductive Job where
  | session (request : Request)
  /-- Changes the runner host. -/
  | host (host : RunnerHost)
  /-- The command at a position, asked of the queries that were registered. -/
  | commandAt (document : Document) (position : Position)
  /-- All commands, asked of the queries that were registered. -/
  | commands (document : Document)
  deriving DecidableEq, Repr, Inhabited

inductive Outcome where
  | session (reply : Reply)
  | hostChanged
  | unregistered
  | command (range : Option Range)
  | commands (ranges : List Range)
  deriving DecidableEq, Repr, Inhabited

inductive Stage where
  | fresh (job : Job)
  /-- A question has been passed on. -/
  | awaiting (question : Question)
  | finished (outcome : Outcome)
  deriving DecidableEq, Repr, Inhabited

structure Task where
  /-- Number of turns that it lets pass. -/
  turns : Nat
  stage : Stage
  deriving DecidableEq, Repr, Inhabited

structure Workbench where
  collaborators : Collaborators
  session : Session
  host : RunnerHost := {}
  /-- The queries that the runner was handed last. -/
  handed : Option CommandProvider := none
  /-- The calls so far. -/
  calls : List Call := []

namespace Workbench

def note (bench : Workbench) (call : Call) : Workbench :=
  { bench with calls := bench.calls ++ [call] }

/-- The call that passes a question on, and the number of turns to wait for its answer. -/
def callFor (bench : Workbench) : Question → Call × Nat
  | .changeRepository run => (.repository run.path, bench.collaborators.repositoryTurns)
  | .findings run repository =>
      (.lint repository.name run.path, bench.collaborators.lintTurns run.text)
  | .hoverRepository document _ => (.repository document.path, bench.collaborators.repositoryTurns)
  | .description _ offset _ => (.describe offset, 0)
  | .completionRepository document _ =>
      (.repository document.path, bench.collaborators.repositoryTurns)
  | .suggestions _ offset _ => (.suggest offset, 0)
  | .installed => (.installed, bench.host.installedTurns)
  | .activated => (.activate, bench.host.activationTurns)

def answer (bench : Workbench) : (question : Question) → question.Answer
  | .changeRepository run => bench.collaborators.repository run.path
  | .findings run repository => bench.collaborators.lint repository run.path run.text
  | .hoverRepository document _ => bench.collaborators.repository document.path
  | .description document offset repository =>
      bench.collaborators.describe repository document.text offset
  | .completionRepository document _ => bench.collaborators.repository document.path
  | .suggestions document offset repository =>
      bench.collaborators.suggest repository document.text offset
  | .installed => bench.host.installed
  | .activated => !bench.host.failing

/-- The stage after some progress of the session. A question is passed on at once. -/
def follow (bench : Workbench) : Progress → Workbench × Task
  | .done reply => (bench, ⟨0, .finished (.session reply)⟩)
  | .asks question =>
      let (call, turns) := bench.callFor question
      (bench.note call, ⟨turns, .awaiting question⟩)

def beginJob (bench : Workbench) : Job → Workbench × Task
  | .session request =>
      let (session, progress) := bench.session.begin request
      { bench with session }.follow progress
  | .host host => ({ bench with host }, ⟨0, .finished .hostChanged⟩)
  | .commandAt document position =>
      (bench, ⟨0, .finished (match bench.handed with
        | some provider => .command (provider.commandAt? document position)
        | none => .unregistered)⟩)
  | .commands document =>
      (bench, ⟨0, .finished (match bench.handed with
        | some provider => .commands (provider.commands document)
        | none => .unregistered)⟩)

def noteLinted (bench : Workbench) : Question → Workbench
  | .findings run _ => bench.note (.linted run.text.length)
  | _ => bench

def hand (bench : Workbench) : Option (String × CommandProvider) → Workbench
  | some (languageId, provider) =>
      { bench.note (.register languageId) with handed := some provider }
  | none => bench

def answerQuestion (bench : Workbench) (question : Question) : Workbench × Task :=
  let bench := bench.noteLinted question
  let given := bench.answer question
  let bench := bench.hand (bench.session.registration? question given)
  let (session, progress) := bench.session.proceed question given
  { bench with session }.follow progress

/-- Number of stages that a job has at most. -/
def maxStages : Nat := 4

/-- A turn of a job: it runs until it has to wait or is finished. -/
def turn : Nat → Workbench → Task → Workbench × Task
  | 0, bench, task => (bench, task)
  | fuel + 1, bench, task =>
      match task.turns, task.stage with
      | turns + 1, stage => (bench, ⟨turns, stage⟩)
      | 0, .fresh job =>
          let (bench, task) := bench.beginJob job
          turn fuel bench task
      | 0, .awaiting question =>
          let (bench, task) := bench.answerQuestion question
          turn fuel bench task
      | 0, .finished outcome => (bench, ⟨0, .finished outcome⟩)

/-- A round: every job has a turn. -/
def round : List Task → Workbench → Workbench × List Task
  | [], bench => (bench, [])
  | task :: rest, bench =>
      let (bench, task) := turn maxStages bench task
      let (bench, rest) := round rest bench
      (bench, task :: rest)

def outcome? (task : Task) : Option Outcome :=
  match task.turns, task.stage with
  | 0, .finished outcome => some outcome
  | _, _ => none

def rounds : Nat → List Task → Workbench → Workbench × List Outcome
  | 0, tasks, bench => (bench, tasks.filterMap outcome?)
  | fuel + 1, tasks, bench =>
      match tasks.mapM outcome? with
      | some outcomes => (bench, outcomes)
      | none =>
          let (bench, tasks) := bench.round tasks
          rounds fuel tasks bench

/-- Number of turns that a job may let pass because of its text or the host it sets up. -/
def turnsOf (bench : Workbench) : Job → Nat
  | .session (.change document) => bench.collaborators.lintTurns document.text
  | .host host => host.installedTurns + host.activationTurns
  | _ => 0

/-- Number of turns that jobs may let pass by themselves. -/
def totalTurns (bench : Workbench) : List (Nat × Job) → Nat
  | [] => 0
  | (turns, job) :: rest => turns + bench.turnsOf job + bench.totalTurns rest

/-- A number of rounds after which all jobs are finished: no job waits for longer than all of them
together can wait. -/
def maxRounds (bench : Workbench) (jobs : List (Nat × Job)) : Nat :=
  bench.totalTurns jobs + bench.collaborators.repositoryTurns + bench.host.installedTurns +
    bench.host.activationTurns + maxStages + 1

/-- Runs jobs at once, each after letting some turns pass. Gives their outcomes in order. -/
def run (bench : Workbench) (jobs : List (Nat × Job)) : Workbench × List Outcome :=
  rounds (bench.maxRounds jobs) (jobs.map fun (turns, job) => ⟨turns, .fresh job⟩) bench

end Workbench

end WorkflowScope
