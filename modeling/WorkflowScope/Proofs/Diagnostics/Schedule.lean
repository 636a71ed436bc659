import WorkflowScope.Editor.Session

/-!
# Schedules of linter runs

Changes start runs, runs get their answers later, and documents are closed in between. A desk is the
store together with every run that was ever started; a schedule is a list of moves, in any order that
lets each run wait for its repository first and for its findings then.
-/

namespace WorkflowScope

/-- How far a run has come. -/
inductive RunStage where
  | asksRepository
  | asksFindings (repository : Repository)
  /-- It has ended, with the number of diagnostics that it stored. -/
  | finished (stored : Option Nat)
  deriving DecidableEq, Repr, Inhabited

def RunStage.progress (run : LintRun) : RunStage → Progress
  | asksRepository => .asks (.changeRepository run)
  | asksFindings repository => .asks (.findings run repository)
  | finished stored => .done (.changed stored)

/-- The store and all runs, the first that was started in front. -/
structure Desk where
  store : DiagnosticsStore
  runs : List (LintRun × RunStage) := []
  deriving DecidableEq, Repr, Inhabited

/-- What happens at a desk. Runs are known by their place among all runs. -/
inductive Move where
  | change (path text : String)
  | repository (id : Nat) (answer : Option Repository)
  /-- The linter has answered; `none` if it failed. -/
  | findings (id : Nat) (answer : Option (List Finding))
  | close (path : String)
  deriving DecidableEq, Repr, Inhabited

namespace Move

def isChange : Move → Bool
  | change _ _ => true
  | _ => false

def starts (path : String) : Move → Bool
  | change other _ => Path.same other path
  | _ => false

def closes (path : String) : Move → Bool
  | close other => Path.same other path
  | _ => false

end Move

namespace Desk

def initial (source : String) : Desk :=
  { store := { source } }

def stageAfter : Option Repository → RunStage
  | some repository => .asksFindings repository
  | none => .finished none

def finish (desk : Desk) (id : Nat) (run : LintRun) : Option (List Finding) → Desk
  | some found =>
      let (store, stored) := desk.store.finish run found
      { store, runs := desk.runs.set id (run, .finished stored) }
  | none => { desk with runs := desk.runs.set id (run, .finished none) }

/-- Makes a move. A run that does not wait for an answer cannot get it. -/
def step? (desk : Desk) : Move → Option Desk
  | .change path text =>
      let (store, run) := desk.store.start path text
      some { store, runs := desk.runs ++ [(run, .asksRepository)] }
  | .repository id answer =>
      match desk.runs[id]? with
      | some (run, .asksRepository) =>
          some { desk with runs := desk.runs.set id (run, stageAfter answer) }
      | _ => none
  | .findings id answer =>
      match desk.runs[id]? with
      | some (run, .asksFindings _) => some (desk.finish id run answer)
      | _ => none
  | .close path => some { desk with store := desk.store.close path }

def run? (desk : Desk) : List Move → Option Desk
  | [] => some desk
  | move :: rest => (desk.step? move).bind (run? · rest)

/-- A run has ended and its diagnostics were stored. -/
def HasStored (desk : Desk) (id : Nat) : Prop :=
  ∃ run count, desk.runs[id]? = some (run, .finished (some count))

theorem run?_append (desk : Desk) (first rest : List Move) :
    desk.run? (first ++ rest) = (desk.run? first).bind (run? · rest) := by
  induction first generalizing desk with
  | nil => rfl
  | cons move first ih =>
      simp only [List.cons_append, run?, Option.bind_assoc]
      exact Option.bind_congr fun after _ => ih after

/-- A schedule that ends in a move goes through the desk before that move. -/
theorem run?_concat {desk after : Desk} {moves : List Move} {move : Move}
    (reached : desk.run? (moves ++ [move]) = some after) :
    ∃ before, desk.run? moves = some before ∧ before.step? move = some after := by
  rw [run?_append] at reached
  obtain ⟨before, first, last⟩ := Option.bind_eq_some_iff.1 reached
  refine ⟨before, first, ?_⟩
  simpa [run?] using last

/-- All that a move can do. -/
theorem step?_cases {desk after : Desk} {move : Move} (stepped : desk.step? move = some after) :
    (∃ path text, move = .change path text ∧
      after = ⟨(desk.store.start path text).1,
        desk.runs ++ [((desk.store.start path text).2, .asksRepository)]⟩) ∨
    (∃ id run answer, move = .repository id answer ∧
      desk.runs[id]? = some (run, .asksRepository) ∧
      after = { desk with runs := desk.runs.set id (run, stageAfter answer) }) ∨
    (∃ id run repository answer, move = .findings id answer ∧
      desk.runs[id]? = some (run, .asksFindings repository) ∧
      after = desk.finish id run answer) ∨
    (∃ path, move = .close path ∧ after = { desk with store := desk.store.close path }) := by
  cases move with
  | change path text => exact .inl ⟨path, text, rfl, (Option.some.inj stepped).symm⟩
  | repository id answer =>
      simp only [step?] at stepped
      split at stepped
      · next run waits => exact .inr (.inl ⟨id, run, answer, rfl, waits, (Option.some.inj stepped).symm⟩)
      · cases stepped
  | findings id answer =>
      simp only [step?] at stepped
      split at stepped
      · next run repository waits =>
          exact .inr (.inr (.inl
            ⟨id, run, repository, answer, rfl, waits, (Option.some.inj stepped).symm⟩))
      · cases stepped
  | close path => exact .inr (.inr (.inr ⟨path, rfl, (Option.some.inj stepped).symm⟩))

/-! ## Sessions make these moves -/

/-- The run of a selected document starts in a session as it does at the desk. -/
theorem step?_change_of_begin {desk : Desk} {session : Session} {document : Document}
    (agree : desk.store = session.store)
    (selected : session.selector.selects document.path = true) :
    ∃ run, (session.begin (.change document)).2 = .asks (.changeRepository run) ∧
      desk.step? (.change document.path document.text) =
        some ⟨(session.begin (.change document)).1.store, desk.runs ++ [(run, .asksRepository)]⟩ := by
  refine ⟨(desk.store.start document.path document.text).2, ?_, ?_⟩
  · simp [Session.begin, selected, agree]
  · simp [Session.begin, selected, step?, agree]

/-- A session goes on after the answer about a repository as the desk does. -/
theorem step?_repository_of_proceed {desk : Desk} {session : Session} {id : Nat} {run : LintRun}
    (agree : desk.store = session.store) (waits : desk.runs[id]? = some (run, .asksRepository))
    (answer : Option Repository) :
    (session.proceed (.changeRepository run) answer).2 = (stageAfter answer).progress run ∧
      desk.step? (.repository id answer) =
        some ⟨(session.proceed (.changeRepository run) answer).1.store,
          desk.runs.set id (run, stageAfter answer)⟩ := by
  cases answer <;>
    simp [Session.proceed, step?, waits, agree, stageAfter, RunStage.progress]

/-- A session goes on after the answer of the linter as the desk does. -/
theorem step?_findings_of_proceed {desk : Desk} {session : Session} {id : Nat} {run : LintRun}
    {repository : Repository} (agree : desk.store = session.store)
    (waits : desk.runs[id]? = some (run, .asksFindings repository))
    (answer : Option (List Finding)) :
    ∃ stored, (session.proceed (.findings run repository) answer).2 = .done (.changed stored) ∧
      desk.step? (.findings id answer) =
        some ⟨(session.proceed (.findings run repository) answer).1.store,
          desk.runs.set id (run, .finished stored)⟩ := by
  cases answer with
  | none => exact ⟨none, rfl, by simp [Session.proceed, step?, waits, agree, finish]⟩
  | some found =>
      refine ⟨(desk.store.finish run found).2, ?_, ?_⟩
      · simp [Session.proceed, agree]
      · simp [Session.proceed, step?, waits, agree, finish]

/-- Closing a document in a session is closing it at the desk. -/
theorem step?_close_of_begin {desk : Desk} {session : Session} (agree : desk.store = session.store)
    (path : String) :
    desk.step? (.close path) = some { desk with store := (session.begin (.close path)).1.store } := by
  simp [Session.begin, step?, agree]

end Desk

end WorkflowScope
