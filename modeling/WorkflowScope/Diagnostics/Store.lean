import WorkflowScope.Lint.Finding
import WorkflowScope.Path.Table

/-!
# Diagnostics of open documents

Every change of a document starts a run of the linter, which answers later. Each run takes a number,
and its result is stored only if no other run of the document has started since, and the document
has not been closed.
-/

namespace WorkflowScope

abbrev DiagnosticsTable := PathTable (List Diagnostic)

structure DiagnosticsStore where
  /-- The name under which diagnostics are shown. -/
  source : String
  diagnostics : DiagnosticsTable := {}
  /-- The number of the latest run of each document. -/
  latest : PathTable Nat := {}
  deriving DecidableEq, Repr, Inhabited

structure LintRun where
  path : String
  text : String
  number : Nat
  deriving DecidableEq, Repr, Inhabited

namespace DiagnosticsStore

/-- Starts a run; what was stored for the document is dropped. -/
def start (store : DiagnosticsStore) (path text : String) : DiagnosticsStore × LintRun :=
  let number := (store.latest.get? path).getD 0 + 1
  ({ store with
     diagnostics := store.diagnostics.erase path
     latest := store.latest.insert path number },
   { path, text, number })

/-- No other run of the document has started since, and it has not been closed. -/
def isLatest (store : DiagnosticsStore) (run : LintRun) : Bool :=
  store.latest.get? run.path == some run.number

def diagnosticsOf (store : DiagnosticsStore) (run : LintRun) (findings : List Finding) :
    List Diagnostic :=
  diagnose (LineIndex.ofText run.text.toList) store.source findings

/-- The linter has answered. Gives the number of stored diagnostics, unless nothing is stored. -/
def finish (store : DiagnosticsStore) (run : LintRun) (findings : List Finding) :
    DiagnosticsStore × Option Nat :=
  if store.isLatest run then
    let found := store.diagnosticsOf run findings
    ({ store with diagnostics := store.diagnostics.insert run.path found }, some found.length)
  else (store, none)

def close (store : DiagnosticsStore) (path : String) : DiagnosticsStore :=
  { store with diagnostics := store.diagnostics.erase path, latest := store.latest.erase path }

def lookup (store : DiagnosticsStore) (path : String) : List Diagnostic :=
  (store.diagnostics.get? path).getD []

end DiagnosticsStore

end WorkflowScope
