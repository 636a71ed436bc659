import WorkflowScope.Command.Range
import WorkflowScope.Editor.Document
import WorkflowScope.Path.Selector
import WorkflowScope.Query.Collect
import WorkflowScope.Query.Locate

/-!
# Command queries

What a command runner asks about a document: the command at a position, and all commands. Documents
that are no workflow files or cannot be read have none.
-/

namespace WorkflowScope

/-- Which documents have commands, and under which keys. -/
structure CommandProvider where
  enablePath : KeyPath
  selector : Selector
  deriving DecidableEq, Repr, Inhabited

namespace CommandProvider

def snapshot? (provider : CommandProvider) (document : Document) : Option Snapshot :=
  if provider.selector.selects document.path then document.snapshot.toOption else none

/-- The entry of the enable path whose value a caret touches. -/
def entryAt? (provider : CommandProvider) (snapshot : Snapshot) (offset : Nat) : Option Entry := do
  let located ← snapshot.locate offset
  if !provider.enablePath.accepts located.path then none
  else
    let pair ← located.element.pair?
    if pair.value.span.contains offset then some pair else none

def commandIn? (provider : CommandProvider) (snapshot : Snapshot) (position : Position) :
    Option Range := do
  let pair ← provider.entryAt? snapshot (snapshot.offsetAt position)
  let command ← (CommandRange.ofValue snapshot pair.value).find? (·.contains position)
  some command.range

def commandAt? (provider : CommandProvider) (document : Document) (position : Position) :
    Option Range := do
  let snapshot ← provider.snapshot? document
  provider.commandIn? snapshot position

def commandsIn (provider : CommandProvider) (snapshot : Snapshot) : List Range :=
  (snapshot.root.collectValues provider.enablePath).flatMap fun value =>
    (CommandRange.ofValue snapshot value).map (·.range)

def commands (provider : CommandProvider) (document : Document) : List Range :=
  match provider.snapshot? document with
  | some snapshot => provider.commandsIn snapshot
  | none => []

end CommandProvider

end WorkflowScope
