import WorkflowScope.Command.Provider

/-!
# Registration with the command runner

The runner is an optional part of the editor. When a workflow file gets the focus and the runner is
installed, it is activated and handed the command queries, once and for all. A focus change waits
twice for the editor, so others may happen in between: the bridge counts as registered as soon as
activation is asked for.
-/

namespace WorkflowScope

/-- Whether activation has been asked for. It never goes back. -/
inductive Registration where
  | unregistered
  | registered
  deriving DecidableEq, Repr, Inhabited

structure Bridge where
  state : Registration := .unregistered
  /-- The language for which the queries are registered. -/
  languageId : String
  provider : CommandProvider
  deriving DecidableEq, Repr, Inhabited

namespace Bridge

/-- How a focus change goes on. -/
inductive Focus where
  /-- It is over. -/
  | done (state : Registration)
  /-- It waits for whether the runner is installed. -/
  | asksInstalled
  /-- It waits for activation. -/
  | activates
  deriving DecidableEq, Repr, Inhabited

def focus (bridge : Bridge) (path : Option String) : Focus :=
  match bridge.state, path with
  | .registered, _ => .done .registered
  | .unregistered, none => .done .unregistered
  | .unregistered, some path =>
      if bridge.provider.selector.selects path then .asksInstalled else .done .unregistered

/-- The editor has answered whether the runner is installed. -/
def answerInstalled (bridge : Bridge) (installed : Bool) : Bridge × Focus :=
  match installed, bridge.state with
  | false, state => (bridge, .done state)
  | true, .registered => (bridge, .done .registered)
  | true, .unregistered => ({ bridge with state := .registered }, .activates)

def registration? (bridge : Bridge) (activated : Bool) : Option (String × CommandProvider) :=
  if activated then some (bridge.languageId, bridge.provider) else none

end Bridge

end WorkflowScope
