import WorkflowScope.Yaml.Token

/-!
# Events of YAML streams

A stream as a flat list of events: a collection is a start, its children and an end, and the
children of a mapping are keys and values in turn.
-/

namespace WorkflowScope.Yaml

inductive Event where
  | streamStart
  | streamEnd
  | documentStart
  | documentEnd
  /-- An alias: it stands for the node that has an anchor. -/
  | reference
  | scalar (style : Style) (value : List Char)
  | sequenceStart
  | sequenceEnd
  | mappingStart
  | mappingEnd
  deriving DecidableEq, Repr, Inhabited

def Event.empty : Event :=
  .scalar .plain []

structure MarkedEvent where
  mark : Mark
  event : Event
  deriving DecidableEq, Repr, Inhabited

end WorkflowScope.Yaml
