import WorkflowScope.Yaml.Mark

/-!
# Tokens of YAML streams

A YAML text is first cut into tokens. Besides what stands in the text there are tokens for block
collections, which only indentation shows.
-/

namespace WorkflowScope.Yaml

inductive Style where
  | plain
  | singleQuoted
  | doubleQuoted
  /-- After `|`. -/
  | literal
  /-- After `>`. -/
  | folded
  deriving DecidableEq, Repr, Inhabited

inductive Token where
  | streamStart
  | streamEnd
  | versionDirective
  | tagDirective (handle : List Char)
  | documentStart
  | documentEnd
  | blockSequenceStart
  | blockMappingStart
  | blockEnd
  | flowSequenceStart
  | flowSequenceEnd
  | flowMappingStart
  | flowMappingEnd
  | blockEntry
  | flowEntry
  | key
  | value
  /-- An alias of the node with an anchor. -/
  | reference (name : List Char)
  | anchor (name : List Char)
  | tag (handle : List Char)
  | scalar (style : Style) (value : List Char)
  deriving DecidableEq, Repr, Inhabited

structure MarkedToken where
  mark : Mark
  token : Token
  deriving DecidableEq, Repr, Inhabited

end WorkflowScope.Yaml
