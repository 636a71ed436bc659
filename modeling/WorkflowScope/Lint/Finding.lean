import WorkflowScope.Text.LineIndex

/-!
# Findings and diagnostics

A linter reports findings at character offsets; an editor shows diagnostics at positions.
-/

namespace WorkflowScope

structure Finding where
  message : String
  /-- One end of the text it is about. -/
  first : Nat
  /-- The other end. -/
  last : Nat
  deriving DecidableEq, Repr, Inhabited

/-- A finding as an editor shows it. All of them are errors. -/
structure Diagnostic where
  range : Range
  source : String
  message : String
  deriving DecidableEq, Repr, Inhabited

/-- The span between the ends of a finding, whichever comes first. -/
def Finding.span (finding : Finding) : Span :=
  ⟨min finding.first finding.last, max finding.first finding.last⟩

def Finding.diagnose (index : LineIndex) (source : String) (finding : Finding) : Diagnostic :=
  { range := index.rangeOf finding.span, source, message := finding.message }

def diagnose (index : LineIndex) (source : String) (findings : List Finding) : List Diagnostic :=
  findings.map (·.diagnose index source)

end WorkflowScope
