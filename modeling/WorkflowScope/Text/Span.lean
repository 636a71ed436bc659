/-!
# Character spans

A span is a stretch of a text, counted in characters. It is half open when it cuts text, and closed
when it is asked whether a caret touches it.
-/

namespace WorkflowScope

/-- A stretch of text from the character offset `start` up to the character offset `stop`. -/
structure Span where
  start : Nat
  stop : Nat
  deriving DecidableEq, Repr, Inhabited

namespace Span

def contains (span : Span) (offset : Nat) : Bool :=
  span.start ≤ offset && offset ≤ span.stop

@[simp] theorem contains_eq_true {span : Span} {offset : Nat} :
    span.contains offset = true ↔ span.start ≤ offset ∧ offset ≤ span.stop := by
  simp [contains]

def length (span : Span) : Nat :=
  span.stop - span.start

def isEmpty (span : Span) : Bool :=
  span.length == 0

/-- The characters of `text` under the span. Ends past the text, or before the start, are moved. -/
def slice (span : Span) (text : List Char) : List Char :=
  (text.drop span.start).take span.length

/-- A cut keeps only characters of the span. -/
theorem length_slice_le (span : Span) (text : List Char) :
    (span.slice text).length ≤ span.length := by
  simpa only [slice] using List.length_take_le span.length (text.drop span.start)

end Span

end WorkflowScope
