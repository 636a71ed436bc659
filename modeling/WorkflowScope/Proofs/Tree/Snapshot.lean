import WorkflowScope.Proofs.Tree.Compose
import WorkflowScope.Proofs.Yaml.Events
import WorkflowScope.Proofs.Yaml.Tokens

/-!
# Trees of texts

The tree of a text is well nested unless it fails to be at a boundary that is inferred: its tokens
stand one behind the other, so do its events, and a node that is composed of events ends before the
next one wherever the text shows its end.
-/

namespace WorkflowScope.Snapshot

/-- A tree is made of the events of its text. -/
theorem exists_events_of_tree {text : List Char} {root : Node} (read : tree text = .ok root) :
    ∃ events, Yaml.events text = .ok events ∧
      root = Composer.root text (events.map (place (Yaml.lineStarts text) text.length)) := by
  obtain ⟨placed, given, same⟩ := bind_eq_ok.1 read
  cases same
  delta placedEvents at given
  cases found : Yaml.events text with
  | error fault =>
      rw [found] at given
      cases given
  | ok events =>
      rw [found] at given
      cases given
      exact ⟨events, rfl, rfl⟩

/-- In the tree of a text every element covers its children and these follow one another, exactly
if that is so for the children whose boundaries are inferred. -/
theorem wellNested_tree_iff {text : List Char} {root : Node} (read : tree text = .ok root) :
    root.WellNested ↔ root.InferredNested text := by
  constructor
  · intro nested element holds
    exact (nested element holds).inferred text
  · intro inferred
    obtain ⟨events, found, rfl⟩ := exists_events_of_tree read
    exact Composer.wellNested_root
      (Yaml.Grammar.chained_events (Yaml.ahead_tokenize text) found) inferred

/-- A block scalar before a mapping: its end is looked for up to the colon of the mapping. -/
def overlapping : List Char :=
  "- |\n  foo\n- b: c\n".toList

theorem wellNested_tree_iff_overlapping :
    ∃ root, tree overlapping = .ok root ∧ ¬ root.InferredNested overlapping ∧ ¬ root.WellNested := by
  have checked : (tree overlapping).toOption.any
      (fun root => decide (¬ root.InferredNested overlapping)) = true := by
    decide +kernel
  cases read : tree overlapping with
  | error fault =>
      rw [read] at checked
      cases checked
  | ok root =>
      rw [read] at checked
      have failing : ¬ root.InferredNested overlapping := of_decide_eq_true checked
      exact ⟨root, rfl, failing, fun nested => failing ((wellNested_tree_iff read).1 nested)⟩

end WorkflowScope.Snapshot
