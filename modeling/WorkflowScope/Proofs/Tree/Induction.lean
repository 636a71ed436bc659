import WorkflowScope.Tree.Node

/-!
# Induction over trees

A node is built from the values of its pairs or from its items. Recursion over a tree goes through
the lists of its children; a proof that follows it takes a child by its membership instead.
-/

namespace WorkflowScope.Node

/-- What holds of a collection whenever it holds of all that is directly inside holds of every
node. -/
theorem inductionOn {motive : Node → Prop} (node : Node)
    (mapping : ∀ span pairs, (∀ pair ∈ pairs, motive pair.value) → motive (.mapping span pairs))
    (sequence : ∀ span items, (∀ item ∈ items, motive item) → motive (.sequence span items))
    (scalar : ∀ s, motive (.scalar s)) : motive node := by
  refine @Node.rec motive (fun pairs => ∀ pair ∈ pairs, motive pair.value)
    (fun items => ∀ item ∈ items, motive item) (fun pair => motive pair.value)
    mapping sequence scalar ?_ ?_ ?_ ?_ ?_ node
  · simp
  · simp +contextual
  · simp
  · simp +contextual
  · exact fun _ _ _ held => held

end WorkflowScope.Node
