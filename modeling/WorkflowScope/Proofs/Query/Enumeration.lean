import Mathlib.Data.List.Basic
import WorkflowScope.Proofs.Query.Entries

/-!
# Collecting is enumerating and filtering

The plain way to collect: list every element of the tree in the order of the text, each with the
elements around it, keep the entries, and of these the ones whose path the pattern fits.
-/

namespace WorkflowScope

theorem Element.sizeOf_lt_of_mem_children {element child : Element}
    (member : child ∈ element.children) : sizeOf child < sizeOf element := by
  have inNode : ∀ node : Node, child ∈ node.children → sizeOf child < 1 + sizeOf node := by
    intro node member
    cases node with
    | mapping span pairs =>
        obtain ⟨pair, inPairs, rfl⟩ := List.mem_map.1 member
        have smaller := List.sizeOf_lt_of_mem inPairs
        simp only [Element.pair.sizeOf_spec, Node.mapping.sizeOf_spec]
        omega
    | sequence span items =>
        obtain ⟨item, inItems, rfl⟩ := List.mem_map.1 member
        have smaller := List.sizeOf_lt_of_mem inItems
        simp only [Element.node.sizeOf_spec, Node.sequence.sizeOf_spec]
        omega
    | scalar s => cases member
  have below := inNode element.value member
  cases element with
  | node n => simpa [Element.value] using below
  | pair p =>
      obtain ⟨span, key, value⟩ := p
      simp only [Element.value, Element.pair.sizeOf_spec, Pair.mk.sizeOf_spec] at below ⊢
      omega

/-- Every element from an element on, in the order of the text and each before what stands in it.
An element is given by the way down to it: all elements around it, outermost first, and itself. -/
def Element.trails (element : Element) : List (List Element) :=
  [element] :: element.children.attach.flatMap fun child => child.1.trails.map (element :: ·)
termination_by sizeOf element
decreasing_by exact Element.sizeOf_lt_of_mem_children child.2

theorem Element.trails_eq (element : Element) :
    element.trails =
      [element] :: element.children.flatMap fun child => child.trails.map (element :: ·) := by
  rw [Element.trails]
  simp

/-- An entry at the end of a way, with the keys along it. -/
def Collected.ofTrail? (trail : List Element) : Option Collected :=
  (trail.getLast?.bind Element.pair?).map fun pair => ⟨trail.filterMap Element.key?, pair⟩

/-- The entries of a tree, each under the keys of all entries around it and its own. -/
def Node.listing (root : Node) : List Collected :=
  (Element.node root).trails.filterMap Collected.ofTrail?

theorem Element.ne_nil_of_mem_trails {element : Element} {trail : List Element}
    (member : trail ∈ element.trails) : trail ≠ [] := by
  rw [Element.trails_eq] at member
  rcases List.mem_cons.1 member with rfl | member
  · exact List.cons_ne_nil _ _
  · obtain ⟨child, -, member⟩ := List.mem_flatMap.1 member
    obtain ⟨below, -, rfl⟩ := List.mem_map.1 member
    exact List.cons_ne_nil _ _

namespace Collected

/-- A node has no key, so a way through it leads to the same entry under the same keys. -/
theorem ofTrail?_node_cons (n : Node) (trail : List Element) :
    ofTrail? (.node n :: trail) = ofTrail? trail := by
  cases trail with
  | nil => rfl
  | cons first rest =>
      rw [ofTrail?, ofTrail?, List.getLast?_cons_cons]
      rfl

/-- A way through an entry leads below its key. -/
theorem ofTrail?_pair_cons (pair : Entry) {trail : List Element} (longer : trail ≠ []) :
    ofTrail? (.pair pair :: trail) = (ofTrail? trail).map (·.below pair.key.value) := by
  cases trail with
  | nil => exact absurd rfl longer
  | cons first rest =>
      simp [ofTrail?, List.getLast?_cons_cons, Element.key?, below, Function.comp_def]

end Collected

def Element.entries : Element → List Collected
  | .node n => n.entries
  | .pair p => ⟨[p.key.value], p⟩ :: p.value.entries.map (·.below p.key.value)

theorem Node.entries_eq_flatMap (node : Node) :
    node.entries = node.children.flatMap Element.entries := by
  cases node with
  | mapping span pairs =>
      rw [Node.entries, Node.children]
      induction pairs with
      | nil => rfl
      | cons pair rest ih => simp [entriesOfPairs, ih, Element.entries]
  | sequence span items =>
      rw [Node.entries, Node.children]
      induction items with
      | nil => rfl
      | cons item rest ih => simp [entriesOfItems, ih, Element.entries]
  | scalar s => rfl

theorem Element.filterMap_trails (element : Element) :
    element.trails.filterMap Collected.ofTrail? = element.entries := by
  induction element using Element.trails.induct with
  | case1 element inner =>
      rw [Element.trails_eq, List.filterMap_cons, List.filterMap_flatMap]
      cases element with
      | node n =>
          have same : ∀ child ∈ n.children,
              (child.trails.map (Element.node n :: ·)).filterMap Collected.ofTrail? =
                child.entries := by
            intro child member
            rw [← inner ⟨child, member⟩, List.filterMap_map]
            exact List.filterMap_congr fun trail _ => Collected.ofTrail?_node_cons n trail
          rw [Element.entries, Node.entries_eq_flatMap]
          exact List.flatMap_congr same
      | pair p =>
          have below : ∀ child ∈ p.value.children,
              (child.trails.map (Element.pair p :: ·)).filterMap Collected.ofTrail? =
                child.entries.map (·.below p.key.value) := by
            intro child member
            rw [← inner ⟨child, member⟩, List.filterMap_map, List.map_filterMap]
            apply List.filterMap_congr
            intro trail inChild
            exact Collected.ofTrail?_pair_cons p (Element.ne_nil_of_mem_trails inChild)
          rw [Element.entries, Node.entries_eq_flatMap, List.map_flatMap]
          exact congrArg (⟨[p.key.value], p⟩ :: ·) (List.flatMap_congr below)

theorem Node.entries_eq_listing (root : Node) : root.entries = root.listing :=
  (Element.filterMap_trails (.node root)).symm

/-- Collecting gives the entries of the tree whose path the pattern fits, in the order of the text,
each as often as it stands there; their values are what is collected as values, and the pattern
without a segment fits none. -/
theorem Node.collect_eq_filter_listing (root : Node) (pattern : KeyPath) :
    root.collect pattern = root.listing.filter (pattern.accepts ·.path) ∧
      root.collectValues pattern =
        (root.listing.filter (pattern.accepts ·.path)).map (·.pair.value) ∧
      root.collect ⟨[]⟩ = [] := by
  have collected : ∀ pattern : KeyPath,
      root.collect pattern = root.listing.filter (pattern.accepts ·.path) := by
    intro pattern
    rw [← Node.entries_eq_listing, Node.collect, Node.collectSegments_eq_filter]
    simp only [Collected.path, KeyPath.accepts_ofKeys]
  refine ⟨collected pattern, ?_, ?_⟩
  · rw [Node.collectValues, collected]
  · rw [Node.collect, Node.collectSegments_eq_filter, Node.filter_entries_nil]

end WorkflowScope
