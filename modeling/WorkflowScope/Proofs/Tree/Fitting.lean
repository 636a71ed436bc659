import WorkflowScope.Proofs.Tree.EventChain

/-!
# Trees of chained events

The composer reads chained events into nodes that keep to their room. Apart from inferred
boundaries every node starts and ends in its room, so children follow each other and lie in their
parent.
-/

namespace WorkflowScope

open Composer (opensAt)

namespace Element

/-- Nesting at inferred boundaries is all that an element needs to be nested at every depth. -/
def Settled (text : List Char) (element : Element) : Prop :=
  (∀ inner, element.Holds inner → inner.InferredNested text) →
    ∀ inner, element.Holds inner → inner.Nested

end Element

/-- Elements one after the other between `lo` and `hi`, as far as their boundaries are not
inferred. -/
inductive Strand (text : List Char) : Nat → Nat → List Element → Prop where
  | nil {lo hi : Nat} (room : lo ≤ hi) : Strand text lo hi []
  | cons {lo mid hi : Nat} {element : Element} {rest : List Element}
      (settled : element.Settled text)
      (forward : element.span.start ≤ element.span.stop)
      (start : element.startInferred text = true ∨ lo ≤ element.span.start)
      (stop : element.endInferred text = true ∨ element.span.stop ≤ mid)
      (room : lo ≤ mid) (more : Strand text mid hi rest) :
      Strand text lo hi (element :: rest)

namespace Strand

variable {text : List Char} {lo hi : Nat} {elements : List Element}

theorem le (strand : Strand text lo hi elements) : lo ≤ hi := by
  induction strand with
  | nil room => exact room
  | cons _ _ _ _ room _ ih => exact Nat.le_trans room ih

theorem settled (strand : Strand text lo hi elements) : ∀ e ∈ elements, e.Settled text := by
  induction strand with
  | nil => simp
  | cons settled _ _ _ _ _ ih => simpa using ⟨settled, ih⟩

theorem forward (strand : Strand text lo hi elements) :
    ∀ e ∈ elements, e.span.start ≤ e.span.stop := by
  induction strand with
  | nil => simp
  | cons _ forward _ _ _ _ ih => simpa using ⟨forward, ih⟩

theorem head (strand : Strand text lo hi elements) {first : Element}
    (found : elements.head? = some first) :
    first.startInferred text = true ∨ lo ≤ first.span.start := by
  cases strand with
  | nil => simp at found
  | cons _ _ start _ _ _ =>
      cases found
      exact start

theorem last (strand : Strand text lo hi elements) {final : Element}
    (found : elements.getLast? = some final) :
    final.endInferred text = true ∨ final.span.stop ≤ hi := by
  induction strand with
  | nil => simp at found
  | @cons lo mid hi element rest _ _ _ stop _ more ih =>
      cases rest with
      | nil =>
          cases found
          exact stop.imp_right fun before => Nat.le_trans before more.le
      | cons second rest =>
          rw [List.getLast?_cons_cons] at found
          exact ih found

/-- Neighbours are apart, if they are so at their inferred boundaries. -/
theorem ordered (strand : Strand text lo hi elements)
    (inferred : elements.IsChain fun first second =>
      (first.endInferred text || second.startInferred text) = true →
        first.span.stop ≤ second.span.start) :
    elements.IsChain fun first second => first.span.stop ≤ second.span.start := by
  induction strand with
  | nil => exact .nil
  | @cons lo mid hi element rest _ _ _ stop _ more ih =>
      cases rest with
      | nil => exact .singleton _
      | cons second rest =>
          obtain ⟨here, later⟩ := List.isChain_cons_cons.1 inferred
          refine List.isChain_cons_cons.2 ⟨?_, ih later⟩
          rcases stop with ended | ended
          · exact here (by simp [ended])
          · rcases more.head rfl with started | started
            · exact here (by simp [started])
            · exact Nat.le_trans ended started

end Strand

/-- In a chain of forward elements the first starts first and the last ends last. -/
theorem Element.within_of_isChain {elements : List Element} {span : Span}
    (ordered : elements.IsChain fun first second => first.span.stop ≤ second.span.start)
    (forward : ∀ e ∈ elements, e.span.start ≤ e.span.stop)
    (opening : ∀ first ∈ elements.head?, span.start ≤ first.span.start)
    (closing : ∀ final ∈ elements.getLast?, final.span.stop ≤ span.stop) :
    ∀ e ∈ elements, e.span.Within span := by
  induction elements generalizing span with
  | nil => simp
  | cons first rest ih =>
      have start := opening first rfl
      have own := forward first (by simp)
      cases rest with
      | nil =>
          intro e member
          cases List.mem_singleton.1 member
          exact ⟨start, closing first rfl⟩
      | cons second rest =>
          obtain ⟨touch, ordered⟩ := List.isChain_cons_cons.1 ordered
          have later := @ih ⟨second.span.start, span.stop⟩ ordered
            (fun e member => forward e (List.mem_cons_of_mem _ member))
            (by rintro e ⟨⟩; exact Nat.le_refl _)
            (by simpa [List.getLast?_cons_cons] using closing)
          intro e member
          rcases List.mem_cons.1 member with rfl | member
          · have next := later second (by simp)
            have nextForward := forward second (by simp)
            exact ⟨start, by have := next.stop_le; simp only at this; omega⟩
          · have inner := later e member
            have := inner.start_le
            exact ⟨by simp only at this; omega, inner.stop_le⟩

/-! ## Nodes in their room -/

/-- A node that keeps to the room from `lo` to `hi`. -/
structure Fitted (text : List Char) (lo hi : Nat) (bound : Option Nat) (n : Node) : Prop where
  start : (Element.node n).startInferred text = true ∨ lo ≤ n.span.start
  start_le : opensAt text n.span.start '\x7b' = true ∨ n.span.start ≤ hi
  bounded : ∀ b ∈ bound, n.span.start ≤ b
  stop : n.endInferred text = true ∨ n.span.stop ≤ hi
  forward : n.span.start ≤ n.span.stop

/-- The children of a node stand one after the other behind `lo`, inside of the node unless it has
borrowed its bracket. -/
structure Filled (text : List Char) (lo : Nat) (n : Node) : Prop where
  strand : ∃ first last, lo ≤ first ∧ last ≤ text.length ∧ Strand text first last n.children
  opening : n.borrows text = true ∨
    ∀ c ∈ n.children.head?, c.startInferred text = true ∨ n.span.start ≤ c.span.start
  closing : n.borrows text = true ∨
    ∀ c ∈ n.children.getLast?, c.endInferred text = true ∨ c.span.stop ≤ n.span.stop

namespace Filled

variable {text : List Char} {lo : Nat} {n : Node}

theorem scalar (s : Scalar) (inside : lo ≤ text.length) : Filled text lo (.scalar s) where
  strand := ⟨lo, lo, Nat.le_refl _, inside, .nil (Nat.le_refl _)⟩
  opening := .inr (by simp [Node.children])
  closing := .inr (by simp [Node.children])

theorem ordered (filled : Filled text lo n)
    (inferred : n.children.IsChain fun first second =>
      (first.endInferred text || second.startInferred text) = true →
        first.span.stop ≤ second.span.start) :
    n.children.IsChain fun first second => first.span.stop ≤ second.span.start := by
  obtain ⟨_, _, _, _, strand⟩ := filled.strand
  exact strand.ordered inferred

theorem forward (filled : Filled text lo n) : ∀ c ∈ n.children, c.span.start ≤ c.span.stop := by
  obtain ⟨_, _, _, _, strand⟩ := filled.strand
  exact strand.forward

/-- What is nested in the children of an element is nested in it, once it is nested itself. -/
theorem holds_nested {element : Element} (filled : Filled text lo element.value)
    (own : element.Nested)
    (inferred : ∀ inner, element.Holds inner → inner.InferredNested text) :
    ∀ inner, element.Holds inner → inner.Nested := by
  obtain ⟨_, _, _, _, strand⟩ := filled.strand
  intro inner holds
  rcases Element.holds_iff.1 holds with rfl | ⟨child, member, below⟩
  · exact own
  · exact strand.settled child member (fun e held => inferred e (.child member held)) inner below

/-- An element is nested, if it is so at inferred boundaries and its span reaches from before its
first child to behind its last. -/
theorem nested {element : Element} (filled : Filled text lo element.value)
    (inferred : element.InferredNested text)
    (opening : element.unsure text = true ∨ ∀ c ∈ element.value.children.head?,
      c.startInferred text = true ∨ element.span.start ≤ c.span.start)
    (closing : element.unsure text = true ∨ ∀ c ∈ element.value.children.getLast?,
      c.endInferred text = true ∨ c.span.stop ≤ element.span.stop) : element.Nested := by
  have ordered := filled.ordered inferred.ordered
  refine ⟨Element.within_of_isChain ordered filled.forward ?_ ?_, ordered⟩
  · intro first found
    have member : first ∈ element.children := List.mem_of_head? found
    rcases opening with unsure | opening
    · exact (inferred.inside first member (by simp [unsure])).start_le
    · rcases opening first found with started | started
      · exact (inferred.inside first member (by simp [started])).start_le
      · exact started
  · intro last found
    have member : last ∈ element.children := List.mem_of_getLast? found
    rcases closing with unsure | closing
    · exact (inferred.inside last member (by simp [unsure])).stop_le
    · rcases closing last found with ended | ended
      · exact (inferred.inside last member (by simp [ended])).stop_le
      · exact ended

theorem settled_node (filled : Filled text lo n) : (Element.node n).Settled text := by
  intro inferred
  refine @holds_nested _ _ (.node n) filled ?_ inferred
  exact @nested _ _ (.node n) filled (inferred _ (.self _)) filled.opening filled.closing

/-- The value of a pair stands behind the key. -/
theorem settled_pair {key : Key} {value : Node} (filled : Filled text lo value)
    (start : opensAt text key.span.start '\x7b' = true ∨ key.span.start ≤ lo) :
    (Element.pair (Composer.entryOf key value)).Settled text := by
  intro inferred
  refine @holds_nested _ _ (.pair (Composer.entryOf key value)) filled ?_ inferred
  refine @nested _ _ (.pair (Composer.entryOf key value)) filled (inferred _ (.self _)) ?_ ?_
  · rcases start with brace | start
    · exact .inl (by simp [Element.unsure, Composer.entryOf, brace])
    · obtain ⟨first, _, behind, _, strand⟩ := filled.strand
      refine .inr fun c found => (strand.head found).imp_right fun later => ?_
      show key.span.start ≤ c.span.start
      omega
  · rcases filled.closing with borrowed | closing
    · exact .inl (by simp [Element.unsure, Composer.entryOf, borrowed])
    · refine .inr fun c found => (closing c found).imp_right fun before => ?_
      show c.span.stop ≤ max value.span.stop key.span.stop
      omega

end Filled

end WorkflowScope
