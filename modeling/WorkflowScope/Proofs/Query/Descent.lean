import WorkflowScope.Proofs.Query.Entries
import WorkflowScope.Proofs.Tree.Nesting

/-!
# Going down to an entry

The descent takes the first child that a caret touches. Where children do not overlap, a caret
strictly behind the start of an entry is not taken by anything that stands before the entry, so the
descent comes to the entry, whatever its depth.
-/

namespace WorkflowScope

def Found.under (keys : List String) (found : Found) : Found :=
  { found with keys := keys ++ found.keys }

/-- What the descent finds from an entry on: something inside of its value, or the entry itself. -/
def Found.inEntry (offset : Nat) (pair : Entry) : Found :=
  (pair.value.descendInside offset).getD ⟨.pair pair, []⟩

/-- An entry of a node stands in one of its children. -/
theorem Node.holds_of_mem_entries (node : Node) {keys : List String} {pair : Entry}
    (member : ⟨keys, pair⟩ ∈ node.entries) :
    ∃ child ∈ node.children, child.Holds (.pair pair) := by
  induction node using Node.inductionOn generalizing keys with
  | mapping span pairs inner =>
      rw [Node.entries] at member
      simp only [Node.children, List.mem_map, exists_exists_and_eq_and]
      induction pairs with
      | nil => simp [entriesOfPairs] at member
      | cons first rest ih =>
          simp only [entriesOfPairs, List.cons_append, List.mem_cons, List.mem_append,
            List.mem_map] at member
          rcases member with here | ⟨below, deeper, same⟩ | later
          · obtain ⟨-, rfl⟩ := Collected.mk.inj here
            exact ⟨_, List.mem_cons_self, .self _⟩
          · obtain ⟨-, rfl⟩ := Collected.mk.inj same
            obtain ⟨child, inValue, holds⟩ := inner first List.mem_cons_self deeper
            exact ⟨first, List.mem_cons_self, .child inValue holds⟩
          · obtain ⟨other, inRest, holds⟩ :=
              ih (fun pair inRest => inner pair (List.mem_cons_of_mem _ inRest)) later
            exact ⟨other, List.mem_cons_of_mem _ inRest, holds⟩
  | sequence span items inner =>
      rw [Node.entries] at member
      simp only [Node.children, List.mem_map, exists_exists_and_eq_and]
      induction items with
      | nil => simp [entriesOfItems] at member
      | cons item rest ih =>
          simp only [entriesOfItems, List.mem_append] at member
          rcases member with here | later
          · obtain ⟨child, inItem, holds⟩ := inner item List.mem_cons_self here
            exact ⟨item, List.mem_cons_self, .child inItem holds⟩
          · obtain ⟨other, inRest, holds⟩ :=
              ih (fun item inRest => inner item (List.mem_cons_of_mem _ inRest)) later
            exact ⟨other, List.mem_cons_of_mem _ inRest, holds⟩
  | scalar s => simp [Node.entries] at member

/-- All that stands in an element is nested and not reversed. -/
def Element.Sound (element : Element) : Prop :=
  ∀ inner, element.Holds inner → inner.Nested ∧ inner.span.start ≤ inner.span.stop

namespace Element.Sound

variable {element inner : Element}

theorem nested (sound : element.Sound) : element.Nested :=
  (sound element (.self _)).1

theorem forward (sound : element.Sound) : element.span.start ≤ element.span.stop :=
  (sound element (.self _)).2

theorem child (sound : element.Sound) {child : Element} (member : child ∈ element.children) :
    child.Sound :=
  fun inner holds => sound inner (.child member holds)

theorem within (sound : element.Sound) (holds : element.Holds inner) :
    inner.span.Within element.span :=
  holds.within fun inner holds => (sound inner holds).1

end Element.Sound

/-- A caret behind the start of something that a later child holds does not touch the first. -/
theorem not_contains_of_later {first : Element} {rest : List Element} {inner : Element}
    (ordered : (first :: rest).IsChain fun a b => a.span.stop ≤ b.span.start)
    (sound : ∀ child ∈ rest, child.Sound) (later : ∃ child ∈ rest, child.Holds inner)
    {offset : Nat} (behind : inner.span.start < offset) : first.span.contains offset = false := by
  obtain ⟨child, member, holds⟩ := later
  have touch := Element.stop_le_start_of_isChain ordered
    (fun element inRest => (sound element inRest).forward) child member
  have start := ((sound child member).within holds).start_le
  rw [Bool.eq_false_iff, Ne, Span.contains_eq_true]
  omega

/-- The descent into a node whose children are nested comes to every entry that a caret touches
behind its start. -/
theorem Node.descendInside_of_mem_entries (node : Node)
    (ordered : node.children.IsChain fun a b => a.span.stop ≤ b.span.start)
    (sound : ∀ child ∈ node.children, child.Sound) {keys : List String} {pair : Entry}
    (member : ⟨keys, pair⟩ ∈ node.entries) {offset : Nat} (behind : pair.span.start < offset)
    (upTo : offset ≤ pair.span.stop) :
    node.descendInside offset = some ((Found.inEntry offset pair).under keys) := by
  have touched : pair.span.contains offset = true :=
    Span.contains_eq_true.2 ⟨Nat.le_of_lt behind, upTo⟩
  induction node using Node.inductionOn generalizing keys with
  | mapping span pairs inner =>
      rw [Node.descendInside]
      rw [Node.entries] at member
      simp only [Node.children, List.mem_map, forall_exists_index, and_imp,
        forall_apply_eq_imp_iff₂] at ordered sound
      induction pairs with
      | nil => simp [entriesOfPairs] at member
      | cons first rest ih =>
          obtain ⟨span, key, value⟩ := first
          have firstSound := sound _ List.mem_cons_self
          simp only [entriesOfPairs, List.cons_append, List.mem_cons, List.mem_append,
            List.mem_map] at member
          rw [descendPairs]
          rcases member with here | ⟨⟨tail, deeper⟩, below, same⟩ | later
          · obtain ⟨rfl, rfl⟩ := Collected.mk.inj here
            rw [if_pos touched]
            rfl
          · obtain ⟨rfl, rfl⟩ := Collected.mk.inj same
            obtain ⟨child, inValue, holds⟩ := value.holds_of_mem_entries below
            have around : span.contains offset = true :=
              (firstSound.within (.child inValue holds)).contains touched
            have found := inner ⟨span, key, value⟩ List.mem_cons_self firstSound.nested.ordered
              (fun child member => firstSound.child member) below
            rw [if_pos around]
            simp only [found]
            rfl
          · have standsLater := (Node.mapping span rest).holds_of_mem_entries
              (by rw [Node.entries]; exact later)
            have apart : span.contains offset = false := not_contains_of_later ordered
              (by simpa using fun pair inRest => sound pair (List.mem_cons_of_mem _ inRest))
              standsLater behind
            rw [if_neg (Bool.eq_false_iff.1 apart)]
            exact ih (fun pair inRest => inner pair (List.mem_cons_of_mem _ inRest))
              ordered.tail later (fun pair inRest => sound pair (List.mem_cons_of_mem _ inRest))
  | sequence span items inner =>
      rw [Node.descendInside]
      rw [Node.entries] at member
      simp only [Node.children, List.mem_map, forall_exists_index, and_imp,
        forall_apply_eq_imp_iff₂] at ordered sound
      induction items with
      | nil => simp [entriesOfItems] at member
      | cons item rest ih =>
          have itemSound := sound _ List.mem_cons_self
          simp only [entriesOfItems, List.mem_append] at member
          rw [descendItems, Node.descend_eq]
          rcases member with here | later
          · obtain ⟨child, inItem, holds⟩ := item.holds_of_mem_entries here
            have around : item.span.contains offset = true :=
              (itemSound.within (.child inItem holds)).contains touched
            have found := inner item List.mem_cons_self itemSound.nested.ordered
              (fun child member => itemSound.child member) here
            rw [if_pos around, found]
            rfl
          · have standsLater := (Node.sequence span rest).holds_of_mem_entries
              (by rw [Node.entries]; exact later)
            have apart : item.span.contains offset = false := not_contains_of_later ordered
              (by simpa using fun item inRest => sound item (List.mem_cons_of_mem _ inRest))
              standsLater behind
            rw [if_neg (Bool.eq_false_iff.1 apart)]
            exact ih (fun item inRest => inner item (List.mem_cons_of_mem _ inRest))
              ordered.tail later (fun item inRest => sound item (List.mem_cons_of_mem _ inRest))
  | scalar s => simp [Node.entries] at member

/-- In a sound tree a caret behind the start of an entry is located in the entry, under its keys. -/
theorem Node.locate_of_mem_entries {root : Node} (sound : (Element.node root).Sound)
    {keys : List String} {pair : Entry} (member : ⟨keys, pair⟩ ∈ root.entries) {offset : Nat}
    (behind : pair.span.start < offset) (upTo : offset ≤ pair.span.stop) :
    root.locate offset =
      some ⟨(Found.inEntry offset pair).element,
        .ofKeys (keys ++ (Found.inEntry offset pair).keys)⟩ := by
  obtain ⟨child, inRoot, holds⟩ := root.holds_of_mem_entries member
  have around : root.span.contains offset = true :=
    (sound.within (.child inRoot holds)).contains
      (Span.contains_eq_true.2 ⟨Nat.le_of_lt behind, upTo⟩)
  have found := root.descendInside_of_mem_entries sound.nested.ordered
    (fun child member => sound.child member) member behind upTo
  rw [Node.locate, Node.descend_eq, if_pos around, found]
  rfl

end WorkflowScope
