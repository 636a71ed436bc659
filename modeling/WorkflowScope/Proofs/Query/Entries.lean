import WorkflowScope.Proofs.Tree.Induction
import WorkflowScope.Query.Collect
import WorkflowScope.Query.Locate

/-!
# The entries of a tree

Every entry of a tree stands under a chain of keys. Enumerating all entries with their chains is the
plain meaning of both queries: collecting is keeping those whose chain a pattern fits, and what is
located as an entry is one of them, under the chain that was found.
-/

namespace WorkflowScope

namespace KeyPath

@[simp] theorem acceptsKeys_nil_nil : acceptsKeys ⟨[]⟩ [] = true := rfl

@[simp] theorem acceptsKeys_nil_cons (key : String) (keys : List String) :
    acceptsKeys ⟨[]⟩ (key :: keys) = false := by
  simp [acceptsKeys, length]

@[simp] theorem acceptsKeys_cons_nil (segment : Segment) (segments : List Segment) :
    acceptsKeys ⟨segment :: segments⟩ [] = false := by
  simp [acceptsKeys, length]

@[simp] theorem acceptsKeys_cons_cons (segment : Segment) (segments : List Segment) (key : String)
    (keys : List String) :
    acceptsKeys ⟨segment :: segments⟩ (key :: keys) =
      (segment.acceptsKey key && acceptsKeys ⟨segments⟩ keys) := by
  rw [Bool.eq_iff_iff]
  simpa [acceptsKeys, length] using and_left_comm

/-- A pattern fits the path of some keys just if it fits the keys. -/
theorem accepts_ofKeys (pattern : KeyPath) (keys : List String) :
    pattern.accepts (.ofKeys keys) = pattern.acceptsKeys keys := by
  obtain ⟨segments⟩ := pattern
  simp [accepts, acceptsKeys, ofKeys, length, List.zip_map_right, Function.comp_def]

end KeyPath

mutual

/-- Every entry in a node with the keys down to it, in the order of the text. -/
def Node.entries : Node → List Collected
  | .mapping _ pairs => entriesOfPairs pairs
  | .sequence _ items => entriesOfItems items
  | .scalar _ => []

def entriesOfPairs : List Entry → List Collected
  | [] => []
  | ⟨span, key, value⟩ :: rest =>
      ⟨[key.value], ⟨span, key, value⟩⟩ :: value.entries.map (·.below key.value) ++
        entriesOfPairs rest

def entriesOfItems : List Node → List Collected
  | [] => []
  | item :: rest => item.entries ++ entriesOfItems rest

end

theorem keys_ne_nil_of_mem_entriesOfPairs (pairs : List Entry) :
    ∀ collected ∈ entriesOfPairs pairs, collected.keys ≠ [] := by
  induction pairs with
  | nil => simp [entriesOfPairs]
  | cons pair rest ih =>
      intro collected member
      simp only [entriesOfPairs, List.cons_append, List.mem_cons, List.mem_append,
        List.mem_map] at member
      rcases member with rfl | ⟨inner, -, rfl⟩ | member
      · simp
      · simp [Collected.below]
      · exact ih collected member

/-- The keys of an entry are never none: its own is among them. -/
theorem Node.keys_ne_nil_of_mem_entries (node : Node) :
    ∀ collected ∈ node.entries, collected.keys ≠ [] := by
  induction node using Node.inductionOn with
  | mapping span pairs _ =>
      intro collected member
      rw [Node.entries] at member
      exact keys_ne_nil_of_mem_entriesOfPairs pairs collected member
  | sequence span items inner =>
      intro collected member
      rw [Node.entries] at member
      induction items with
      | nil => simp [entriesOfItems] at member
      | cons item rest ih =>
          simp only [entriesOfItems, List.mem_append] at member
          rcases member with here | later
          · exact inner item (by simp) collected here
          · exact ih (fun item member => inner item (by simp [member])) later
  | scalar s => simp [Node.entries]

/-! ## Collecting -/

theorem filter_map_below (segment : Segment) (segments : List Segment) (key : String)
    (found : List Collected) :
    (found.map (·.below key)).filter (KeyPath.acceptsKeys ⟨segment :: segments⟩ ·.keys) =
      if segment.acceptsKey key then
        (found.filter (KeyPath.acceptsKeys ⟨segments⟩ ·.keys)).map (·.below key)
      else [] := by
  cases fits : segment.acceptsKey key <;>
    simp [List.filter_map, Function.comp_def, Collected.below, fits]

theorem Node.filter_entries_nil (node : Node) :
    node.entries.filter (KeyPath.acceptsKeys ⟨[]⟩ ·.keys) = [] := by
  rw [List.filter_eq_nil_iff]
  intro collected member
  obtain ⟨key, keys, same⟩ :=
    List.exists_cons_of_ne_nil (node.keys_ne_nil_of_mem_entries collected member)
  simp [same]

/-- Collecting goes down one key for each segment and stops at the first that does not fit; what is
left are the entries whose keys the whole pattern fits. -/
theorem Node.collectSegments_eq_filter (node : Node) (segments : List Segment) :
    node.collectSegments segments =
      node.entries.filter (KeyPath.acceptsKeys ⟨segments⟩ ·.keys) := by
  induction node using Node.inductionOn generalizing segments with
  | mapping span pairs inner =>
      rw [Node.collectSegments, Node.entries]
      induction pairs with
      | nil => simp [collectFromPairs, entriesOfPairs]
      | cons pair rest ih =>
          obtain ⟨span, key, value⟩ := pair
          have later := ih fun pair member => inner pair (by simp [member])
          have below := inner ⟨span, key, value⟩ (by simp)
          simp only [collectFromPairs, entriesOfPairs, List.filter_append, later]
          congr 1
          cases segments with
          | nil => simp [List.filter_map, Function.comp_def, Collected.below]
          | cons first others =>
              rw [List.filter_cons, filter_map_below, ← below]
              cases fits : first.acceptsKey key.value with
              | false => simp [fits]
              | true =>
                  cases others with
                  | nil => simp [fits, below, Node.filter_entries_nil]
                  | cons second others => simp [fits]
  | sequence span items inner =>
      rw [Node.collectSegments, Node.entries]
      induction items with
      | nil => simp [collectFromItems, entriesOfItems]
      | cons item rest ih =>
          have later := ih fun item member => inner item (by simp [member])
          simp only [collectFromItems, entriesOfItems, List.filter_append, later]
          rw [inner item (by simp)]
  | scalar s => simp [Node.collectSegments, Node.entries]

/-- An entry is collected just if it stands in the tree under keys that the pattern fits. -/
theorem Node.mem_collect_iff {root : Node} {pattern : KeyPath} {collected : Collected} :
    collected ∈ root.collect pattern ↔
      collected ∈ root.entries ∧ pattern.acceptsKeys collected.keys = true := by
  rw [Node.collect, Node.collectSegments_eq_filter, List.mem_filter]

/-! ## Locating -/

/-- What is found in a node when its children are searched first. -/
theorem Node.descend_eq (offset : Nat) (node : Node) :
    node.descend offset =
      if node.span.contains offset then
        some ((node.descendInside offset).getD ⟨.node node, []⟩)
      else none := by
  cases node <;> simp [Node.descend, Node.descendInside, Node.span]

/-- An entry that is found inside a node is one of its entries, under the keys of the way. -/
theorem Node.mem_entries_of_descendInside (node : Node) {offset : Nat} {keys : List String}
    {pair : Entry} (found : node.descendInside offset = some ⟨.pair pair, keys⟩) :
    ⟨keys, pair⟩ ∈ node.entries := by
  induction node using Node.inductionOn generalizing keys with
  | mapping span pairs inner =>
      rw [Node.descendInside] at found
      rw [Node.entries]
      induction pairs with
      | nil => simp [descendPairs] at found
      | cons first rest ih =>
          obtain ⟨span, key, value⟩ := first
          simp only [descendPairs] at found
          simp only [entriesOfPairs, List.cons_append, List.mem_cons, List.mem_append, List.mem_map]
          split at found
          · cases deeper : value.descendInside offset with
            | none =>
                rw [deeper] at found
                simp only [Option.getD_none, Found.below, Option.some.injEq, Found.mk.injEq,
                  Element.pair.injEq] at found
                obtain ⟨rfl, rfl⟩ := found
                exact .inl rfl
            | some below =>
                obtain ⟨element, tail⟩ := below
                rw [deeper] at found
                simp only [Option.getD_some, Found.below, Option.some.injEq,
                  Found.mk.injEq] at found
                obtain ⟨rfl, rfl⟩ := found
                exact .inr (.inl ⟨⟨tail, pair⟩, inner _ List.mem_cons_self deeper, rfl⟩)
          · exact .inr (.inr (ih (fun pair member => inner pair (by simp [member])) found))
  | sequence span items inner =>
      rw [Node.descendInside] at found
      rw [Node.entries]
      induction items with
      | nil => simp [descendItems] at found
      | cons item rest ih =>
          simp only [descendItems, Node.descend_eq] at found
          simp only [entriesOfItems, List.mem_append]
          split at found
          · next first here =>
              obtain rfl := Option.some.inj found
              split at here
              · cases deeper : item.descendInside offset with
                | none => simp [deeper] at here
                | some below =>
                    simp only [deeper, Option.getD_some, Option.some.injEq] at here
                    subst here
                    exact .inl (inner item (by simp) deeper)
              · cases here
          · exact .inr (ih (fun item member => inner item (by simp [member])) found)
  | scalar s => simp [Node.descendInside] at found

/-- An entry that is located is an entry of the tree, under the keys of its path. -/
theorem Node.mem_entries_of_locate {root : Node} {offset : Nat} {located : Located} {pair : Entry}
    (found : root.locate offset = some located) (isPair : located.element.pair? = some pair) :
    ∃ keys, located.path = .ofKeys keys ∧ ⟨keys, pair⟩ ∈ root.entries := by
  simp only [Node.locate, Option.map_eq_some_iff] at found
  obtain ⟨⟨element, keys⟩, here, rfl⟩ := found
  cases element with
  | node n => simp [Element.pair?] at isPair
  | pair p =>
      obtain rfl : p = pair := by simpa [Element.pair?] using isPair
      rw [Node.descend_eq] at here
      split at here
      · cases deeper : root.descendInside offset with
        | none => simp [deeper] at here
        | some below =>
            simp only [deeper, Option.getD_some, Option.some.injEq] at here
            subst here
            exact ⟨keys, rfl, root.mem_entries_of_descendInside deeper⟩
      · cases here

end WorkflowScope
