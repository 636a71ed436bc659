import WorkflowScope.Lint.Wellformed
import WorkflowScope.Proofs.Query.Caret

/-!
# Repeated keys

An element of a tree has an address: the numbers of the children on the way down to it. The linter
reports the pairs at whose address a key is repeated, in the order of their addresses, by which an
element comes before what stands in it and before what follows it.
-/

namespace WorkflowScope

namespace Element

def at? : Element → List Nat → Option Element
  | element, [] => some element
  | element, i :: rest => element.children[i]?.bind (·.at? rest)

/-- At an address stands a pair with the key of a pair that stands before it in its mapping. -/
def RepeatsKey (element : Element) (address : List Nat) (pair : Entry) : Prop :=
  ∃ outer i j earlier, address = outer ++ [i] ∧ j < i ∧
    element.at? (outer ++ [i]) = some (.pair pair) ∧
    element.at? (outer ++ [j]) = some (.pair earlier) ∧ earlier.key.value = pair.key.value

variable {element child : Element} {pair : Entry} {n : Nat}

theorem at?_append (element : Element) (outer rest : List Nat) :
    element.at? (outer ++ rest) = (element.at? outer).bind (·.at? rest) := by
  induction outer generalizing element with
  | nil => rfl
  | cons i outer ih => simp only [List.cons_append, at?, Option.bind_assoc, ih]

theorem at?_singleton (element : Element) (i : Nat) : element.at? [i] = element.children[i]? := by
  cases found : element.children[i]? with
  | none => simp [at?, found]
  | some child => simp [at?, found]

theorem holds_iff_exists_at {inner : Element} :
    element.Holds inner ↔ ∃ address, element.at? address = some inner := by
  constructor
  · intro holds
    induction holds with
    | self element => exact ⟨[], rfl⟩
    | @child element child inner member _ ih =>
        obtain ⟨address, found⟩ := ih
        obtain ⟨i, here⟩ := List.mem_iff_getElem?.1 member
        exact ⟨i :: address, by simp [at?, here, found]⟩
  · rintro ⟨address, found⟩
    induction address generalizing element with
    | nil =>
        cases found
        exact .self _
    | cons i rest ih =>
        obtain ⟨child, here, below⟩ := Option.bind_eq_some_iff.1 found
        exact .child (List.mem_of_getElem? here) (ih below)

theorem RepeatsKey.ne_nil {address : List Nat} (repeats : element.RepeatsKey address pair) :
    address ≠ [] := by
  obtain ⟨outer, i, j, earlier, rfl, -⟩ := repeats
  exact List.append_ne_nil_of_right_ne_nil outer (List.cons_ne_nil i [])

theorem repeatsKey_singleton_iff :
    element.RepeatsKey [n] pair ↔ element.children[n]? = some (.pair pair) ∧
      ∃ j < n, ∃ earlier, element.children[j]? = some (.pair earlier) ∧
        earlier.key.value = pair.key.value := by
  constructor
  · rintro ⟨outer, i, j, earlier, address, before, here, there, same⟩
    obtain ⟨rfl, rfl⟩ : outer = [] ∧ i = n := by
      cases outer with
      | nil => simpa [eq_comm] using address
      | cons k outer => simp at address
    rw [List.nil_append, at?_singleton] at here there
    exact ⟨here, j, before, earlier, there, same⟩
  · rintro ⟨here, j, before, earlier, there, same⟩
    refine ⟨[], n, j, earlier, rfl, before, ?_, ?_, same⟩
    · rwa [List.nil_append, at?_singleton]
    · rwa [List.nil_append, at?_singleton]

theorem repeatsKey_cons_iff {address : List Nat} (inner : address ≠ []) :
    element.RepeatsKey (n :: address) pair ↔
      ∃ child, element.children[n]? = some child ∧ child.RepeatsKey address pair := by
  constructor
  · rintro ⟨outer, i, j, earlier, split, before, here, there, same⟩
    cases outer with
    | nil =>
        obtain ⟨-, rfl⟩ := List.cons.inj split
        exact absurd rfl inner
    | cons k outer =>
        obtain ⟨rfl, rfl⟩ := List.cons.inj split
        obtain ⟨child, found, here⟩ := Option.bind_eq_some_iff.1 here
        obtain ⟨_, again, there⟩ := Option.bind_eq_some_iff.1 there
        rw [found] at again
        cases again
        exact ⟨child, found, outer, i, j, earlier, rfl, before, here, there, same⟩
  · rintro ⟨child, found, outer, i, j, earlier, rfl, before, here, there, same⟩
    refine ⟨n :: outer, i, j, earlier, rfl, before, ?_, ?_, same⟩
    · simp [at?, found, here]
    · simp [at?, found, there]

/-- What is repeated in an element is repeated in its value. -/
theorem repeatsKey_value_iff {address : List Nat} :
    (Element.node element.value).RepeatsKey address pair ↔ element.RepeatsKey address pair := by
  cases address with
  | nil => exact iff_of_false (fun repeats => repeats.ne_nil rfl) fun repeats => repeats.ne_nil rfl
  | cons i rest =>
      by_cases inner : rest = []
      · subst inner
        rw [repeatsKey_singleton_iff, repeatsKey_singleton_iff]
        rfl
      · rw [repeatsKey_cons_iff inner, repeatsKey_cons_iff inner]
        rfl

end Element

namespace Lint

open Element

/-- Pairs at their addresses in an element, which are those at which a key is repeated from a child
on, in the order of the text. -/
structure ListsFrom (element : Element) (start : Nat) (found : List (List Nat × Entry)) : Prop where
  sorted : found.Pairwise fun first second => first.1 < second.1
  complete : ∀ address pair, (address, pair) ∈ found ↔
    (∃ i rest, start ≤ i ∧ address = i :: rest) ∧ element.RepeatsKey address pair

def report (placed : List Nat × Entry) : Finding :=
  duplicate placed.2.key

variable {element child : Element} {n : Nat} {found more : List (List Nat × Entry)}

theorem listsFrom_nil (ended : element.children.length ≤ n) : ListsFrom element n [] := by
  refine ⟨.nil, fun address pair => ⟨nofun, ?_⟩⟩
  rintro ⟨⟨i, rest, later, rfl⟩, repeats⟩
  have outside : element.children[i]? = none := List.getElem?_eq_none (by omega)
  by_cases inner : rest = []
  · subst inner
    rw [repeatsKey_singleton_iff, outside] at repeats
    cases repeats.1
  · obtain ⟨child, here, -⟩ := (repeatsKey_cons_iff inner).1 repeats
    rw [outside] at here
    cases here

theorem ListsFrom.mem_iff (lists : ListsFrom element 0 found) {address : List Nat} {pair : Entry} :
    (address, pair) ∈ found ↔ element.RepeatsKey address pair := by
  rw [lists.complete]
  constructor
  · exact And.right
  · intro repeats
    obtain ⟨i, rest, rfl⟩ := List.exists_cons_of_ne_nil repeats.ne_nil
    exact ⟨⟨i, rest, Nat.zero_le i, rfl⟩, repeats⟩

/-- What is listed from a child on: the child itself, what stands in it, and what follows it. -/
def listing (n : Nat) (own : Option Entry) (inside later : List (List Nat × Entry)) :
    List (List Nat × Entry) :=
  own.toList.map (fun pair => ([n], pair)) ++
    (inside.map (fun placed => (n :: placed.1, placed.2)) ++ later)

theorem map_report_listing (n : Nat) (own : Option Entry) (inside later : List (List Nat × Entry)) :
    (listing n own inside later).map report =
      own.toList.map (fun pair => duplicate pair.key) ++
        (inside.map report ++ later.map report) := by
  simp only [listing, List.map_append, List.map_map]
  rfl

/-- A child stands before what is in it, and both before what follows. -/
theorem sorted_listing {own : Option Entry} (inside : ListsFrom child 0 found)
    (later : ListsFrom element (n + 1) more) :
    (listing n own found more).Pairwise fun first second => first.1 < second.1 := by
  have behind : ∀ placed ∈ more, ∀ rest, n :: rest < placed.1 := by
    intro placed member rest
    obtain ⟨⟨i, below, next, same⟩, -⟩ := (later.complete placed.1 placed.2).1 member
    rw [same, List.cons_lt_cons_iff]
    exact .inl (Nat.lt_of_succ_le next)
  refine List.pairwise_append.2 ⟨?_, List.pairwise_append.2 ⟨?_, later.sorted, ?_⟩, ?_⟩
  · cases own <;> simp
  · refine List.pairwise_map.2 (inside.sorted.imp fun {a b} before => ?_)
    exact List.cons_lt_cons_iff.2 (.inr ⟨rfl, before⟩)
  · intro placed member other after
    obtain ⟨inner, -, rfl⟩ := List.mem_map.1 member
    exact behind other after _
  · intro placed member other after
    obtain ⟨pair, -, rfl⟩ := List.mem_map.1 member
    rcases List.mem_append.1 after with after | after
    · obtain ⟨inner, belongs, rfl⟩ := List.mem_map.1 after
      obtain ⟨i, rest, same⟩ := List.exists_cons_of_ne_nil (inside.mem_iff.1 belongs).ne_nil
      exact List.cons_lt_cons_iff.2 (.inr ⟨rfl, by rw [same]; exact List.nil_lt_cons i rest⟩)
    · exact behind other after _

theorem mem_listing_iff {own : Option Entry} (here : element.children[n]? = some child)
    (owns : ∀ pair, own = some pair ↔ element.RepeatsKey [n] pair)
    (inside : ListsFrom child 0 found) (later : ListsFrom element (n + 1) more)
    (address : List Nat) (pair : Entry) :
    (address, pair) ∈ listing n own found more ↔
      (∃ i rest, n ≤ i ∧ address = i :: rest) ∧ element.RepeatsKey address pair := by
  simp only [listing, List.mem_append, List.mem_map, Option.mem_toList]
  constructor
  · rintro (⟨_, is, same⟩ | ⟨⟨below, _⟩, belongs, same⟩ | belongs)
    · cases same
      exact ⟨⟨n, [], Nat.le_refl n, rfl⟩, (owns pair).1 is⟩
    · cases same
      have repeats := inside.mem_iff.1 belongs
      exact ⟨⟨n, below, Nat.le_refl n, rfl⟩,
        (repeatsKey_cons_iff repeats.ne_nil).2 ⟨child, here, repeats⟩⟩
    · obtain ⟨⟨i, rest, next, same⟩, repeats⟩ := (later.complete address pair).1 belongs
      exact ⟨⟨i, rest, Nat.le_of_succ_le next, same⟩, repeats⟩
  · rintro ⟨⟨i, rest, from_, rfl⟩, repeats⟩
    rcases Nat.eq_or_lt_of_le from_ with rfl | next
    · cases rest with
      | nil => exact .inl ⟨pair, (owns pair).2 repeats, rfl⟩
      | cons k rest =>
          obtain ⟨other, again, inner⟩ :=
            (repeatsKey_cons_iff (List.cons_ne_nil k rest)).1 repeats
          rw [here] at again
          cases again
          exact .inr (.inl ⟨(k :: rest, pair), inside.mem_iff.2 inner, rfl⟩)
    · exact .inr (.inr ((later.complete _ pair).2 ⟨⟨i, rest, next, rfl⟩, repeats⟩))

theorem listsFrom_listing {own : Option Entry} (here : element.children[n]? = some child)
    (owns : ∀ pair, own = some pair ↔ element.RepeatsKey [n] pair)
    (inside : ListsFrom child 0 found) (later : ListsFrom element (n + 1) more) :
    ListsFrom element n (listing n own found more) :=
  ⟨sorted_listing inside later, mem_listing_iff here owns inside later⟩

/-- The linter reports the repeated keys of items, in the order of the text. -/
theorem exists_listsFrom_items (span : Span) (before items : List Node)
    (inner : ∀ item ∈ items, ∃ found,
      ListsFrom (.node item) 0 found ∧ duplicatesIn item = found.map report) :
    ∃ found, ListsFrom (.node (.sequence span (before ++ items))) before.length found ∧
      duplicatesInItems items = found.map report := by
  induction items generalizing before with
  | nil => exact ⟨[], listsFrom_nil (by simp [Element.children, Element.value, Node.children]), rfl⟩
  | cons item rest ih =>
      obtain ⟨found, inside, same⟩ := inner item List.mem_cons_self
      obtain ⟨more, later, sameRest⟩ := ih (before ++ [item])
        fun other member => inner other (List.mem_cons_of_mem _ member)
      rw [List.append_assoc, List.singleton_append, List.length_append, List.length_singleton]
        at later
      have here :
          (Element.node (.sequence span (before ++ item :: rest))).children[before.length]? =
            some (.node item) := by
        simp [Element.children, Element.value, Node.children]
      refine ⟨listing before.length none found more, listsFrom_listing here ?_ inside later, ?_⟩
      · -- An item has no key.
        intro pair
        rw [repeatsKey_singleton_iff, here]
        simp
      · rw [duplicatesInItems, same, sameRest, map_report_listing]
        rfl

theorem getElem?_pairs_iff {span : Span} {pairs : List Entry} {pair : Entry} {i : Nat} :
    (Element.node (.mapping span pairs)).children[i]? = some (.pair pair) ↔
      pairs[i]? = some pair := by
  simp [Element.children, Element.value, Node.children]

/-- The pairs at the numbers below that of a pair are those before it. -/
theorem exists_earlier_iff {span : Span} {before rest : List Entry} {key : String} :
    (∃ j < before.length, ∃ earlier,
      (Element.node (.mapping span (before ++ rest))).children[j]? = some (.pair earlier) ∧
        earlier.key.value = key) ↔ ∃ pair ∈ before, pair.key.value = key := by
  simp only [getElem?_pairs_iff]
  constructor
  · rintro ⟨j, inside, earlier, there, same⟩
    rw [List.getElem?_append_left inside] at there
    exact ⟨earlier, List.mem_of_getElem? there, same⟩
  · rintro ⟨pair, member, same⟩
    obtain ⟨j, there⟩ := List.mem_iff_getElem?.1 member
    have inside := (List.getElem?_eq_some_iff.1 there).1
    exact ⟨j, inside, pair, by rwa [List.getElem?_append_left inside], same⟩

/-- The linter reports the repeated keys of pairs, in the order of the text; what it has seen are
the keys of the pairs before them. -/
theorem exists_listsFrom_pairs (span : Span) (before pairs : List Entry) (seen : List String)
    (keys : ∀ key, key ∈ seen ↔ ∃ pair ∈ before, pair.key.value = key)
    (inner : ∀ pair ∈ pairs, ∃ found,
      ListsFrom (.node pair.value) 0 found ∧ duplicatesIn pair.value = found.map report) :
    ∃ found, ListsFrom (.node (.mapping span (before ++ pairs))) before.length found ∧
      duplicatesInPairs seen pairs = found.map report := by
  induction pairs generalizing before seen with
  | nil => exact ⟨[], listsFrom_nil (by simp [Element.children, Element.value, Node.children]), rfl⟩
  | cons pair rest ih =>
      obtain ⟨found, inside, same⟩ := inner pair List.mem_cons_self
      obtain ⟨more, later, sameRest⟩ := ih (before ++ [pair]) (pair.key.value :: seen)
        (by
          intro key
          rw [List.mem_cons, keys]
          simp [or_comm, eq_comm])
        fun other member => inner other (List.mem_cons_of_mem _ member)
      rw [List.append_assoc, List.singleton_append, List.length_append, List.length_singleton]
        at later
      have here : (Element.node (.mapping span (before ++ pair :: rest))).children[before.length]? =
          some (.pair pair) := by
        simp [getElem?_pairs_iff]
      have insidePair : ListsFrom (.pair pair) 0 found :=
        ⟨inside.sorted, fun address other =>
          (inside.complete address other).trans
            (and_congr_right fun _ => @repeatsKey_value_iff (.pair pair) other address)⟩
      have owns : ∀ other, (if pair.key.value ∈ seen then some pair else none) = some other ↔
          (Element.node (.mapping span (before ++ pair :: rest))).RepeatsKey
            [before.length] other := by
        intro other
        rw [repeatsKey_singleton_iff, here, exists_earlier_iff]
        constructor
        · intro repeated
          split at repeated
          · next known =>
              cases repeated
              exact ⟨rfl, (keys _).1 known⟩
          · cases repeated
        · rintro ⟨same, known⟩
          cases same
          exact if_pos ((keys _).2 known)
      refine ⟨_, listsFrom_listing here owns insidePair later, ?_⟩
      obtain ⟨_, key, value⟩ := pair
      simp only [map_report_listing, duplicatesInPairs, same, sameRest, List.contains_iff_mem,
        List.append_assoc]
      split <;> rfl

theorem exists_listsFrom (node : Node) :
    ∃ found, ListsFrom (.node node) 0 found ∧ duplicatesIn node = found.map report := by
  induction node using Node.inductionOn with
  | mapping span pairs inner =>
      rw [duplicatesIn]
      exact exists_listsFrom_pairs span [] pairs [] (by simp) inner
  | sequence span items inner =>
      rw [duplicatesIn]
      exact exists_listsFrom_items span [] items inner
  | scalar s => exact ⟨[], listsFrom_nil (Nat.le_refl 0), by rw [duplicatesIn]; rfl⟩

end Lint

/-! ## Trees without repeated keys -/

def Node.DistinctKeys (root : Node) : Prop :=
  ∀ element, (Element.node root).Holds element → ∀ span pairs, element.value = .mapping span pairs →
    (pairs.map (·.key.value)).Nodup

theorem Element.exists_mapping_of_pair {element : Element} {i : Nat} {pair : Entry}
    (child : element.children[i]? = some (.pair pair)) :
    ∃ span pairs, element.value = .mapping span pairs ∧ pairs[i]? = some pair := by
  rw [Element.children] at child
  cases value : element.value with
  | mapping span pairs =>
      rw [value] at child
      exact ⟨span, pairs, rfl, Lint.getElem?_pairs_iff.1 child⟩
  | sequence span items =>
      rw [value] at child
      simp [Node.children] at child
  | scalar s =>
      rw [value] at child
      cases child

/-- Keys are distinct just if none is repeated at any address. -/
theorem Node.distinctKeys_iff (root : Node) :
    root.DistinctKeys ↔ ∀ address pair, ¬ (Element.node root).RepeatsKey address pair := by
  constructor
  · rintro distinct address pair ⟨outer, i, j, earlier, -, before, here, there, same⟩
    rw [Element.at?_append] at here there
    obtain ⟨element, found, here⟩ := Option.bind_eq_some_iff.1 here
    obtain ⟨_, again, there⟩ := Option.bind_eq_some_iff.1 there
    rw [found] at again
    cases again
    rw [Element.at?_singleton] at here there
    obtain ⟨span, pairs, value, here⟩ := Element.exists_mapping_of_pair here
    obtain ⟨_, _, again, there⟩ := Element.exists_mapping_of_pair there
    rw [value] at again
    cases again
    have apart := distinct element (Element.holds_iff_exists_at.2 ⟨outer, found⟩) span pairs value
    obtain ⟨insideHere, rfl⟩ := List.getElem?_eq_some_iff.1 here
    obtain ⟨insideThere, rfl⟩ := List.getElem?_eq_some_iff.1 there
    exact List.pairwise_iff_getElem.1 (List.pairwise_map.1 apart) j i insideThere insideHere before
      same
  · intro none element holds span pairs value
    obtain ⟨outer, found⟩ := Element.holds_iff_exists_at.1 holds
    have placed : ∀ (i : Nat) (inside : i < pairs.length),
        (Element.node root).at? (outer ++ [i]) = some (.pair pairs[i]) := by
      intro i inside
      rw [Element.at?_append, found, Option.bind_some, Element.at?_singleton, Element.children,
        value]
      exact Lint.getElem?_pairs_iff.2 (List.getElem?_eq_getElem inside)
    refine List.pairwise_map.2 (List.pairwise_iff_getElem.2 ?_)
    intro j i insideThere insideHere before same
    exact none _ _ ⟨outer, i, j, pairs[j], rfl, before, placed i insideHere,
      placed j insideThere, same⟩

namespace Lint

theorem duplicatesIn_eq_nil_iff (root : Node) : duplicatesIn root = [] ↔ root.DistinctKeys := by
  obtain ⟨found, lists, same⟩ := exists_listsFrom root
  rw [same, List.map_eq_nil_iff, root.distinctKeys_iff, List.eq_nil_iff_forall_not_mem]
  constructor
  · intro none address pair repeats
    exact none (address, pair) (lists.mem_iff.2 repeats)
  · rintro none ⟨address, pair⟩ member
    exact none address pair (lists.mem_iff.1 member)

theorem check_of_read {text : String} {snapshot : Snapshot}
    (read : Snapshot.ofText text = .ok snapshot) :
    check text = (if snapshot.root.isMapping then []
      else [⟨"workflow must be a mapping", 0, text.toList.length⟩]) ++
        duplicatesIn snapshot.root := by
  have span : snapshot.root.span = ⟨0, text.toList.length⟩ := by
    obtain ⟨events, rfl⟩ := Snapshot.exists_of_ofText read
    exact Composer.span_root _ _
  unfold check
  split
  · next again =>
      rw [read] at again
      cases again
      simp only [rootFindings, span]
  · next refusal =>
      rw [read] at refusal
      cases refusal

theorem check_of_refusal {text : String} {error : DocumentError}
    (refusal : Snapshot.ofText text = .error error) :
    check text = [refused error text.toList.length] := by
  unfold check
  split
  · next read =>
      rw [refusal] at read
      cases read
  · next again =>
      rw [refusal] at again
      cases again
      rfl

theorem refused_bounds (error : DocumentError) (length : Nat) :
    (refused error length).first ≤ (refused error length).last ∧
      (refused error length).last ≤ length := by
  simp only [refused]
  omega

theorem check_eq_nil_iff (text : String) :
    check text = [] ↔ ∃ snapshot, Snapshot.ofText text = .ok snapshot ∧
      snapshot.root.isMapping = true ∧ snapshot.root.DistinctKeys := by
  constructor
  · intro clean
    cases read : Snapshot.ofText text with
    | error error =>
        rw [check_of_refusal read] at clean
        cases clean
    | ok snapshot =>
        rw [check_of_read read, List.append_eq_nil_iff, duplicatesIn_eq_nil_iff] at clean
        obtain ⟨rooted, distinct⟩ := clean
        refine ⟨snapshot, rfl, ?_, distinct⟩
        by_contra other
        rw [if_neg other] at rooted
        cases rooted
  · rintro ⟨snapshot, read, mapping, distinct⟩
    rw [check_of_read read, if_pos mapping, (duplicatesIn_eq_nil_iff _).2 distinct]
    rfl

/-- The linter reports a text that is no document where it is refused, a root that is no mapping
over the whole text, and then every repeated key at its place, in the order of the text; so it
reports nothing just about a document that is a mapping with distinct keys throughout. -/
theorem check_reports (text : String) :
    (∀ snapshot, Snapshot.ofText text = .ok snapshot →
      ∃ repeated : List (List Nat × Entry),
        repeated.Pairwise (fun first second => first.1 < second.1) ∧
        (∀ address pair, (address, pair) ∈ repeated ↔
          (Element.node snapshot.root).RepeatsKey address pair) ∧
        check text =
          (if snapshot.root.isMapping then []
            else [⟨"workflow must be a mapping", 0, text.toList.length⟩]) ++
          repeated.map fun placed =>
            let key := placed.2.key
            ⟨"duplicate key '" ++ key.value ++ "'", key.span.start, key.span.stop⟩) ∧
    (∀ error, Snapshot.ofText text = .error error →
      ∃ finding, check text = [finding] ∧ finding.first ≤ finding.last ∧
        finding.last ≤ text.toList.length) ∧
    (check text = [] ↔ ∃ snapshot, Snapshot.ofText text = .ok snapshot ∧
      snapshot.root.isMapping = true ∧ snapshot.root.DistinctKeys) := by
  refine ⟨?_, ?_, ?_⟩
  · intro snapshot read
    obtain ⟨found, lists, same⟩ := exists_listsFrom snapshot.root
    refine ⟨found, lists.sorted, fun address pair => lists.mem_iff, ?_⟩
    rw [check_of_read read, same]
    rfl
  · intro error refusal
    exact ⟨_, check_of_refusal refusal, refused_bounds error _⟩
  · exact check_eq_nil_iff text

example :
    (check "a: [\x7bb: 1, b: 2, b: 3\x7d]\na: \x7bb: 4\x7d\n").map (·.first) = [11, 17, 24] := by
  decide +kernel

end Lint

end WorkflowScope
