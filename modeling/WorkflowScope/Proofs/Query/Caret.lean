import WorkflowScope.CommandLine.Run
import WorkflowScope.Proofs.Query.Descent
import WorkflowScope.Proofs.Query.Enumeration
import WorkflowScope.Proofs.Text.Floor
import WorkflowScope.Proofs.Text.Readings

/-!
# Where a caret leads

A caret leads from an element to the first of its children that it touches, and so on until it
touches none. What is located is the end of this way, under the keys along it. The root of a
document covers its whole text, so that every position leads somewhere. Where the tree is nested, a
caret behind the start of an element comes by that element, however deep it stands.
-/

namespace WorkflowScope

namespace Element

def touched? (offset : Nat) (element : Element) : Option Element :=
  element.children.find? (·.span.contains offset)

theorem mem_children_of_touched? {offset : Nat} {element child : Element}
    (touched : element.touched? offset = some child) : child ∈ element.children :=
  List.mem_of_find?_eq_some touched

/-- The elements by which a caret comes, from an element on. -/
def way (offset : Nat) (element : Element) : List Element :=
  match _ : element.touched? offset with
  | some child => element :: child.way offset
  | none => [element]
termination_by sizeOf element
decreasing_by exact sizeOf_lt_of_mem_children (mem_children_of_touched? ‹_›)

variable {offset : Nat} {element child : Element}

theorem way_of_touched (touched : element.touched? offset = some child) :
    element.way offset = element :: child.way offset := by
  rw [way]
  split <;> simp_all

theorem way_of_untouched (untouched : element.touched? offset = none) :
    element.way offset = [element] := by
  rw [way]
  split <;> simp_all

theorem head?_way (offset : Nat) (element : Element) :
    (element.way offset).head? = some element := by
  cases touched : element.touched? offset with
  | none => rw [way_of_untouched touched, List.head?_cons]
  | some child => rw [way_of_touched touched, List.head?_cons]

/-- A caret goes on from each element to the first child that it touches. -/
theorem isChain_way (offset : Nat) (element : Element) :
    (element.way offset).IsChain fun outer inner => outer.touched? offset = some inner := by
  induction element using way.induct offset with
  | case1 element child touched ih =>
      rw [way_of_touched touched, List.isChain_cons]
      refine ⟨?_, ih⟩
      rw [head?_way]
      rintro _ ⟨⟩
      exact touched
  | case2 element untouched =>
      rw [way_of_untouched untouched]
      exact .singleton _

theorem exists_getLast?_way (offset : Nat) (element : Element) :
    ∃ inner, (element.way offset).getLast? = some inner ∧ inner.touched? offset = none ∧
      element.Holds inner := by
  induction element using way.induct offset with
  | case1 element child touched ih =>
      obtain ⟨inner, last, untouched, holds⟩ := ih
      refine ⟨inner, ?_, untouched, .child (mem_children_of_touched? touched) holds⟩
      rw [way_of_touched touched, List.getLast?_cons, last]
      rfl
  | case2 element untouched =>
      rw [way_of_untouched untouched]
      exact ⟨element, rfl, untouched, .self _⟩

end Element

/-! ## Locating follows the way -/

def Found.ofTrail? (trail : List Element) : Option Found :=
  trail.getLast?.map fun element => ⟨element, trail.filterMap Element.key?⟩

/-- What a caret finds from an element on: what it finds in the first child that it touches, or the
element itself, below the key of the element. -/
theorem Found.ofTrail?_way (offset : Nat) (element : Element) :
    ofTrail? (element.way offset) =
      some ((((element.touched? offset).bind fun child => ofTrail? (child.way offset)).getD
        ⟨element, []⟩).under element.key?.toList) := by
  have keys (trail : List Element) : (element :: trail).filterMap Element.key? =
      element.key?.toList ++ trail.filterMap Element.key? := by
    cases found : element.key? <;> simp [found]
  cases touched : element.touched? offset with
  | none => simp [Element.way_of_untouched touched, ofTrail?, keys, under]
  | some child =>
      obtain ⟨inner, last, -⟩ := Element.exists_getLast?_way offset child
      simp [Element.way_of_touched touched, ofTrail?, List.getLast?_cons, last, keys, under]

theorem Node.descendInside_eq (offset : Nat) (node : Node) :
    node.descendInside offset =
      ((Element.node node).touched? offset).bind
        fun child => Found.ofTrail? (child.way offset) := by
  induction node using Node.inductionOn with
  | mapping span pairs inner =>
      simp only [Node.descendInside, Element.touched?, Element.children, Element.value,
        Node.children]
      induction pairs with
      | nil => rfl
      | cons first rest ih =>
          obtain ⟨span, key, value⟩ := first
          have later := ih fun pair member => inner pair (List.mem_cons_of_mem _ member)
          rw [descendPairs, List.map_cons, List.find?_cons]
          cases touched : span.contains offset with
          | true =>
              have below := inner ⟨span, key, value⟩ List.mem_cons_self
              simp only [Element.span, touched, if_true, Option.bind_some, below]
              rw [Found.ofTrail?_way]
              rfl
          | false =>
              simp only [Element.span, touched, Bool.false_eq_true, if_false]
              exact later
  | sequence span items inner =>
      simp only [Node.descendInside, Element.touched?, Element.children, Element.value,
        Node.children]
      induction items with
      | nil => rfl
      | cons item rest ih =>
          have later := ih fun item member => inner item (List.mem_cons_of_mem _ member)
          rw [descendItems, Node.descend_eq, List.map_cons, List.find?_cons]
          cases touched : item.span.contains offset with
          | true =>
              have below := inner item List.mem_cons_self
              simp only [Element.span, touched, if_true, Option.bind_some, below]
              rw [Found.ofTrail?_way]
              rfl
          | false =>
              simp only [Element.span, touched, Bool.false_eq_true, if_false]
              exact later
  | scalar s => rfl

/-- What is located is the end of the way of the caret, under the keys along it. -/
theorem Node.locate_eq (root : Node) (offset : Nat) :
    root.locate offset =
      if root.span.contains offset then
        (Found.ofTrail? ((Element.node root).way offset)).map
          fun found => ⟨found.element, .ofKeys found.keys⟩
      else none := by
  rw [Node.locate, Node.descend_eq, Node.descendInside_eq, Found.ofTrail?_way]
  split <;> rfl

theorem Node.isSome_locate_iff (root : Node) (offset : Nat) :
    (root.locate offset).isSome = true ↔ root.span.contains offset = true := by
  rw [Node.locate_eq, Found.ofTrail?_way]
  cases root.span.contains offset <;> simp

/-! ## Documents -/

theorem Composer.span_root (text : List Char) (events : List PlacedEvent) :
    (root text events).span = ⟨0, text.length⟩ := by
  simp only [root]
  split
  · rfl
  · split
    · rfl
    · exact Node.span_withSpan _ _

namespace Snapshot

variable {text : String} {snapshot : Snapshot}

theorem exists_of_ofText (read : ofText text = .ok snapshot) :
    ∃ events, snapshot =
      { text, index := .ofText text.toList, root := Composer.root text.toList events } := by
  obtain ⟨root, made, same⟩ := bind_eq_ok.1 read
  obtain ⟨events, -, composed⟩ := bind_eq_ok.1 made
  cases same
  cases composed
  exact ⟨events, rfl⟩

/-- Every position of a document leads somewhere. -/
theorem isSome_locate_offsetAt (read : ofText text = .ok snapshot) (position : Position) :
    (snapshot.locate (snapshot.offsetAt position)).isSome = true := by
  obtain ⟨events, rfl⟩ := exists_of_ofText read
  rw [locate, Node.isSome_locate_iff, Composer.span_root, Span.contains_eq_true]
  exact ⟨Nat.zero_le _, LineIndex.offsetAt_le_length position⟩

end Snapshot

namespace CommandLine

theorem snapshotOf_eq_ok {loaded : Except LoadError Document} {snapshot : Snapshot}
    (read : snapshotOf loaded = .ok snapshot) : ∃ text, Snapshot.ofText text = .ok snapshot := by
  obtain ⟨document, -, read⟩ := bind_eq_ok.1 read
  refine ⟨document.text, ?_⟩
  cases made : Snapshot.ofText document.text with
  | error fault => simp [Document.snapshot, made, Except.mapError] at read
  | ok other => simpa [Document.snapshot, made, Except.mapError] using read

theorem snapshotOf_ne_outside (loaded : Except LoadError Document) :
    snapshotOf loaded ≠ .error .outside :=
  bind_ne_error (mapError_ne_error nofun) fun _ _ => mapError_ne_error nofun

theorem patternOf_ne_outside (config : Config) (pattern : Option String) :
    patternOf config pattern ≠ .error .outside := by
  cases pattern <;> exact mapError_ne_error nofun

theorem locateLine_ne_outside {text : String} {snapshot : Snapshot}
    (read : Snapshot.ofText text = .ok snapshot) (line column : Nat) :
    locateLine snapshot line column ≠ .error .outside := by
  obtain ⟨located, found⟩ :=
    Option.isSome_iff_exists.1 (Snapshot.isSome_locate_offsetAt read ⟨line - 1, column - 1⟩)
  simp [locateLine, found]

/-- No action fails because there is nothing at a position. -/
theorem perform_ne_outside (config : Config) (loaded : Except LoadError Document)
    (action : Action) : action.perform config loaded ≠ .error .outside := by
  cases action with
  | locate file line column =>
      refine bind_ne_error (snapshotOf_ne_outside loaded) fun snapshot read => ?_
      obtain ⟨text, made⟩ := snapshotOf_eq_ok read
      exact bind_ne_error (locateLine_ne_outside made line column) nofun
  | collect file pattern =>
      refine bind_ne_error (patternOf_ne_outside config pattern) fun pattern _ => ?_
      exact bind_ne_error (snapshotOf_ne_outside loaded) nofun
  | ranges file pattern json =>
      refine bind_ne_error (patternOf_ne_outside config pattern) fun pattern _ => ?_
      refine bind_ne_error (snapshotOf_ne_outside loaded) fun snapshot _ => ?_
      cases json <;> exact nofun
  | check file => exact bind_ne_error (mapError_ne_error nofun) nofun

end CommandLine

/-- What is located in a tree. Something is located just if the caret touches the root. It is the
end of a way down from the root that goes on to the first child which the caret touches, until it
touches none, and its path are the keys along this way. Every position of a document that can be
read leads somewhere, so no command ever finds a position outside of a document. -/
theorem Node.locate_innermost :
    (∀ (root : Node) (offset : Nat),
      ((root.locate offset).isSome = true ↔ root.span.contains offset = true) ∧
      ∀ located, root.locate offset = some located →
        ∃ trail : List Element, trail.head? = some (.node root) ∧
          trail.getLast? = some located.element ∧
          trail.IsChain (fun outer inner =>
            outer.children.find? (·.span.contains offset) = some inner) ∧
          (∀ child ∈ located.element.children, child.span.contains offset = false) ∧
          located.path = .ofKeys (trail.filterMap Element.key?)) ∧
    (∀ (text : String) (snapshot : Snapshot), Snapshot.ofText text = .ok snapshot →
      ∀ position, (snapshot.locate (snapshot.offsetAt position)).isSome = true) ∧
    ∀ (config : Config) (loaded : Except LoadError Document) (action : CommandLine.Action),
      action.perform config loaded ≠ .error .outside := by
  refine ⟨fun root offset => ⟨root.isSome_locate_iff offset, ?_⟩, ?_, ?_⟩
  · intro located found
    obtain ⟨inner, last, untouched, -⟩ := (Element.node root).exists_getLast?_way offset
    rw [Node.locate_eq, Found.ofTrail?, last] at found
    split at found
    · cases found
      refine ⟨_, Element.head?_way _ _, last, Element.isChain_way _ _, ?_, rfl⟩
      intro child member
      exact Bool.eq_false_iff.2 (List.find?_eq_none.1 untouched child member)
    · cases found
  · intro text snapshot read position
    exact Snapshot.isSome_locate_offsetAt read position
  · exact CommandLine.perform_ne_outside

/-! ## Nested trees -/

namespace Element

variable {outer inner child : Element} {offset : Nat}

theorem self_mem_trails (element : Element) : [element] ∈ element.trails := by
  rw [trails_eq]
  exact List.mem_cons_self

theorem cons_mem_trails {trail : List Element} (inChildren : child ∈ outer.children)
    (member : trail ∈ child.trails) : outer :: trail ∈ outer.trails := by
  rw [trails_eq]
  exact List.mem_cons_of_mem _
    (List.mem_flatMap.2 ⟨child, inChildren, List.mem_map_of_mem member⟩)

/-- What an element holds is at the end of a way down from it. -/
theorem holds_iff_exists_trail :
    outer.Holds inner ↔ ∃ trail ∈ outer.trails, trail.getLast? = some inner := by
  constructor
  · intro holds
    induction holds with
    | self element => exact ⟨[element], self_mem_trails element, rfl⟩
    | @child element child inner inChildren _ ih =>
        obtain ⟨below, member, ends⟩ := ih
        refine ⟨element :: below, cons_mem_trails inChildren member, ?_⟩
        rw [List.getLast?_cons, ends]
        rfl
  · rintro ⟨trail, member, ends⟩
    induction outer using trails.induct generalizing trail with
    | case1 outer ih =>
        rw [trails_eq] at member
        rcases List.mem_cons.1 member with rfl | member
        · cases ends
          exact .self _
        · obtain ⟨child, inChildren, member⟩ := List.mem_flatMap.1 member
          obtain ⟨below, inChild, rfl⟩ := List.mem_map.1 member
          rw [List.getLast?_cons_of_ne_nil (ne_nil_of_mem_trails inChild)] at ends
          exact .child inChildren (ih ⟨child, inChildren⟩ below inChild ends)

/-- Where children follow one another, a caret behind the start of something touches the child that
holds it before any other. -/
theorem find?_of_holds {children : List Element}
    (ordered : children.IsChain fun first second => first.span.stop ≤ second.span.start)
    (sound : ∀ child ∈ children, child.Sound) (member : child ∈ children)
    (holds : child.Holds inner) (behind : inner.span.start < offset)
    (upTo : offset ≤ inner.span.stop) :
    children.find? (·.span.contains offset) = some child := by
  induction children with
  | nil => cases member
  | cons first rest ih =>
      rcases List.mem_cons.1 member with rfl | later
      · have around := ((sound child member).within holds).contains
          (Span.contains_eq_true.2 ⟨Nat.le_of_lt behind, upTo⟩)
        simp only [List.find?_cons, around]
      · have soundLater : ∀ child ∈ rest, child.Sound :=
          fun child inRest => sound child (List.mem_cons_of_mem _ inRest)
        have apart := not_contains_of_later ordered soundLater ⟨child, later, holds⟩ behind
        simp only [List.find?_cons, apart]
        exact ih ordered.tail soundLater later

/-- In a nested tree a caret behind the start of an element comes by that element. -/
theorem way_eq_append (sound : outer.Sound) {trail : List Element}
    (member : trail ∈ outer.trails) (ends : trail.getLast? = some inner)
    (behind : inner.span.start < offset) (upTo : offset ≤ inner.span.stop) :
    outer.way offset = trail.dropLast ++ inner.way offset := by
  induction outer using trails.induct generalizing trail with
  | case1 outer ih =>
      rw [trails_eq] at member
      rcases List.mem_cons.1 member with rfl | member
      · cases ends
        rfl
      · obtain ⟨child, inChildren, member⟩ := List.mem_flatMap.1 member
        obtain ⟨below, inChild, rfl⟩ := List.mem_map.1 member
        have longer := ne_nil_of_mem_trails inChild
        rw [List.getLast?_cons_of_ne_nil longer] at ends
        have touched : outer.touched? offset = some child :=
          find?_of_holds sound.nested.ordered (fun child member => sound.child member) inChildren
            (holds_iff_exists_trail.2 ⟨below, inChild, ends⟩) behind upTo
        rw [way_of_touched touched, List.dropLast_cons_of_ne_nil longer,
          ih ⟨child, inChildren⟩ (sound.child inChildren) inChild ends]
        rfl

end Element

/-- In a nested tree a caret behind the start of an element is located where the way from that
element ends, under the keys of the way down to it and on. -/
theorem Node.locate_of_trail {root : Node} (sound : (Element.node root).Sound)
    {trail : List Element} (member : trail ∈ (Element.node root).trails) {element : Element}
    (ends : trail.getLast? = some element) {offset : Nat} (behind : element.span.start < offset)
    (upTo : offset ≤ element.span.stop) :
    ∃ inner, (element.way offset).getLast? = some inner ∧ element.Holds inner ∧
      root.locate offset = some ⟨inner, .ofKeys
        (trail.filterMap Element.key? ++ (element.way offset).tail.filterMap Element.key?)⟩ := by
  obtain ⟨inner, last, -, holds⟩ := element.exists_getLast?_way offset
  have inRoot := Element.holds_iff_exists_trail.2 ⟨trail, member, ends⟩
  have around : root.span.contains offset = true :=
    (sound.within inRoot).contains (Span.contains_eq_true.2 ⟨Nat.le_of_lt behind, upTo⟩)
  have passes : (Element.node root).way offset = trail ++ (element.way offset).tail := by
    calc (Element.node root).way offset
        = trail.dropLast ++ element.way offset :=
          Element.way_eq_append sound member ends behind upTo
      _ = trail.dropLast ++ ([element] ++ (element.way offset).tail) := by
          rw [List.singleton_append, List.cons_head?_tail (Element.head?_way _ _)]
      _ = trail ++ (element.way offset).tail := by
          rw [← List.append_assoc, List.dropLast_append_getLast? element ends]
  have reached : ((Element.node root).way offset).getLast? = some inner := by
    rw [Element.way_eq_append sound member ends behind upTo, List.getLast?_append, last]
    rfl
  refine ⟨inner, last, holds, ?_⟩
  rw [Node.locate_eq, if_pos around, Found.ofTrail?, reached, passes, List.filterMap_append]
  rfl

/-- In a tree that is nested, with no span reversed and the value of every entry inside of the
entry, a caret behind the start of an element is located in that element, under the keys of the way
down to it; and a caret in the text of a scalar is located at the element that has this value. -/
theorem Node.locate_of_mem_trails {root : Node} (nested : root.WellNested)
    (forward : ∀ element, (Element.node root).Holds element →
      element.span.start ≤ element.span.stop)
    (within : ∀ element, (Element.node root).Holds element →
      ∀ pair ∈ element.pair?, pair.value.span.Within pair.span)
    {trail : List Element} (member : trail ∈ (Element.node root).trails) {element : Element}
    (ends : trail.getLast? = some element) :
    (∀ offset, element.span.start < offset → offset ≤ element.span.stop →
      ∃ located below, root.locate offset = some located ∧ element.Holds located.element ∧
        located.path = .ofKeys (trail.filterMap Element.key? ++ below)) ∧
    ∀ scalar, element.value = .scalar scalar →
      ∀ offset, scalar.span.start < offset → offset ≤ scalar.span.stop →
        root.locate offset = some ⟨element, .ofKeys (trail.filterMap Element.key?)⟩ := by
  have sound : (Element.node root).Sound :=
    fun inner holds => ⟨nested inner holds, forward inner holds⟩
  constructor
  · intro offset behind upTo
    obtain ⟨inner, -, holds, found⟩ := Node.locate_of_trail sound member ends behind upTo
    exact ⟨_, _, found, holds, rfl⟩
  · intro scalar value offset behind upTo
    have inElement : scalar.span.Within element.span := by
      have own := within element (Element.holds_iff_exists_trail.2 ⟨trail, member, ends⟩)
      cases element with
      | node n =>
          cases value
          exact .refl _
      | pair p =>
          have placed := own p rfl
          rwa [show p.value = .scalar scalar from value] at placed
    obtain ⟨inner, last, -, found⟩ := Node.locate_of_trail sound member ends
      (Nat.lt_of_le_of_lt inElement.start_le behind) (Nat.le_trans upTo inElement.stop_le)
    have untouched : element.touched? offset = none := by
      simp [Element.touched?, Element.children, value, Node.children]
    rw [Element.way_of_untouched untouched] at last found
    cases last
    simpa using found

def secondItem : Node :=
  .scalar ⟨⟨8, 9⟩, "z", "z", .plain⟩

def secondEntry : Entry :=
  ⟨⟨4, 10⟩, ⟨⟨4, 5⟩, "b"⟩, .sequence ⟨6, 10⟩ [.scalar ⟨⟨7, 8⟩, "y", "y", .plain⟩, secondItem]⟩

def touchingSiblings : Node :=
  .mapping ⟨0, 10⟩ [⟨⟨0, 4⟩, ⟨⟨0, 1⟩, "a"⟩, .scalar ⟨⟨3, 4⟩, "x", "x", .plain⟩⟩, secondEntry]

theorem Node.locate_of_mem_trails_touching :
    touchingSiblings.WellNested ∧
      [.node touchingSiblings, .pair secondEntry, .node secondItem] ∈
        (Element.node touchingSiblings).trails ∧
      touchingSiblings.locate 9 = some ⟨.node secondItem, .ofKeys ["b"]⟩ := by
  have nested : touchingSiblings.WellNested := by decide
  have forward := touchingSiblings.forall_holds_iff.2
    (by decide : ∀ element ∈ Element.node touchingSiblings :: touchingSiblings.elements,
      element.span.start ≤ element.span.stop)
  have within := touchingSiblings.forall_holds_iff.2
    (by decide : ∀ element ∈ Element.node touchingSiblings :: touchingSiblings.elements,
      ∀ pair ∈ element.pair?, pair.value.span.Within pair.span)
  have member : [.node touchingSiblings, .pair secondEntry, .node secondItem] ∈
      (Element.node touchingSiblings).trails := by
    have entry : Element.pair secondEntry ∈ (Element.node touchingSiblings).children :=
      List.mem_cons_of_mem _ List.mem_cons_self
    have item : Element.node secondItem ∈ (Element.pair secondEntry).children :=
      List.mem_cons_of_mem _ List.mem_cons_self
    exact Element.cons_mem_trails entry
      (Element.cons_mem_trails item (Element.self_mem_trails _))
  obtain ⟨-, leaf⟩ := Node.locate_of_mem_trails nested forward within member rfl
  exact ⟨nested, member, leaf _ rfl 9 (by decide) (by decide)⟩

end WorkflowScope
