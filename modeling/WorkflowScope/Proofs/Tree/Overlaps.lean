import WorkflowScope.Proofs.Tree.BlockEnds
import WorkflowScope.Proofs.Tree.Neighbours
import WorkflowScope.Proofs.Tree.PlainEnds
import WorkflowScope.Proofs.Tree.Snapshot

/-!
# Scalars that overlap what follows

The end of a block scalar, and of a folded plain one, is looked for in the text up to the next
event. But a block scalar is marked at its content, below its header, and a block mapping at its
first colon, behind its first key. Where one of these is the next node, its header or its key stands
before the event, so that the scalar in front reaches over it; and there are no other nodes that
such a scalar overlaps.
-/

namespace WorkflowScope

namespace Extent

open Text (isWhite splitLines)

variable {text value : List Char} {start mark next limit place : Nat} {line : Span}

/-! ## Lines with content -/

/-- Content stands at a place of a text that is read from `start` on: a character that is neither
white nor part of a comment. -/
structure ContentAt (text : List Char) (start place : Nat) : Prop where
  inside : place < text.length
  content : EndsOnContent (Span.slice ⟨start, place + 1⟩ text)

theorem ContentAt.exists_char (at_place : ContentAt text start place) (after : start ≤ place) :
    ∃ c, text[place]? = some c ∧ isWhite c = false := by
  have found := List.getElem?_eq_getElem at_place.inside
  obtain ⟨c, last, written⟩ := at_place.content.written
  rw [Span.slice_concat after found, List.getLast?_concat] at last
  exact ⟨c, found.trans last, written⟩

/-- The last line of a stretch of text that breaks off on a line. -/
theorem getLast?_splitLines_slice (here : IsLine text start limit line)
    (begins : line.start ≤ place) (ends : place < line.stop) :
    (splitLines (Span.slice ⟨start, place + 1⟩ text)).getLast? =
      some (Span.slice ⟨line.start, place + 1⟩ text) := by
  have plain : '\n' ∉ Span.slice ⟨line.start, place + 1⟩ text := by
    intro feed
    refine here.plain ?_
    rw [← Span.slice_append (Nat.le_succ_of_le begins) ends]
    exact List.mem_append_left _ feed
  rcases here.begins with same | ⟨after, feed⟩
  · rw [← same, Text.splitLines_of_not_mem plain, List.getLast?_singleton]
  · have cut : Span.slice ⟨start, place + 1⟩ text =
        Span.slice ⟨start, line.start - 1⟩ text ++
          '\n' :: Span.slice ⟨line.start, place + 1⟩ text := by
      rw [← Span.slice_append (show start ≤ line.start - 1 by omega) (by omega),
        Span.slice_eq_cons (by omega) feed, Nat.sub_add_cancel (by omega)]
    obtain ⟨front, last, lines⟩ := Text.exists_splitLines_concat
      (Span.slice ⟨start, line.start - 1⟩ text)
    have own : splitLines ('\n' :: Span.slice ⟨line.start, place + 1⟩ text) =
        [] :: [Span.slice ⟨line.start, place + 1⟩ text] := by
      rw [splitLines, if_pos rfl, Text.splitLines_of_not_mem plain]
    rw [cut, Text.splitLines_append lines own, List.append_cons, List.getLast?_concat]

theorem ContentAt.not_isVacant (at_place : ContentAt text start place)
    (here : IsLine text start limit line) (begins : line.start ≤ place)
    (ends : place < line.stop) : ¬ IsVacant (line.slice text) := by
  intro vacant
  have last := getLast?_splitLines_slice here begins ends
  obtain ⟨c, found, written⟩ :=
    at_place.exists_char (Nat.le_trans here.le_start begins)
  have final : c ∈ (Span.slice ⟨line.start, place + 1⟩ text).getLast? := by
    rw [Span.slice_concat begins found, List.getLast?_concat]
    rfl
  rw [← Span.slice_append (Nat.le_succ_of_le begins) ends] at vacant
  obtain ⟨blanks, note, same, blank⟩ := vacant.exists_hash final written
  exact at_place.content.uncommented _ last
    ⟨blanks, note, same, opensComment_append [] blank (.inl rfl)⟩

/-- The lines that a block scalar does not count are vacant. -/
theorem isVacant_of_isBlank (blank : IsBlank text line) : IsVacant (line.slice text) :=
  ⟨line.slice text, [], (List.append_nil _).symm, List.all_eq_true.1 blank, .inl rfl⟩

theorem isVacant_of_isComment (comment : IsComment text line) : IsVacant (line.slice text) := by
  have spaces (c : Char) (member : c ∈ (line.slice text).takeWhile (· == ' ')) :
      isWhite c = true := by
    have space := List.mem_takeWhile_imp (p := (· == ' ')) member
    rw [beq_iff_eq.1 space]
    exact Text.isWhite_space
  refine ⟨(line.slice text).takeWhile (· == ' '),
    (line.slice text).drop (indentation text line), ?_, spaces, .inr ⟨comment, ?_⟩⟩
  · exact (List.prefix_iff_eq_append.1 (List.takeWhile_prefix _)).symm
  · exact fun c last => spaces c (List.mem_of_getLast? last)

/-! ## Ends before an event -/

/-- A block scalar before an event reaches just over the content that stands before the event. -/
theorem lt_blockEnd_iff (nextIn : next ≤ text.length) (after : start ≤ place)
    (at_place : ContentAt text start place) : place < blockEnd text start next ↔ place < next := by
  have inside := at_place.inside
  obtain ⟨c, found, written⟩ := at_place.exists_char after
  have feed : c ≠ '\n' := by
    rintro rfl
    rw [Text.isWhite_lineFeed] at written
    cases written
  have limitIn : max start next ≤ text.length := Nat.max_le.2 ⟨by omega, nextIn⟩
  obtain ⟨headerEnd, first, same⟩ := blockEnd_cases (show start ≤ text.length by omega) nextIn
  have header := isLine_of_firstIn (Nat.le_max_left start next) first
  have forward : start ≤ headerEnd := header.forward
  rw [same]
  split
  · omega
  · have ends := ends_of_start limitIn (headerEnd + 1) (headerEnd + 1)
    constructor
    · intro before
      have most := ends.le_max
      omega
    · intro before
      -- Content below the header stands on a line that counts, and the header counts in any case.
      rcases Nat.lt_or_ge headerEnd place with past | front
      · obtain ⟨line, here, begins, on⟩ :=
          exists_isLine limitIn (headerEnd + 1) past (by omega) found feed
        have content := at_place.not_isVacant ((isLine_iff header).2 (.inr here)) begins on
        refine ends.lt_of_not_skips here here.le_start on ?_
        rintro (blank | ⟨comment, -⟩)
        · exact content (isVacant_of_isBlank blank)
        · exact content (isVacant_of_isComment comment)
      · refine Nat.lt_of_le_of_lt front ?_
        exact le_lastBlockLineEnd _ none (Nat.le_refl _) (Nat.le_refl _)

/-- A folded plain scalar before an event reaches just over the content that stands before the
event. -/
theorem lt_plainEnd_iff (nextIn : next ≤ text.length) (after : mark < place)
    (folded : standsVerbatim text value mark = false) (at_place : ContentAt text mark place) :
    place < plainEnd text value mark next ↔ place < next := by
  have inside := at_place.inside
  have limitIn : max mark next ≤ text.length := Nat.max_le.2 ⟨by omega, nextIn⟩
  rw [plainEnd_of_folded (by rw [← standsVerbatim_iff, folded]; exact Bool.false_ne_true)]
  constructor
  · intro before
    have most := lastContentEnd_le limitIn (Nat.le_max_left mark next)
    omega
  · intro before
    have past := lt_lastContentEnd limitIn (Nat.le_of_lt after)
      (Nat.lt_of_lt_of_le before (Nat.le_max_right mark next)) at_place.content
    omega

end Extent

/-- A scalar whose end is looked for in the text before the next event: a block scalar, or a plain
one that is not written as its value. -/
def Scalar.EndsBeforeEvent (s : Scalar) : Prop :=
  s.style.isBlock = true ∨ (s.style = .plain ∧ s.raw ≠ s.value)

namespace Composer

open Extent (ContentAt)

variable {text : List Char} {all : List PlacedEvent} {fuel : Nat} {emptyAt : Option Nat}

/-! ## Nodes that start before their event -/

/-- An event that stands behind the place at which its node starts. A block scalar is marked at its
content, below its header, and a block mapping at its first colon, behind its first key. -/
inductive MarkedBehind (text : List Char) (start : Nat) : PlacedEvent → Prop where
  | header {mark : Nat} {style : Yaml.Style} {value : List Char} (block : style.isBlock = true)
      (behind : start < mark) : MarkedBehind text start ⟨mark, .scalar style value⟩
  | key {mark : Nat} (block : opensAt text mark '\x7b' = false) (behind : start < mark) :
      MarkedBehind text start ⟨mark, .mappingStart⟩

theorem start_scalar (text : List Char) {style : Yaml.Style} (value : List Char) (mark : Nat)
    (rest : List PlacedEvent) (inline : style.isBlock = false) :
    (scalar text style value mark none rest).span.start = mark := by
  unfold scalar
  split
  · rfl
  · cases style with
    | literal => cases inline
    | folded => cases inline
    | _ => rfl

/-- A node starts at its event, unless that is marked behind. -/
theorem start_node_lt_iff (text : List Char) (fuel : Nat) (next : PlacedEvent)
    (rest : List PlacedEvent) :
    (node text (fuel + 1) none (next :: rest)).1.span.start < next.offset ↔
      MarkedBehind text (node text (fuel + 1) none (next :: rest)).1.span.start next := by
  constructor
  · intro behind
    obtain ⟨mark, event⟩ := next
    cases event with
    | scalar style value =>
        refine .header ?_ behind
        cases block : style.isBlock with
        | true => rfl
        | false =>
            simp only [node, Node.span, start_scalar text value mark rest block] at behind
            exact absurd behind (Nat.lt_irrefl _)
    | mappingStart =>
        refine .key ?_ behind
        cases flow : opensAt text mark '\x7b' with
        | false => rfl
        | true =>
            simp only [node, mappingOf, Node.span, flow, if_true] at behind
            exact absurd behind (Nat.lt_irrefl _)
    | sequenceStart =>
        simp only [node, sequenceOf.eq_def] at behind
        split at behind <;> exact absurd behind (Nat.lt_irrefl _)
    | _ =>
        simp only [node] at behind
        exact absurd behind (Nat.lt_irrefl _)
  · rintro (⟨-, behind⟩ | ⟨-, behind⟩)
    · exact behind
    · exact behind

/-! ## A scalar and the node behind it -/

theorem not_endsBeforeEvent_empty (offset : Nat) : ¬ (emptyScalar offset).EndsBeforeEvent := by
  rintro (block | ⟨-, folded⟩)
  · cases block
  · exact folded rfl

theorem not_endsBeforeEvent_reference (text : List Char) (mark : Nat) :
    ¬ (reference text mark).EndsBeforeEvent := by
  rintro (block | ⟨-, folded⟩)
  · cases block
  · exact folded rfl

/-- A scalar whose end is looked for is made of an event, and the events behind it are left. -/
theorem exists_event_of_endsBeforeEvent {events : List PlacedEvent} {s : Scalar}
    (made : (node text fuel emptyAt events).1 = .scalar s) (looked : s.EndsBeforeEvent) :
    ∃ mark style value rest, events = ⟨mark, .scalar style value⟩ :: rest ∧
      (node text fuel emptyAt events).2 = rest ∧
      s = scalarOver text (scalarSpan text value style mark (nextOffset text rest)) value
        style := by
  have unwritten {offset : Nat} (same : Node.scalar (emptyScalar offset) = .scalar s) : False :=
    not_endsBeforeEvent_empty offset (Node.scalar.inj same ▸ looked)
  cases fuel with
  | zero => exact (unwritten made).elim
  | succ fuel =>
      cases events with
      | nil => exact (unwritten made).elim
      | cons next rest =>
          obtain ⟨mark, event⟩ := next
          cases event with
          | scalar style value =>
              simp only [node, scalar] at made
              split at made
              · exact (unwritten made).elim
              · exact ⟨mark, style, value, rest, rfl, by simp only [node],
                  (Node.scalar.inj made).symm⟩
          | reference =>
              simp only [node] at made
              exact (not_endsBeforeEvent_reference text mark (Node.scalar.inj made ▸ looked)).elim
          | sequenceStart =>
              simp only [node, sequenceOf.eq_def] at made
              split at made <;> cases made
          | mappingStart =>
              simp only [node, mappingOf] at made
              cases made
          | _ =>
              simp only [node] at made
              exact (unwritten made).elim

/-- Such a scalar reaches just over the content that stands before the next event. -/
theorem lt_stop_scalarOver_iff {value : List Char} {style : Yaml.Style} {mark next place : Nat} :
    let s := scalarOver text (scalarSpan text value style mark next) value style
    s.EndsBeforeEvent → next ≤ text.length → s.span.start < place →
      ContentAt text s.span.start place → (place < s.span.stop ↔ place < next) := by
  intro s looked nextIn after at_place
  rcases looked with block | ⟨plain, folded⟩
  · cases style with
    | literal => exact Extent.lt_blockEnd_iff nextIn (Nat.le_of_lt after) at_place
    | folded => exact Extent.lt_blockEnd_iff nextIn (Nat.le_of_lt after) at_place
    | _ => cases block
  · obtain rfl : style = .plain := plain
    refine Extent.lt_plainEnd_iff nextIn after ?_ at_place
    refine Bool.eq_false_iff.2 fun verbatim => folded ?_
    have begins := (Extent.standsVerbatim_iff.1 verbatim).2
    have stop : Extent.plainEnd text value mark next = mark + value.length := by
      rw [Extent.plainEnd, if_pos verbatim]
    have same : Span.slice ⟨mark, mark + value.length⟩ text = value := by
      rw [Span.slice, Span.length, Nat.add_sub_cancel_left]
      exact (List.prefix_iff_eq_take.1 begins).symm
    simp only [s, scalarOver, scalarSpan, stop, same]

/-- A scalar whose end is looked for and the node behind it overlap just if that node is marked
behind its start. -/
theorem lt_stop_iff_markedBehind {events : List PlacedEvent} {s : Scalar} {start : Nat}
    (inText : ∀ event ∈ events, event.offset ≤ text.length)
    (made : (node text fuel emptyAt events).1 = .scalar s) (looked : s.EndsBeforeEvent)
    (behind : ∃ fuel',
      start = (node text fuel' none (node text fuel emptyAt events).2).1.span.start)
    (after : s.span.start < start) (at_start : ContentAt text s.span.start start) :
    ∃ mark next rest, events = ⟨mark, .scalar s.style s.value.toList⟩ :: next :: rest ∧
      (start < s.span.stop ↔ MarkedBehind text start next) := by
  obtain ⟨mark, style, value, rest, rfl, left, rfl⟩ := exists_event_of_endsBeforeEvent made looked
  obtain ⟨fuel', starts⟩ := behind
  rw [left] at starts
  have inside := at_start.inside
  -- Where nothing follows, nothing starts in the text.
  cases fuel' with
  | zero =>
      rw [starts] at inside
      exact absurd inside (Nat.lt_irrefl _)
  | succ fuel' =>
      cases rest with
      | nil =>
          rw [starts] at inside
          exact absurd inside (Nat.lt_irrefl _)
      | cons next rest =>
          have nextIn : next.offset ≤ text.length := inText next (by simp)
          have place : nextOffset text (next :: rest) = next.offset := Nat.min_eq_left nextIn
          rw [place] at looked after at_start ⊢
          refine ⟨mark, next, rest, ?_, ?_⟩
          · simp [scalarOver]
          · rw [lt_stop_scalarOver_iff looked nextIn after at_start, starts]
            exact start_node_lt_iff text fuel' next rest

end Composer

namespace Snapshot

open Extent (ContentAt)
open Composer (MarkedBehind)

/-- A scalar whose end is looked for and its neighbour in a tree overlap just if the event behind
the scalar is marked behind the start of the neighbour: it is that of a block scalar, or of a block
mapping. Then the tree is not well nested. -/
theorem overlap_iff_markedBehind {text : List Char} {root : Node} (read : tree text = .ok root)
    {element first second : Element} {front back : List Element} {s : Scalar}
    (holds : (Element.node root).Holds element)
    (neighbours : element.children = front ++ first :: second :: back)
    (scalar : first.value = .scalar s) (looked : s.EndsBeforeEvent)
    (after : s.span.start < second.span.start)
    (at_start : ContentAt text s.span.start second.span.start) :
    ∃ events mark next rest, Yaml.events text = .ok events ∧
      ⟨mark, .scalar s.style s.value.toList⟩ :: next :: rest <:+
        events.map (place (Yaml.lineStarts text) text.length) ∧
      (second.span.start < s.span.stop ↔ MarkedBehind text second.span.start next) ∧
      (MarkedBehind text second.span.start next → ¬ root.WellNested) := by
  obtain ⟨events, found, rfl⟩ := exists_events_of_tree read
  have chain := Composer.linked_root text _ element holds
  rw [neighbours, List.isChain_append] at chain
  obtain ⟨part, value, reach, start⟩ := (List.isChain_cons_cons.1 chain.2.1).1
  have inText : ∀ event ∈ events.map (place (Yaml.lineStarts text) text.length),
      event.offset ≤ text.length := by
    intro event member
    obtain ⟨marked, -, rfl⟩ := List.mem_map.1 member
    exact marked.mark.offset_le _ _
  rw [scalar] at value reach
  obtain ⟨mark, next, rest, rfl, overlaps⟩ := Composer.lt_stop_iff_markedBehind
    (fun event member => inText event (part.subset member)) value.symm looked ⟨_, start⟩ after
    at_start
  refine ⟨events, mark, next, rest, found, part, overlaps, fun behind nested => ?_⟩
  have ordered := (nested element holds).ordered
  rw [neighbours, List.isChain_append] at ordered
  have apart := (List.isChain_cons_cons.1 ordered.2.1).1
  have past : s.span.stop ≤ first.span.stop := reach
  have reaching := overlaps.2 behind
  omega

theorem contentAt_overlapping : ContentAt overlapping 2 12 := by
  refine ⟨by decide, ⟨'b', by decide, by decide⟩, ?_⟩
  rintro line last ⟨front, rest, rfl, -⟩
  have same : some (front ++ '#' :: rest) = some ['-', ' ', 'b'] := by
    rw [← Option.mem_def.1 last]
    decide
  have mark : '#' ∈ ['-', ' ', 'b'] := by
    rw [← Option.some.inj same]
    simp
  exact absurd mark (by decide)

/-- The block scalar reaches over the key of the mapping behind it. -/
theorem overlap_iff_markedBehind_overlapping :
    ∃ root first second, tree overlapping = .ok root ∧ root.children = [first, second] ∧
      first.span = ⟨2, 13⟩ ∧ second.span = ⟨12, 16⟩ ∧
      (∃ next, MarkedBehind overlapping 12 next) ∧ ¬ root.WellNested := by
  have checked : (tree overlapping).toOption.map
      (fun root => root.children.map fun child => (child.value.scalar?, child.span)) =
        some [(some ⟨⟨2, 13⟩, "foo\n", "|\n  foo\n- b", .literal⟩, ⟨2, 13⟩),
          (none, ⟨12, 16⟩)] := by
    decide +kernel
  cases read : tree overlapping with
  | error fault =>
      rw [read] at checked
      cases checked
  | ok root =>
      rw [read] at checked
      obtain ⟨first, others, both, own, later⟩ := List.map_eq_cons_iff.1 (Option.some.inj checked)
      obtain ⟨second, none, rfl, other, last⟩ := List.map_eq_cons_iff.1 later
      obtain rfl := List.map_eq_nil_iff.1 last
      obtain ⟨scalar, stands⟩ := Prod.mk.inj own
      have start : second.span.start = 12 := congrArg (·.2.start) other
      have children : (Element.node root).children = [] ++ first :: second :: [] := both
      obtain ⟨events, mark, next, rest, -, -, overlaps, fails⟩ :=
        overlap_iff_markedBehind read (.self _) children (Node.scalar?_eq_some.1 scalar)
          (.inl rfl) (by rw [start]; decide) (start ▸ contentAt_overlapping)
      have behind := overlaps.1 (by rw [start]; decide)
      exact ⟨root, first, second, rfl, both, stands, congrArg (·.2) other, ⟨next, start ▸ behind⟩,
        fails behind⟩

end Snapshot

end WorkflowScope
