import WorkflowScope.Proofs.Tree.Extents

/-!
# Chained events

The events of a text follow each other: each has a place of its own behind those before it, as far
as the text shows their ends. Marks of mappings may lie ahead of their first key, so a mapping may
be *loose*: then its first key stands no later than the mark.
-/

namespace WorkflowScope

/-- Where the next event stands: at the root, or in an open collection. Collections that are `own`
began at a bracket of theirs. -/
inductive Frame where
  | root
  | item (own : Bool)
  | key (own : Bool)
  | value (own : Bool)
  deriving DecidableEq, Repr

/-- The frames after a node. Nothing is expected after the root. -/
def Frame.afterNode : List Frame → List Frame
  | .root :: _ => []
  | .key own :: outer => .value own :: outer
  | .value own :: outer => .key own :: outer
  | frames => frames

open Composer (opensAt)
open Extent (shownEnd shownAliasEnd)

/-- Events from `lo` on, of which the first stands no later than `bound` if that is given. -/
inductive Chained (text : List Char) : List Frame → Nat → Option Nat → List PlacedEvent → Prop where
  | done {lo : Nat} {bound : Option Nat} {events : List PlacedEvent} :
      Chained text [] lo bound events
  /-- A missing value may be marked anywhere. -/
  | missing {own : Bool} {outer : List Frame} {lo mark : Nat} {bound : Option Nat}
      {rest : List PlacedEvent} (more : Chained text (.key own :: outer) lo none rest) :
      Chained text (.value own :: outer) lo bound (⟨mark, .empty⟩ :: rest)
  | scalar {frames : List Frame} {lo mark : Nat} (hi : Nat) {bound : Option Nat}
      {style : Yaml.Style} {value : List Char} {rest : List PlacedEvent}
      (behind : lo ≤ mark) (room : mark ≤ hi) (shown : shownEnd text value style mark ≤ hi)
      (inside : hi ≤ text.length) (bounded : ∀ b ∈ bound, mark ≤ b)
      (more : Chained text (Frame.afterNode frames) hi none rest) :
      Chained text frames lo bound (⟨mark, .scalar style value⟩ :: rest)
  | reference {frames : List Frame} {lo mark : Nat} (hi : Nat) {bound : Option Nat}
      {rest : List PlacedEvent}
      (behind : lo ≤ mark) (room : mark ≤ hi) (shown : shownAliasEnd text mark ≤ hi)
      (inside : hi ≤ text.length) (bounded : ∀ b ∈ bound, mark ≤ b)
      (more : Chained text (Frame.afterNode frames) hi none rest) :
      Chained text frames lo bound (⟨mark, .reference⟩ :: rest)
  /-- A sequence at a bracket is its own, or its first item stands at the bracket too. -/
  | sequence {frames : List Frame} {lo mark : Nat} (hi : Nat) {bound : Option Nat}
      (inner : Option Nat) (own : Bool) {rest : List PlacedEvent}
      (behind : lo ≤ mark) (room : mark ≤ hi) (inside : hi ≤ text.length)
      (bounded : ∀ b ∈ bound, mark ≤ b)
      (opening : opensAt text mark '[' = true → (own = true ∧ mark < hi) ∨ inner = some mark)
      (more : Chained text (.item own :: Frame.afterNode frames) hi inner rest) :
      Chained text frames lo bound (⟨mark, .sequenceStart⟩ :: rest)
  | sequenceEnd {own : Bool} {outer : List Frame} {lo mark : Nat} (hi : Nat)
      {rest : List PlacedEvent}
      (behind : lo ≤ hi) (inside : hi ≤ text.length)
      (closing : own = true → lo ≤ mark + 1 ∧ mark + 1 ≤ hi)
      (more : Chained text outer hi none rest) :
      Chained text (.item own :: outer) lo none (⟨mark, .sequenceEnd⟩ :: rest)
  /-- A mapping whose mark is the place at which it starts. -/
  | mapping {frames : List Frame} {lo mark : Nat} (hi : Nat) {bound : Option Nat} (own : Bool)
      {rest : List PlacedEvent}
      (behind : lo ≤ mark) (room : mark ≤ hi) (inside : hi ≤ text.length)
      (bounded : ∀ b ∈ bound, mark ≤ b)
      (opening : opensAt text mark '\x7b' = true → own = true ∧ mark < hi)
      (more : Chained text (.key own :: Frame.afterNode frames) hi none rest) :
      Chained text frames lo bound (⟨mark, .mappingStart⟩ :: rest)
  /-- A mapping whose first key stands no later than its mark. -/
  | loose {frames : List Frame} {lo mark : Nat} (hi inner : Nat) {bound : Option Nat} (own : Bool)
      {rest : List PlacedEvent}
      (behind : lo ≤ hi) (inside : hi ≤ text.length) (ahead : inner ≤ mark) (marked : lo ≤ mark)
      (bounded : ∀ b ∈ bound, inner ≤ b)
      (opening : opensAt text mark '\x7b' = true → ∀ b ∈ bound, mark ≤ b)
      (more : Chained text (.key own :: Frame.afterNode frames) hi (some inner) rest) :
      Chained text frames lo bound (⟨mark, .mappingStart⟩ :: rest)
  | mappingEnd {own : Bool} {outer : List Frame} {lo mark : Nat} (hi : Nat)
      {rest : List PlacedEvent}
      (behind : lo ≤ hi) (inside : hi ≤ text.length)
      (closing : own = true → lo ≤ mark + 1 ∧ mark + 1 ≤ hi)
      (more : Chained text outer hi none rest) :
      Chained text (.key own :: outer) lo none (⟨mark, .mappingEnd⟩ :: rest)

end WorkflowScope
