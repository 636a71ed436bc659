import WorkflowScope.Proofs.Tree.EventChain
import WorkflowScope.Proofs.Yaml.Ahead
import WorkflowScope.Tree.Snapshot

/-!
# Where the reader of tokens stands

The states of the grammar that wait are the collections that are open; the state that has been
reached tells where the next event may stand. Every event leaves less to do.
-/

namespace WorkflowScope.Yaml.Grammar

open Composer (opensAt)

/-! ## How many events are still to come -/

/-- A bound on the events before a token is read, when the next token is known. -/
def State.weight (next : Option Token) : State → Nat
  | .flowPairKey => 3
  | .flowPairValue => 2
  | .flowPairEnd | .flowMappingValue | .flowMappingEmptyValue => 1
  | .documentEnd | .blockNode | .documentContent => 1
  | .blockMappingKey => if next = some .value then 1 else 0
  | .blockMappingValue => if next = some .value then 0 else 1
  | .indentlessSequenceEntry => if next = some .blockEntry then 0 else 1
  | _ => 0

theorem State.weight_le (next : Option Token) (state : State) : state.weight next ≤ 3 := by
  cases state <;> simp only [State.weight] <;> first | omega | (split <;> omega)

/-- What the tokens to read and the states to return to can make of events. -/
def Reader.backlog (r : Reader) : Nat :=
  8 * r.tokens.length + 2 * r.stack.length

def Reader.effort (r : Reader) : Nat :=
  r.backlog + r.state.weight (r.tokens.head?.map (·.token))

theorem Reader.effort_le (r : Reader) : r.effort ≤ r.backlog + 3 := by
  have weight := State.weight_le (r.tokens.head?.map (·.token)) r.state
  simp only [Reader.effort]
  omega

/-! ## Which collections are open -/

/-- The states inside of flow collections that follow a node. -/
def State.followsInFlow : State → Bool
  | .flowSequenceEntry | .flowPairValue | .flowPairEnd => true
  | .flowMappingKey | .flowMappingValue | .flowMappingEmptyValue => true
  | _ => false

/-- The frames of the states that wait. -/
inductive Stacked : List State → List Frame → Prop where
  | document {states : List State} : Stacked (.documentEnd :: states) []
  | blockSequence {states : List State} {frames : List Frame} (outer : Stacked states frames) :
      Stacked (.blockSequenceEntry :: states) (.item false :: frames)
  | indentlessSequence {states : List State} {frames : List Frame} (outer : Stacked states frames) :
      Stacked (.indentlessSequenceEntry :: states) (.item false :: frames)
  | blockKey {states : List State} {frames : List Frame} (outer : Stacked states frames) :
      Stacked (.blockMappingKey :: states) (.key false :: frames)
  | blockValue {states : List State} {frames : List Frame} (outer : Stacked states frames) :
      Stacked (.blockMappingValue :: states) (.value false :: frames)
  | flowSequence {states : List State} {frames : List Frame} (outer : Stacked states frames) :
      Stacked (.flowSequenceEntry :: states) (.item true :: frames)
  | pairValue {states : List State} {frames : List Frame} (outer : Stacked states frames) :
      Stacked (.flowPairValue :: states) (.value false :: .item true :: frames)
  | pairEnd {states : List State} {frames : List Frame} (outer : Stacked states frames) :
      Stacked (.flowPairEnd :: states) (.key false :: .item true :: frames)
  | flowKey {states : List State} {frames : List Frame} (outer : Stacked states frames) :
      Stacked (.flowMappingKey :: states) (.key true :: frames)
  | flowValue {states : List State} {frames : List Frame} (outer : Stacked states frames) :
      Stacked (.flowMappingValue :: states) (.value true :: frames)
  | flowEmptyValue {states : List State} {frames : List Frame} (outer : Stacked states frames) :
      Stacked (.flowMappingEmptyValue :: states) (.value true :: frames)

theorem Stacked.exists_cons {states : List State} {frames : List Frame}
    (stacked : Stacked states frames) : ∃ state rest, states = state :: rest := by
  cases stacked <;> exact ⟨_, _, rfl⟩

/-- The next event may stand from `lo` on. After a flow mapping without braces that is a character
further than the tokens tell; before a block mapping in a flow collection, which is refused, it does
not matter. -/
def Level (r : Reader) (s : Room) (lo : Nat) : Prop :=
  lo ≤ s.lo ∨ (s.closing = true ∧ lo ≤ s.lo + 1) ∨
    (r.state.followsInFlow = true ∧ ∃ token rest, r.tokens = token :: rest ∧
      token.token = .blockMappingStart)

/-- The reader stands in the given frames, where the next event may stand from `lo` on and no later
than `bound`. -/
inductive Ready (text : List Char) (r : Reader) : List Frame → Nat → Option Nat → Prop where
  | finished {lo : Nat} {bound : Option Nat} : Ready text r [] lo bound
  | root {s : Room} {lo : Nat} (state : r.state = .blockNode ∨ r.state = .documentContent)
      (stacked : Stacked r.stack []) (ahead : Ahead text s r.tokens) (level : lo ≤ s.lo) :
      Ready text r [.root] lo none
  | entry {s : Room} {lo : Nat} {frames : List Frame} (stacked : Stacked (r.state :: r.stack) frames)
      (ahead : Ahead text s r.tokens) (level : Level r s lo) (inside : lo ≤ text.length) :
      Ready text r frames lo none
  | dash {s : Room} {token : ReadToken} {rest : List ReadToken} {outer : List Frame}
      (state : r.state = .indentlessSequenceEntry) (tokens : r.tokens = token :: rest)
      (entry : token.token = .blockEntry) (stacked : Stacked r.stack outer)
      (ahead : Ahead text s r.tokens) :
      Ready text r (.item false :: outer) (token.mark.offsetIn text)
        (if opensAt text (token.mark.offsetIn text) '[' then some (token.mark.offsetIn text)
          else none)
  | firstItem {s : Room} {lo : Nat} {token : ReadToken} {rest : List ReadToken} {own : Bool}
      {outer : List Frame}
      (state : r.state = if own then .flowSequenceFirstEntry else .blockSequenceFirstEntry)
      (tokens : r.tokens = token :: rest) (stacked : Stacked r.stack outer)
      (ahead : Ahead text s rest) (level : lo ≤ s.lo) :
      Ready text r (.item own :: outer) lo none
  | firstKey {s : Room} {lo : Nat} {bound : Option Nat} {token : ReadToken} {rest : List ReadToken}
      {own : Bool} {outer : List Frame}
      (state : r.state = if own then .flowMappingFirstKey else .blockMappingFirstKey)
      (tokens : r.tokens = token :: rest) (stacked : Stacked r.stack outer)
      (ahead : Ahead text s rest) (level : lo ≤ s.lo)
      (under : ∀ b ∈ bound, s.Under b ∧ s.fresh = true) :
      Ready text r (.key own :: outer) lo bound
  | pairKey {s : Room} {lo : Nat} {bound : Option Nat} {outer : List Frame}
      (state : r.state = .flowPairKey) (stacked : Stacked r.stack outer)
      (ahead : Ahead text s r.tokens) (level : lo ≤ s.lo) (under : ∀ b ∈ bound, s.Under b) :
      Ready text r (.key false :: .item true :: outer) lo bound

/-- An event continues a chain of events, and what the reader makes of the rest is one. -/
structure Emits (text : List Char) (frames : List Frame) (lo : Nat) (bound : Option Nat)
    (effort : Nat) (event : MarkedEvent) (after : Reader) : Prop where
  running : event.event ≠ .streamEnd
  less : after.effort < effort
  chains : ∀ events, (∀ frames lo bound, Ready text after frames lo bound →
    Chained text frames lo bound events) →
    Chained text frames lo bound (⟨event.mark.offsetIn text, event.event⟩ :: events)
end WorkflowScope.Yaml.Grammar
