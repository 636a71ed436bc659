import WorkflowScope.Proofs.Tree.Extents
import WorkflowScope.Yaml.Tokenize

/-!
# Room for tokens

Tokens take up the text one after the other. The room that is left is told by the offset from which
on it is free, and by what is known of the next token: that it touches the tokens before, that the
tokens up to the next colon stand before some offset, that a key or a value is due, or that a flow
collection is about to end.
-/

namespace WorkflowScope.Yaml

open Composer (opensAt)

def Mark.offsetIn (text : List Char) (mark : Mark) : Nat :=
  mark.offset (lineStarts text) text.length

theorem Mark.offsetIn_le (text : List Char) (mark : Mark) : mark.offsetIn text ≤ text.length :=
  mark.offset_le _ _

namespace Token

/-- Anchors and tags, which stand before their node. -/
def isProperty : Token → Bool
  | .anchor _ | .tag _ => true
  | _ => false

/-- The tokens that end an entry of a flow collection. -/
def closes : Token → Bool
  | .flowEntry | .flowSequenceEnd | .flowMappingEnd => true
  | _ => false

def isRead : Token → Bool
  | .blockMappingStart | .flowMappingStart | .flowMappingEnd => false
  | _ => true

/-- How far a token shows itself to reach. -/
def shownEnd (text : List Char) (mark : Nat) : Token → Nat
  | .flowSequenceStart | .flowSequenceEnd | .flowMappingStart | .flowMappingEnd => mark + 1
  | .flowEntry | .value => mark + 1
  | .reference _ => Extent.shownAliasEnd text mark
  | .scalar style content => Extent.shownEnd text content style mark
  | _ => mark

end Token

/-- What is left for the next tokens. -/
structure Room where
  /-- Where it is free. -/
  lo : Nat
  /-- The next token stands just there. -/
  touch : Bool := false
  /-- The tokens up to the next colon stand no later. -/
  cap : Option Nat := none
  /-- A key or a value is due. -/
  fresh : Bool := false
  /-- The end of an entry of a flow collection is due. -/
  closing : Bool := false

namespace Room

/-- The same room, or one from further on. -/
structure Below (s t : Room) : Prop where
  lo_le : s.lo ≤ t.lo
  touch_eq : s.touch = t.touch
  cap_eq : s.cap = t.cap
  fresh_eq : s.fresh = t.fresh
  closing_eq : s.closing = t.closing
  touching : t.touch = true → s.lo = t.lo

theorem Below.refl (s : Room) : s.Below s :=
  ⟨Nat.le_refl _, rfl, rfl, rfl, rfl, fun _ => rfl⟩

theorem Below.trans {s t u : Room} (first : s.Below t) (second : t.Below u) : s.Below u where
  lo_le := Nat.le_trans first.lo_le second.lo_le
  touch_eq := first.touch_eq.trans second.touch_eq
  cap_eq := first.cap_eq.trans second.cap_eq
  fresh_eq := first.fresh_eq.trans second.fresh_eq
  closing_eq := first.closing_eq.trans second.closing_eq
  touching touch :=
    (first.touching (second.touch_eq.trans touch)).trans (second.touching touch)

/-- A token behind which the next one stands at once: a dash or a key at a bracket. -/
def touches (text : List Char) (s : Room) (mark : Nat) : Token → Bool
  | .blockEntry => opensAt text mark '['
  | .key => s.touch || opensAt text mark '\x7b'
  | _ => false

def after (text : List Char) (s : Room) (mark : Nat) (token : Token) (hi : Nat) : Room :=
  { lo := hi
    touch := s.touches text mark token
    cap := if token = .value then none else s.cap }

end Room

/-- A token that stands where its mark is and ends at `hi`. -/
structure Solid (text : List Char) (s : Room) (mark : Nat) (token : Token) (hi : Nat) : Prop where
  behind : s.lo ≤ mark
  room : mark ≤ hi
  shown : token.shownEnd text mark ≤ hi
  capped : ∀ b ∈ s.cap, mark ≤ b
  touching : s.touch = true → mark = s.lo ∧ token.isProperty = false
  due : s.fresh = true → token = .key ∨ token = .value
  closing : s.closing = true → token.closes = true
  sequence : token = .blockSequenceStart → opensAt text mark '[' = false
  mapping : token = .blockMappingStart → opensAt text mark '\x7b' = false
  next : s.touches text mark token = true → hi = mark

/-- The start of a mapping that is put before its first key when the colon has been read. -/
structure Loose (text : List Char) (s : Room) (mark : Nat) (token : Token) (hi : Nat) : Prop where
  behind : s.lo ≤ mark
  room : s.lo ≤ hi
  start : (token = .blockMappingStart ∧ opensAt text mark '\x7b' = false) ∨
    (token = .flowMappingStart ∧ s.touch = false)
  capped : ∀ b ∈ s.cap, mark ≤ b
  touching : s.touch = true → hi = s.lo
  due : s.fresh = false
  closing : s.closing = false

/-- The end of a flow mapping without braces, at the token that ends the entry. -/
structure ImplicitEnd (text : List Char) (s : Room) (mark hi : Nat) : Prop where
  behind : s.lo ≤ mark
  room : mark ≤ hi
  inside : mark < text.length
  capped : ∀ b ∈ s.cap, mark ≤ b
  touching : s.touch = true → mark = s.lo
  due : s.fresh = false
  closing : s.closing = false

/-- A token at `mark` takes its place in a room. -/
inductive Takes (text : List Char) (s : Room) (mark : Nat) : Token → Room → Prop where
  | solid {token : Token} {hi : Nat} (fit : Solid text s mark token hi) :
      Takes text s mark token (s.after text mark token hi)
  | loose {token : Token} {hi : Nat} (fit : Loose text s mark token hi) :
      Takes text s mark token { lo := hi, touch := s.touch, cap := some mark, fresh := true }
  | implicitEnd {hi : Nat} (fit : ImplicitEnd text s mark hi) :
      Takes text s mark .flowMappingEnd { lo := hi, cap := s.cap, closing := true }

/-- Tokens take their places one after the other. -/
inductive Run (text : List Char) : Room → List MarkedToken → Room → Prop where
  | nil {s e : Room} (below : s.Below e) : Run text s [] e
  | cons {s next e : Room} {token : MarkedToken} {rest : List MarkedToken}
      (takes : Takes text s (token.mark.offsetIn text) token.token next)
      (more : Run text next rest e) : Run text s (token :: rest) e

namespace Takes

variable {text : List Char} {s t : Room} {mark : Nat} {token : Token}

theorem le (takes : Takes text s mark token t) : s.lo ≤ t.lo := by
  cases takes with
  | solid fit => exact Nat.le_trans fit.behind fit.room
  | loose fit => exact fit.room
  | implicitEnd fit => exact Nat.le_trans fit.behind fit.room

theorem behind (takes : Takes text s mark token t) : s.lo ≤ mark := by
  cases takes with
  | solid fit => exact fit.behind
  | loose fit => exact fit.behind
  | implicitEnd fit => exact fit.behind

theorem capped (takes : Takes text s mark token t) : ∀ b ∈ s.cap, mark ≤ b := by
  cases takes with
  | solid fit => exact fit.capped
  | loose fit => exact fit.capped
  | implicitEnd fit => exact fit.capped

/-- Only the start of a mapping is loose, and only the end of one is implicit. -/
theorem exists_solid (takes : Takes text s mark token t) (read : token.isRead = true) :
    ∃ hi, Solid text s mark token hi ∧ t = s.after text mark token hi := by
  cases takes with
  | solid fit => exact ⟨_, fit, rfl⟩
  | loose fit => rcases fit.start with ⟨rfl, _⟩ | ⟨rfl, _⟩ <;> cases read
  | implicitEnd fit => cases read

/-- What fits into a room fits into one from further back. -/
theorem lower {r : Room} (below : r.Below s) (takes : Takes text s mark token t) :
    Takes text r mark token t := by
  obtain ⟨lo, touch, cap, fresh, closing⟩ := r
  obtain ⟨lo', touch', cap', fresh', closing'⟩ := s
  obtain ⟨lo_le, rfl, rfl, rfl, rfl, touching⟩ := below
  simp only at lo_le touching
  cases takes with
  | solid fit =>
      have touched : touch = true → mark = lo ∧ token.isProperty = false := fun touch =>
        ⟨(fit.touching touch).1.trans (touching touch).symm, (fit.touching touch).2⟩
      exact .solid { fit with behind := Nat.le_trans lo_le fit.behind, touching := touched }
  | loose fit =>
      have touched : touch = true → _ = lo := fun touch =>
        (fit.touching touch).trans (touching touch).symm
      exact .loose
        { fit with
          behind := Nat.le_trans lo_le fit.behind
          room := Nat.le_trans lo_le fit.room
          touching := touched }
  | implicitEnd fit =>
      have touched : touch = true → mark = lo := fun touch =>
        (fit.touching touch).trans (touching touch).symm
      exact .implicitEnd { fit with behind := Nat.le_trans lo_le fit.behind, touching := touched }

/-- A token that is not loose fits from its mark on. -/
theorem raise (takes : Takes text s mark token t) (block : token ≠ .blockMappingStart)
    (start : token ≠ .flowMappingStart) : Takes text { s with lo := mark } mark token t := by
  cases takes with
  | solid fit =>
      exact .solid
        { fit with
          behind := Nat.le_refl _
          touching := fun touch => ⟨rfl, (fit.touching touch).2⟩ }
  | loose fit => rcases fit.start with ⟨rfl, _⟩ | ⟨rfl, _⟩ <;> contradiction
  | implicitEnd fit => exact .implicitEnd { fit with behind := Nat.le_refl _, touching := fun _ => rfl }

end Takes

namespace Run

variable {text : List Char} {s t e : Room} {tokens more : List MarkedToken}

theorem le (run : Run text s tokens e) : s.lo ≤ e.lo := by
  induction run with
  | nil below => exact below.lo_le
  | cons takes _ ih => exact Nat.le_trans takes.le ih

theorem lower (below : s.Below t) (run : Run text t tokens e) : Run text s tokens e := by
  cases run with
  | nil rest => exact .nil (below.trans rest)
  | cons takes more => exact .cons (takes.lower below) more

theorem append (run : Run text s tokens t) (rest : Run text t more e) :
    Run text s (tokens ++ more) e := by
  induction run with
  | nil below => exact rest.lower below
  | cons takes _ ih => exact .cons takes (ih rest)

end Run

end WorkflowScope.Yaml
