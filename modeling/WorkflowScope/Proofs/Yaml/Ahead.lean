import WorkflowScope.Proofs.Yaml.Room

/-!
# Tokens ahead

What a reader of tokens that take their places one after the other knows of the next token: where it
stands, and that it stands no later than some offset.
-/

namespace WorkflowScope.Yaml

open Composer (opensAt)

def ReadToken.marked (token : ReadToken) : MarkedToken :=
  ⟨token.mark, token.token⟩

namespace Room

/-- The next token stands no later than `b`, whatever it is. -/
def Under (s : Room) (b : Nat) : Prop :=
  (s.touch = true ∧ s.lo ≤ b) ∨ ∃ c ∈ s.cap, c ≤ b

theorem Under.min {s : Room} {a b : Nat} (first : s.Under a) (second : s.Under b) :
    s.Under (min a b) := by
  rcases Nat.le_total a b with le | le
  · rwa [Nat.min_eq_left le]
  · rwa [Nat.min_eq_right le]

theorem Under.mark_le {text : List Char} {s : Room} {mark hi b : Nat} {token : Token}
    (under : s.Under b) (fit : Solid text s mark token hi) : mark ≤ b := by
  rcases under with ⟨touch, le⟩ | ⟨c, cap, le⟩
  · exact (fit.touching touch).1 ▸ le
  · exact Nat.le_trans (fit.capped c cap) le

theorem Under.le_of_takes {text : List Char} {s t : Room} {mark b : Nat} {token : Token}
    (under : s.Under b) (takes : Takes text s mark token t) (block : token ≠ .blockMappingStart)
    (start : token ≠ .flowMappingStart) : mark ≤ b := by
  cases takes with
  | solid fit => exact under.mark_le fit
  | loose fit => rcases fit.start with ⟨rfl, _⟩ | ⟨rfl, _⟩ <;> contradiction
  | implicitEnd fit =>
      rcases under with ⟨touch, le⟩ | ⟨c, cap, le⟩
      · exact fit.touching touch ▸ le
      · exact Nat.le_trans (fit.capped c cap) le

/-- A bound stays in force behind a key. -/
theorem Under.key {text : List Char} {s : Room} {mark hi b : Nat} (under : s.Under b)
    (fit : Solid text s mark .key hi) : (s.after text mark .key hi).Under b := by
  rcases under with ⟨touch, le⟩ | ⟨c, cap, le⟩
  · have touches : s.touches text mark .key = true := by simp [touches, touch]
    refine .inl ⟨touches, ?_⟩
    have same := fit.next touches
    have start := (fit.touching touch).1
    simp only [after]
    omega
  · exact .inr ⟨c, by simpa [after] using cap, le⟩

/-- It stays in force behind an anchor or a tag, and only a cap can be one there. -/
theorem Under.property {text : List Char} {s : Room} {mark hi b : Nat} {token : Token}
    (under : s.Under b) (fit : Solid text s mark token hi) (property : token.isProperty = true) :
    (s.after text mark token hi).Under b := by
  rcases under with ⟨touch, -⟩ | ⟨c, cap, le⟩
  · rw [(fit.touching touch).2] at property
    cases property
  · have other : token ≠ .value := by
      rintro rfl
      cases property
    exact .inr ⟨c, by simpa [after, other] using cap, le⟩

/-- It stays in force behind the start of a mapping. -/
theorem Under.loose {text : List Char} {s : Room} {mark hi b : Nat} {token : Token}
    (under : s.Under b) (fit : Loose text s mark token hi) :
    Under { lo := hi, touch := s.touch, cap := some mark, fresh := true } b := by
  rcases under with ⟨touch, le⟩ | ⟨c, cap, le⟩
  · exact .inl ⟨touch, (fit.touching touch).symm ▸ le⟩
  · exact .inr ⟨mark, rfl, Nat.le_trans (fit.capped c cap) le⟩

end Room

/-- Tokens that have room in a text. -/
def Ahead (text : List Char) (s : Room) (tokens : List ReadToken) : Prop :=
  ∃ e, Run text s (tokens.map ReadToken.marked) e ∧ e.lo ≤ text.length

namespace Ahead

variable {text : List Char} {s : Room} {token : ReadToken} {rest : List ReadToken}

theorem inside {tokens : List ReadToken} (ahead : Ahead text s tokens) : s.lo ≤ text.length := by
  obtain ⟨e, run, inside⟩ := ahead
  exact Nat.le_trans run.le inside

theorem next (ahead : Ahead text s (token :: rest)) :
    ∃ t, Takes text s (token.mark.offsetIn text) token.token t ∧ Ahead text t rest := by
  obtain ⟨e, run, inside⟩ := ahead
  cases run with
  | cons takes more => exact ⟨_, takes, e, more, inside⟩

/-- A token that is read from the text stands where it does. -/
theorem solid (ahead : Ahead text s (token :: rest)) (read : token.token.isRead = true) :
    ∃ hi, Solid text s (token.mark.offsetIn text) token.token hi ∧
      Ahead text (s.after text (token.mark.offsetIn text) token.token hi) rest := by
  obtain ⟨t, takes, ahead⟩ := ahead.next
  obtain ⟨hi, fit, rfl⟩ := takes.exists_solid read
  exact ⟨hi, fit, ahead⟩

/-- What is before the mark of the next token is not needed. -/
theorem raise (ahead : Ahead text s (token :: rest)) (block : token.token ≠ .blockMappingStart)
    (start : token.token ≠ .flowMappingStart) :
    Ahead text { s with lo := token.mark.offsetIn text } (token :: rest) := by
  obtain ⟨e, run, inside⟩ := ahead
  cases run with
  | cons takes more => exact ⟨e, .cons (takes.raise block start) more, inside⟩

/-- All tokens that are to come stand where there is room. -/
theorem lo_le {tokens : List ReadToken} (ahead : Ahead text s tokens) :
    ∀ token ∈ tokens, s.lo ≤ token.mark.offsetIn text := by
  induction tokens generalizing s with
  | nil => nofun
  | cons token rest ih =>
      obtain ⟨t, takes, ahead⟩ := ahead.next
      intro other member
      rcases List.mem_cons.1 member with rfl | later
      · exact takes.behind
      · exact Nat.le_trans takes.le (ih ahead other later)

/-- No token stands before one that comes earlier and is read from the text. -/
theorem mark_le {tokens : List ReadToken} (ahead : Ahead text s tokens)
    (part : token :: rest <:+ tokens) (read : token.token.isRead = true) :
    ∀ other ∈ rest, token.mark.offsetIn text ≤ other.mark.offsetIn text := by
  induction tokens generalizing s with
  | nil => exact absurd (List.suffix_nil.1 part) (by simp)
  | cons first tokens ih =>
      rcases List.suffix_cons_iff.1 part with whole | inner
      · obtain ⟨rfl, rfl⟩ := List.cons.inj whole
        obtain ⟨hi, fit, ahead⟩ := ahead.solid read
        intro other member
        exact Nat.le_trans fit.room (ahead.lo_le other member)
      · obtain ⟨t, _, ahead⟩ := ahead.next
        exact ih ahead inner

end Ahead

end WorkflowScope.Yaml
