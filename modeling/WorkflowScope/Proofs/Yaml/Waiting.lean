import WorkflowScope.Proofs.Yaml.Room

/-!
# Tokens that wait for a key

The waiting tokens take their places one after the other, and they still do when a key, and the
start of its mapping before it, are put at a place where a simple key was possible.
-/

namespace WorkflowScope.Yaml

open Composer (opensAt)

/-- The room in which a token that may begin a key stands, when the key would stand at `start`. -/
structure KeyPlace (text : List Char) (outer : List SimpleKey) (room : Room) (start : Nat)
    (token : MarkedToken) (hi : Nat) : Prop where
  behind : room.lo ≤ start
  cap_eq : room.cap = none
  fresh_eq : room.fresh = false
  closing_eq : room.closing = false
  touching : room.touch = true → room.lo = start ∧ outer.length = 0
  fit : Solid text { room with lo := start } (token.mark.offsetIn text) token.token hi
  brace : opensAt text start '\x7b' = true →
    token.mark.offsetIn text = start ∧ token.token.isProperty = false
  other : token.token ≠ .key

/-- The waiting tokens run from a room to another, past the places of the possible keys. -/
inductive Waits (text : List Char) (gone : Nat) (s : Room) :
    List SimpleKey → List MarkedToken → Room → Prop where
  | run {queue : List MarkedToken} {e : Room} (run : Run text s queue e) : Waits text gone s [] queue e
  | skip {key : SimpleKey} {keys : List SimpleKey} {queue : List MarkedToken} {e : Room}
      (given : key.possible = false) (rest : Waits text gone s keys queue e) :
      Waits text gone s (key :: keys) queue e
  | hold {key : SimpleKey} {keys : List SimpleKey} {before later : List MarkedToken}
      {token : MarkedToken} {room e : Room} {hi : Nat} (possible : key.possible = true)
      (rest : Waits text gone s keys before room) (number : gone + before.length = key.number)
      (place : KeyPlace text keys room (key.mark.offsetIn text) token hi)
      (more : Run text (Room.after text { room with lo := key.mark.offsetIn text }
        (token.mark.offsetIn text) token.token hi) later e) :
      Waits text gone s (key :: keys) (before ++ token :: later) e

/-- A key does not disturb the tokens from it on, but they know it. -/
theorem Room.touches_eq {text : List Char} {mark : Nat} {token : Token} (s t : Room)
    (other : token ≠ .key) : s.touches text mark token = t.touches text mark token := by
  cases token with
  | key => exact absurd rfl other
  | _ => rfl

/-- Tokens before an offset run in a room that is capped there. -/
theorem Run.withCap {text : List Char} {s e : Room} {tokens : List MarkedToken} {c : Nat}
    (run : Run text s tokens e) (marks : ∀ token ∈ tokens, token.mark.offsetIn text ≤ c) :
    ∃ cap, (cap = e.cap ∨ cap = some c) ∧
      Run text { s with cap := some c } tokens { e with cap := cap } := by
  induction run with
  | nil below =>
      refine ⟨some c, .inr rfl, .nil ?_⟩
      exact ⟨below.lo_le, below.touch_eq, rfl, below.fresh_eq, below.closing_eq, below.touching⟩
  | @cons s next e token rest takes more ih =>
      have here := marks token (by simp)
      have capped : ∀ b ∈ some c, token.mark.offsetIn text ≤ b := by
        intro b found
        cases found
        exact here
      obtain ⟨cap, same, later⟩ := ih fun other member => marks other (by simp [member])
      generalize given : token.token = kind at takes
      cases takes with
      | solid fit =>
          have first : Takes text { s with cap := some c } _ _ _ := .solid { fit with capped }
          rw [← given] at first
          by_cases value : kind = .value
          · refine ⟨e.cap, .inl rfl, .cons first ?_⟩
            simpa [Room.after, given, value, Room.touches] using more
          · refine ⟨cap, same, .cons first ?_⟩
            simpa [Room.after, given, value, Room.touches] using later
      | loose fit =>
          have first : Takes text { s with cap := some c } _ _ _ := .loose { fit with capped }
          rw [← given] at first
          exact ⟨e.cap, .inl rfl, .cons first more⟩
      | implicitEnd fit =>
          have first : Takes text { s with cap := some c } _ _ _ := .implicitEnd { fit with capped }
          rw [← given] at first
          exact ⟨cap, same, .cons first later⟩

namespace KeyPlace

variable {text : List Char} {outer : List SimpleKey} {room : Room} {start hi : Nat}
  {token : MarkedToken}

theorem below (place : KeyPlace text outer room start token hi) :
    room.Below { room with lo := start } :=
  ⟨place.behind, rfl, rfl, rfl, rfl, fun touch => (place.touching touch).1⟩

theorem of_length {keys : List SimpleKey} (place : KeyPlace text outer room start token hi)
    (same : keys.length = outer.length) : KeyPlace text keys room start token hi :=
  { place with touching := fun touch => same ▸ place.touching touch }

/-- A key has its place there. -/
theorem solid_key {r : Room} (place : KeyPlace text outer room start token hi)
    (lo : r.lo = room.lo) (touch : r.touch = room.touch) (closing : r.closing = false)
    (capped : ∀ b ∈ r.cap, start ≤ b) : Solid text r start .key start where
  behind := lo ▸ place.behind
  room := Nat.le_refl _
  shown := Nat.le_refl _
  capped := capped
  touching touched := ⟨lo ▸ (place.touching (touch ▸ touched)).1.symm, rfl⟩
  due _ := .inl rfl
  closing closes := by rw [closing] at closes; cases closes
  sequence := nofun
  mapping := nofun
  next _ := rfl

/-- Behind the key, too, the token stands in its place. -/
theorem run_key {later : List MarkedToken} {e : Room}
    (place : KeyPlace text outer room start token hi)
    (more : Run text (Room.after text { room with lo := start } (token.mark.offsetIn text) token.token hi)
      later e) :
    Run text { lo := start, touch := room.touch || opensAt text start '\x7b' } (token :: later) e := by
  have fit : Solid text { lo := start, touch := room.touch || opensAt text start '\x7b' }
      (token.mark.offsetIn text) token.token hi := by
    refine
      { place.fit with
        capped := nofun
        touching := fun touch => ?_
        due := nofun
        closing := nofun
        next := ?_ }
    · rcases Bool.or_eq_true_iff.1 touch with touched | opened
      · exact place.fit.touching touched
      · exact place.brace opened
    · rw [Room.touches_eq _ { room with lo := start } place.other]
      exact place.fit.next
  refine .cons (.solid fit) ?_
  have same : Room.after text { lo := start, touch := room.touch || opensAt text start '\x7b' }
      (token.mark.offsetIn text) token.token hi =
      Room.after text { room with lo := start } (token.mark.offsetIn text) token.token hi := by
    simp only [Room.after, place.cap_eq, Room.touches_eq _ { room with lo := start } place.other]
  rw [same]
  exact more

end KeyPlace

namespace Waits

variable {text : List Char} {gone : Nat} {s room e : Room} {key : SimpleKey}
  {keys : List SimpleKey} {queue more : List MarkedToken}

theorem append (waits : Waits text gone s keys queue room) (run : Run text room more e) :
    Waits text gone s keys (queue ++ more) e := by
  induction waits with
  | run first => exact .run (first.append run)
  | skip given _ ih => exact .skip given (ih run)
  | hold possible rest number place later =>
      rw [List.append_assoc, List.cons_append]
      exact .hold possible rest number place (later.append run)

/-- Without the innermost key. -/
theorem forget (waits : Waits text gone s (key :: keys) queue e) :
    Waits text gone s keys queue e := by
  cases waits with
  | skip _ rest => exact rest
  | hold _ rest _ place later =>
      exact rest.append (.lower place.below (.cons (.solid place.fit) later))

/-- Giving up keys leaves the tokens where they are. -/
theorem giveUp (gives : SimpleKey → Bool) (waits : Waits text gone s keys queue e) :
    Waits text gone s
      (keys.map fun key => if gives key then { key with possible := false } else key) queue e := by
  induction waits with
  | run run => exact .run run
  | skip given _ ih =>
      refine .skip ?_ ih
      beta_reduce
      split
      · rfl
      · exact given
  | @hold key _ _ _ _ _ _ _ possible _ number place later ih =>
      rw [List.map_cons]
      cases given : gives key with
      | true => exact .skip rfl (ih.append (.lower place.below (.cons (.solid place.fit) later)))
      | false => exact .hold possible ih number (place.of_length (by simp)) later

theorem toRun (waits : Waits text gone s keys queue e) : Run text s queue e := by
  induction keys with
  | nil =>
      cases waits with
      | run run => exact run
  | cons key keys ih => exact ih waits.forget

/-- The first token goes, unless it may turn out to begin a key. -/
theorem release {token : MarkedToken} (waits : Waits text gone s keys (token :: queue) e)
    (free : ∀ key ∈ keys, key.possible = true → key.number ≠ gone) :
    ∃ t, Takes text s (token.mark.offsetIn text) token.token t ∧
      Waits text (gone + 1) t keys queue e := by
  generalize same : token :: queue = tokens at waits
  induction waits generalizing queue with
  | run run =>
      subst same
      cases run with
      | cons takes rest => exact ⟨_, takes, .run rest⟩
  | skip given _ ih =>
      obtain ⟨t, takes, rest⟩ := ih (fun key member => free key (by simp [member])) same
      exact ⟨t, takes, .skip given rest⟩
  | @hold key _ before _ _ _ _ _ possible _ number place later ih =>
      cases before with
      | nil => exact absurd number.symm (free key (by simp) possible)
      | cons first before =>
          rw [List.cons_append, List.cons.injEq] at same
          obtain ⟨rfl, rfl⟩ := same
          obtain ⟨t, takes, rest⟩ := ih (fun key member => free key (by simp [member])) rfl
          refine ⟨t, takes, .hold possible rest ?_ place later⟩
          rw [← number, List.length_cons]
          omega

/-- A colon makes a key of the tokens from a possible place on. The start of its mapping may go
before it, and then the tokens are known to stand before the colon. -/
theorem complete {n : Nat} {start : Option MarkedToken}
    (waits : Waits text gone s (key :: keys) queue e) (possible : key.possible = true)
    (open_eq : e.cap = none) (marks : ∀ token ∈ queue, token.mark.offsetIn text ≤ n)
    (starts : ∀ token ∈ start, n ≤ token.mark.offsetIn text ∧
      ((token.token = .blockMappingStart ∧
          opensAt text (token.mark.offsetIn text) '\x7b' = false) ∨
        (token.token = .flowMappingStart ∧ keys.length ≠ 0))) :
    ∃ before rest cap, queue = before ++ rest ∧ gone + before.length = key.number ∧
      key.mark.offsetIn text ≤ n ∧ (∀ c ∈ cap, n ≤ c) ∧
      Waits text gone s keys (before ++ (start.toList ++ ⟨key.mark, .key⟩ :: rest))
        { e with cap := cap } := by
  cases waits with
  | skip given => rw [given] at possible; cases possible
  | @hold _ _ before later token room _ hi _ rest number place more =>
      have keyed := place.run_key more
      have reached : key.mark.offsetIn text ≤ n :=
        Nat.le_trans place.fit.behind (marks token (by simp))
      have low := place.behind
      cases start with
      | none =>
          refine ⟨before, token :: later, none, rfl, number, reached, nofun, rest.append ?_⟩
          have fit := place.solid_key rfl rfl place.closing_eq (by simp [place.cap_eq])
          refine .cons (.solid fit) ?_
          rw [← open_eq]
          simpa [Room.after, Room.touches, place.cap_eq] using keyed
      | some first =>
          obtain ⟨after, kind⟩ := starts first rfl
          obtain ⟨cap, same, capped⟩ := keyed.withCap (c := first.mark.offsetIn text)
            fun other member => Nat.le_trans (marks other (by simp [member])) after
          refine ⟨before, token :: later, cap, rfl, number, reached, ?_, rest.append ?_⟩
          · intro c found
            rcases same with rfl | rfl
            · rw [open_eq] at found
              cases found
            · cases found
              exact after
          · have loose : Loose text room (first.mark.offsetIn text) first.token room.lo :=
              { behind := by omega
                room := Nat.le_refl _
                start := kind.imp_right fun flow => ⟨flow.1, by
                  by_contra touch
                  exact flow.2 (place.touching (by simpa using touch)).2⟩
                capped := by simp [place.cap_eq]
                touching := fun _ => rfl
                due := place.fresh_eq
                closing := place.closing_eq }
            have fit := place.solid_key
              (r := { lo := room.lo, touch := room.touch, cap := some (first.mark.offsetIn text), fresh := true })
              rfl rfl rfl (by simp; omega)
            refine .cons (.loose loose) (.cons (.solid fit) ?_)
            simpa [Room.after, Room.touches] using capped

end Waits

end WorkflowScope.Yaml
