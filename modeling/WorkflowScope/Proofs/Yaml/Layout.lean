import WorkflowScope.Proofs.Yaml.Scalars
import WorkflowScope.Proofs.Yaml.Waiting

/-!
# The tokens that wait while a text is read

While a text is cut into tokens, the waiting ones take their places up to where the cursor stands.
Each operation on the queue, the keys and the levels keeps that.
-/

namespace WorkflowScope.Yaml

open Composer (opensAt)
open Cursor (Leads)

namespace Token

def begins : Token → Bool
  | .reference _ | .anchor _ | .tag _ | .scalar .. | .flowSequenceStart | .flowMappingStart => true
  | _ => false

end Token

namespace Room

/-- Room for a token that stands at `n`. -/
structure Free (n : Nat) (e : Room) : Prop where
  lo_le : e.lo ≤ n
  cap_eq : e.cap = none
  fresh_eq : e.fresh = false
  touching : e.touch = true → e.lo = n

theorem free_self (n : Nat) : ({ lo := n } : Room).Free n :=
  ⟨Nat.le_refl _, rfl, rfl, fun _ => rfl⟩

theorem Free.solid {text : List Char} {n mark hi : Nat} {e : Room} {token : Token}
    (free : e.Free n) (behind : n ≤ mark) (room : mark ≤ hi)
    (shown : token.shownEnd text mark ≤ hi)
    (touching : e.touch = true → mark = n ∧ token.isProperty = false)
    (closing : e.closing = true → token.closes = true)
    (sequence : token = .blockSequenceStart → opensAt text mark '[' = false)
    (mapping : token = .blockMappingStart → opensAt text mark '\x7b' = false)
    (next : e.touches text mark token = true → hi = mark) : Solid text e mark token hi where
  behind := Nat.le_trans free.lo_le behind
  room := room
  shown := shown
  capped := by simp [free.cap_eq]
  touching touch := ⟨(touching touch).1.trans (free.touching touch).symm, (touching touch).2⟩
  due := by simp [free.fresh_eq]
  closing := closing
  sequence := sequence
  mapping := mapping
  next := next

/-- A token that stands just there and has been read up to `m`. -/
theorem Free.takes {text : List Char} {n m : Nat} {e : Room} {token : Token} (free : e.Free n)
    (le : n ≤ m) (shown : token.shownEnd text n ≤ m) (untouched : e.touch = false)
    (closing : e.closing = true → token.closes = true)
    (sequence : token = .blockSequenceStart → opensAt text n '[' = false)
    (mapping : token = .blockMappingStart → opensAt text n '\x7b' = false)
    (next : e.touches text n token = false) : Takes text e n token { lo := m } := by
  have room : e.after text n token m = { lo := m } := by simp [after, next, free.cap_eq]
  rw [← room]
  exact .solid (free.solid (Nat.le_refl _) le shown (by simp [untouched]) closing sequence mapping
    (by simp [next]))

/-- What is known behind the waiting tokens when the cursor stands at `n`. -/
structure Idle (text : List Char) (n : Nat) (keys : List SimpleKey) (e : Room) : Prop
    extends Free n e where
  closing_eq : e.closing = false
  bracket : e.touch = true → opensAt text n '[' = true ∧ keys.length = 1

theorem Idle.raise {text : List Char} {n : Nat} {keys : List SimpleKey} {e : Room}
    (idle : e.Idle text n keys) : ({ e with lo := n } : Room).Idle text n keys :=
  { idle with lo_le := Nat.le_refl _, touching := fun _ => rfl }

/-- Behind a token that does not ask for the next one. -/
theorem idle_of_lo_le {text : List Char} {lo n : Nat} {keys : List SimpleKey} (le : lo ≤ n) :
    ({ lo } : Room).Idle text n keys :=
  { lo_le := le
    cap_eq := rfl
    fresh_eq := rfl
    touching := by simp
    closing_eq := rfl
    bracket := by simp }

theorem Idle.of_untouched {text : List Char} {n m : Nat} {keys other : List SimpleKey} {e : Room}
    (idle : e.Idle text n keys) (untouched : e.touch = false) (le : n ≤ m) :
    e.Idle text m other :=
  { idle with
    lo_le := Nat.le_trans idle.lo_le le
    touching := by simp [untouched]
    bracket := by simp [untouched] }

end Room

theorem Cursor.OnLine.opensAt_eq {text : List Char} {n : Nat} {c : Cursor} {char : Char}
    (here : c.OnLine text n) (some_char : isEnd char = false) :
    opensAt text n char = (c.peek == char) := by
  have first : text[n]? = c.rest.head? := by rw [here.rest_eq, List.head?_drop]
  rw [opensAt, first, Cursor.peek]
  cases c.rest with
  | nil =>
      simp only [isEnd, beq_eq_false_iff_ne] at some_char
      simpa using some_char.symm
  | cons other rest => simp

theorem Room.Idle.untouched {text : List Char} {n : Nat} {keys : List SimpleKey} {e : Room}
    {c : Cursor} (idle : e.Idle text n keys) (here : c.OnLine text n) (other : c.peek ≠ '[') :
    e.touch = false := by
  by_contra touch
  have bracket := (idle.bracket (by simpa using touch)).1
  rw [here.opensAt_eq rfl] at bracket
  exact other (beq_iff_eq.1 bracket)

namespace Layout

/-- Puts a token before the one of a number, or behind the waiting ones. -/
def place (l : Layout) (number : Option Nat) (mark : Mark) (token : Token) : Layout :=
  match number with
  | some number => l.insertAt number mark token
  | none => l.push mark token

/-- Entering a block collection changes the levels, and may put its start into the queue. -/
theorem enterBlock_cases (l : Layout) (column : Int) (number : Option Nat) (mark : Mark)
    (start : Token) :
    ∃ levels indent, l.enterBlock column number mark start = { l with levels, indent } ∨
      (l.inFlow = false ∧ l.enterBlock column number mark start =
        { l with levels, indent }.place number mark start) := by
  have step (levels : List Level) (indent : Int) : ∃ levels' indent',
      let l' := { l with levels := levels', indent := indent' }
      let entered := if indent < column then
          { l with levels := ⟨indent, true⟩ :: levels, indent := column }.place number mark start
        else { l with levels, indent }
      entered = l' ∨ entered = l'.place number mark start := by
    dsimp only
    split
    · exact ⟨_, _, .inr rfl⟩
    · exact ⟨_, _, .inl rfl⟩
  unfold enterBlock
  split
  · exact ⟨l.levels, l.indent, .inl rfl⟩
  · rename_i flow
    simp only [Bool.not_eq_true] at flow
    simp only [flow, true_and]
    split
    · split
      · exact step _ _
      · exact step l.levels l.indent
    · exact step l.levels l.indent

/-- The waiting tokens run from a room to another, up to `n`. -/
structure Stands (text : List Char) (s e : Room) (n : Nat) (l : Layout) : Prop where
  waits : Waits text l.gone s l.keys l.queue e
  marks : ∀ token ∈ l.queue, token.mark.offsetIn text ≤ n
  depth : l.keys.length = l.flowDepth + 1

variable {text : List Char} {s e e' : Room} {n m : Nat} {l l' : Layout}

namespace Stands

/-- Only the queue and the keys count. -/
theorem of_eq (stands : Stands text s e n l) (gone : l'.gone = l.gone) (keys : l'.keys = l.keys)
    (queue : l'.queue = l.queue) (depth : l'.flowDepth = l.flowDepth) : Stands text s e n l' := by
  obtain ⟨waits, marks, length⟩ := stands
  refine ⟨?_, ?_, ?_⟩
  · rwa [gone, keys, queue]
  · rwa [queue]
  · rwa [keys, depth]

theorem mono (stands : Stands text s e n l) (le : n ≤ m) : Stands text s e m l :=
  { stands with marks := fun token member => Nat.le_trans (stands.marks token member) le }

theorem exists_cons (stands : Stands text s e n l) : ∃ key keys, l.keys = key :: keys := by
  cases found : l.keys with
  | nil =>
      have depth := stands.depth
      simp [found] at depth
  | cons key keys => exact ⟨key, keys, rfl⟩

theorem push {mark : Mark} {token : Token} (stands : Stands text s e n l)
    (takes : Takes text e (mark.offsetIn text) token e') (le : mark.offsetIn text ≤ n) :
    Stands text s e' n (l.push mark token) := by
  refine ⟨stands.waits.append (.cons takes (.nil (.refl e'))), fun other member => ?_, stands.depth⟩
  rcases List.mem_append.1 member with old | new
  · exact stands.marks other old
  · rw [List.mem_singleton.1 new]
    exact le

/-- Giving up the innermost key. -/
theorem setTopKey (stands : Stands text s e n l) {key : SimpleKey} (given : key.possible = false) :
    Stands text s e n (l.setTopKey key) := by
  obtain ⟨first, keys, found⟩ := stands.exists_cons
  have waits := stands.waits
  have depth := stands.depth
  rw [found] at waits depth
  refine ⟨?_, stands.marks, ?_⟩
  · simp only [Layout.setTopKey, found]
    exact .skip given waits.forget
  · simpa [Layout.setTopKey, found] using depth

theorem removeKey (removed : l.removeKey = .ok l') (stands : Stands text s e n l) :
    Stands text s e n l' ∧ l' = { l with keys := l'.keys } ∧ l'.keys.length = l.keys.length := by
  obtain ⟨_, removed⟩ := refuse_eq_ok.1 removed
  cases removed
  obtain ⟨first, keys, found⟩ := stands.exists_cons
  exact ⟨stands.setTopKey rfl, rfl, by simp [Layout.setTopKey, found]⟩

theorem dropExpiredKeys (stands : Stands text s e n l) (dropped : l.dropExpiredKeys = .ok l') :
    Stands text s e n l' ∧ l' = { l with keys := l'.keys } ∧ l'.keys.length = l.keys.length := by
  obtain ⟨_, dropped⟩ := refuse_eq_ok.1 dropped
  cases dropped
  refine ⟨⟨stands.waits.giveUp l.expired, stands.marks, ?_⟩, rfl, ?_⟩
  · simpa using stands.depth
  · simp

/-- A token that begins a node is put behind the waiting ones, where a key may be put before it. -/
theorem save {mark : Mark} {token : Token} {hi : Nat} (stands : Stands text s e n l)
    (idle : e.Idle text n l.keys) (here : l.mark.offsetIn text = n)
    (fit : Solid text { e with lo := n } (mark.offsetIn text) token hi)
    (brace : opensAt text n '\x7b' = true → mark.offsetIn text = n ∧ token.isProperty = false)
    (other : token ≠ .key) (le : n ≤ m) (mark_le : mark.offsetIn text ≤ m) :
    Stands text s (Room.after text { e with lo := n } (mark.offsetIn text) token hi) m
      (l.saveKey.push mark token) := by
  have low : e.Below { e with lo := n } :=
    ⟨idle.lo_le, rfl, rfl, rfl, rfl, fun touch => idle.touching touch⟩
  unfold saveKey
  split
  · obtain ⟨first, keys, found⟩ := stands.exists_cons
    have waits := stands.waits
    have depth := stands.depth
    rw [found] at waits depth
    have place : KeyPlace text keys e (l.mark.offsetIn text) ⟨mark, token⟩ hi := by
      rw [here]
      refine ⟨idle.lo_le, idle.cap_eq, idle.fresh_eq, idle.closing_eq, fun touch => ?_, fit, brace,
        other⟩
      have single := (idle.bracket touch).2
      rw [found, List.length_cons] at single
      exact ⟨idle.touching touch, by omega⟩
    refine ⟨?_, fun other member => ?_, by simpa [Layout.setTopKey, Layout.push, found] using depth⟩
    · simp only [Layout.push, Layout.setTopKey, found, List.tail_cons]
      refine .hold rfl waits.forget rfl place (.nil ?_)
      rw [here]
      exact .refl _
    · rcases List.mem_append.1 member with old | new
      · exact Nat.le_trans (stands.marks other old) le
      · rw [List.mem_singleton.1 new]
        exact mark_le
  · exact (stands.mono le).push ((Takes.solid fit).lower low) mark_le

/-- The start of a block collection that is put behind the waiting tokens. -/
theorem enterBlock {mark : Mark} {token : Token} (stands : Stands text s e n l) (column : Int)
    (takes : Takes text e (mark.offsetIn text) token e') (le : mark.offsetIn text ≤ n) :
    ∃ r levels indent queue, (r = e ∨ r = e') ∧
      Stands text s r n (l.enterBlock column none mark token) ∧
      l.enterBlock column none mark token = { l with levels, indent, queue } := by
  obtain ⟨levels, indent, same | ⟨_, same⟩⟩ := l.enterBlock_cases column none mark token
  · exact ⟨e, _, _, _, .inl rfl, same ▸ stands.of_eq rfl rfl rfl rfl, same⟩
  · exact ⟨e', _, _, _, .inr rfl, same ▸ (stands.push takes le).of_eq rfl rfl rfl rfl, same⟩

end Stands

theorem enterInline_eq (l : Layout) : ∃ levels indent, l.enterInline = { l with levels, indent } := by
  unfold enterInline
  split <;> exact ⟨_, _, rfl⟩

theorem Stands.enterInline (stands : Stands text s e n l) : Stands text s e n l.enterInline := by
  obtain ⟨levels, indent, same⟩ := l.enterInline_eq
  exact same ▸ stands.of_eq rfl rfl rfl rfl

@[simp] theorem cursor_enterInline (l : Layout) : l.enterInline.cursor = l.cursor := by
  obtain ⟨levels, indent, same⟩ := l.enterInline_eq
  rw [same]

@[simp] theorem keys_enterInline (l : Layout) : l.enterInline.keys = l.keys := by
  obtain ⟨levels, indent, same⟩ := l.enterInline_eq
  rw [same]

/-- Leaving levels ends block collections where the cursor stands. -/
theorem Stands.leaveLevels {column : Int} {levels : List Level} (stands : Stands text s e n l)
    (free : e.Free m) (closing : e.closing = false) (mark : l.mark.offsetIn text = m) (le : m ≤ n) :
    ∃ r levels' indent queue, Stands text s r n (Layout.leaveLevels column levels l) ∧
      (r = e ∨ r = { lo := m }) ∧
      Layout.leaveLevels column levels l = { l with levels := levels', indent, queue } := by
  induction levels generalizing l e with
  | nil => exact ⟨e, _, _, _, stands, .inl rfl, rfl⟩
  | cons top outer ih =>
      rw [Layout.leaveLevels]
      split
      · exact ⟨e, _, _, _, stands, .inl rfl, rfl⟩
      · simp only
        split
        · have fit : Solid text e m .blockEnd m :=
            free.solid (Nat.le_refl _) (Nat.le_refl _) (Nat.le_refl _) (fun _ => ⟨rfl, rfl⟩)
              (by simp [closing]) (by simp) (by simp) (by simp [Room.touches])
          have room : e.after text m .blockEnd m = { lo := m } := by
            simp [Room.after, Room.touches, free.cap_eq]
          have takes : Takes text e (l.mark.offsetIn text) .blockEnd { lo := m } := by
            rw [mark, ← room]
            exact .solid fit
          have ended : Stands text s { lo := m } n
              ({ l with levels := outer, indent := top.outer }.push l.mark .blockEnd) :=
            (stands.push takes (mark ▸ le)).of_eq rfl rfl rfl rfl
          obtain ⟨r, levels', indent, queue, more, same, eq⟩ :=
            ih ended (Room.free_self m) rfl mark
          exact ⟨r, levels', indent, queue, more, .inr (same.elim id id), eq⟩
        · obtain ⟨r, levels', indent, queue, more, same, eq⟩ :=
            @ih e { l with levels := outer, indent := top.outer } (stands.of_eq rfl rfl rfl rfl) free
              closing mark
          exact ⟨r, levels', indent, queue, more, same, eq⟩

/-- Ending the block collections that lie further in. -/
theorem Stands.leaveBlocks (stands : Stands text s e n l) (column : Int) (free : e.Free m)
    (closing : e.closing = false) (mark : l.mark.offsetIn text = m) (le : m ≤ n) :
    ∃ r levels indent queue, Stands text s r n (l.leaveBlocks column) ∧ (r = e ∨ r = { lo := m }) ∧
      l.leaveBlocks column = { l with levels, indent, queue } := by
  unfold Layout.leaveBlocks
  split
  · exact ⟨e, _, _, _, stands, .inl rfl, rfl⟩
  · exact stands.leaveLevels free closing mark le

/-- Nothing is left at a column that lies further in. -/
theorem leaveBlocks_eq_self {column : Int} (inner : l.indent ≤ column) :
    l.leaveBlocks column = l := by
  unfold leaveBlocks
  split
  · rfl
  · cases found : l.levels with
    | nil => rfl
    | cons top outer => rw [leaveLevels, if_pos inner]

/-- Only ends of blocks are put into the queue, and they stand where the cursor does. -/
theorem leaveLevels_eq (column : Int) (levels : List Level) (l : Layout) :
    ∃ levels' indent ends, leaveLevels column levels l =
      { l with levels := levels', indent, queue := l.queue ++ ends } ∧
      ∀ token ∈ ends, token = ⟨l.mark, .blockEnd⟩ := by
  induction levels generalizing l with
  | nil => exact ⟨l.levels, l.indent, [], by simp [leaveLevels], nofun⟩
  | cons top outer ih =>
      rw [leaveLevels]
      split
      · exact ⟨l.levels, l.indent, [], by simp, nofun⟩
      · simp only
        split
        · obtain ⟨levels', indent, ends, same, all⟩ :=
            ih ({ l with levels := outer, indent := top.outer }.push l.mark .blockEnd)
          refine ⟨levels', indent, ⟨l.mark, .blockEnd⟩ :: ends, ?_, ?_⟩
          · refine same.trans ?_
            simp [Layout.push]
          · intro token member
            rcases List.mem_cons.1 member with rfl | later
            · rfl
            · exact all token later
        · exact ih { l with levels := outer, indent := top.outer }

theorem leaveBlocks_eq (column : Int) (l : Layout) :
    ∃ levels indent ends, l.leaveBlocks column =
      { l with levels, indent, queue := l.queue ++ ends } ∧
      ∀ token ∈ ends, token = ⟨l.mark, .blockEnd⟩ := by
  unfold leaveBlocks
  split
  · exact ⟨l.levels, l.indent, [], by simp, nofun⟩
  · exact leaveLevels_eq column l.levels l

/-! ## Reading on -/

theorem skipToLineEnd_spec (read : l.skipToLineEnd = .ok l') :
    ∃ cursor, l' = { l with cursor } ∧ Leads l.cursor cursor := by
  obtain ⟨⟨cursor, gap⟩, blanks, last⟩ := bind_eq_ok.1 read
  cases last
  exact ⟨cursor, rfl, Cursor.leads_skipToLineEnd blanks⟩

theorem skipToToken_spec {fuel : Nat} (read : skipToToken fuel l = .ok l') :
    ∃ cursor keyAllowed, l' = { l with cursor, keyAllowed } ∧ Leads l.cursor cursor := by
  induction fuel generalizing l with
  | zero =>
      cases read
      exact ⟨_, _, rfl, .refl _⟩
  | succ fuel ih =>
      simp only [skipToToken] at read
      split at read
      · obtain ⟨⟨cursor, gap⟩, blanks, read⟩ := bind_eq_ok.1 read
        simp only at read
        split at read
        · obtain ⟨last, allowed, same, leads⟩ := ih read
          exact ⟨last, allowed, same, (Cursor.leads_skipToLineEnd blanks).trans leads⟩
        · cases read
      · split at read
        · rename_i blank
          obtain ⟨last, allowed, same, leads⟩ := ih read
          refine ⟨last, allowed, same, Leads.trans ⟨1, ?_⟩ leads⟩
          exact Cursor.reads_skipBlank_one (Cursor.isBreakOrEnd_of_isBlank blank)
        · split at read
          · obtain ⟨last, allowed, same, leads⟩ := ih read
            exact ⟨last, allowed, same, (Cursor.leads_skipBreak 2 _).trans leads⟩
          · split at read
            · obtain ⟨last, allowed, same, leads⟩ := ih read
              exact ⟨last, allowed, same, (Cursor.leads_skipComment _).trans leads⟩
            · cases read
              exact ⟨_, _, rfl, .refl _⟩

/-- A token that stands at the cursor is not passed. -/
theorem toToken_eq_self (blank : isBlank l.cursor.peek = false)
    (broken : isBreak l.cursor.peek = false) (comment : l.cursor.peek ≠ '#') :
    l.toToken = .ok l := by
  have tab : l.cursor.peek ≠ '\t' := by
    intro same
    rw [same] at blank
    cases blank
  simp [toToken, skipToToken, blank, broken, comment, tab]

end Layout

end WorkflowScope.Yaml
