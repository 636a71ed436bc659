import Mathlib.Data.List.InsertIdx
import WorkflowScope.Proofs.Yaml.Faults
import WorkflowScope.Proofs.Yaml.Marks
import WorkflowScope.Proofs.Yaml.Tokens

/-!
# Where a text is refused

While a text is cut into tokens, every mark that is remembered is one that was reached in the text,
and so is the mark of every fault. The end of the stream is the exception: it is put on a line of
its own, behind the last one, if that has begun.
-/

namespace WorkflowScope.Yaml

open Cursor (Leads)

/-- Reading comes to its end at an offset. -/
structure Stops (text : List Char) (n : Nat) : Prop where
  inside : n ≤ text.length
  ends : isEnd (text.getD n '\x00') = true

/-- Reading comes to its end at a NUL or at the end of the text. -/
theorem Stops.nul_or_length {text : List Char} {n : Nat} (stops : Stops text n) :
    text[n]? = some '\x00' ∨ n = text.length := by
  have ends := beq_iff_eq.1 stops.ends
  rw [List.getD_eq_getElem?_getD] at ends
  cases found : text[n]? with
  | none => exact .inr (Nat.le_antisymm stops.inside (List.getElem?_eq_none_iff.1 found))
  | some c =>
      rw [found, Option.getD_some] at ends
      exact .inl (congrArg some ends)

/-- A mark that was reached in a text. -/
inductive Told (text : List Char) (mark : Mark) : Prop where
  /-- It is on the line of the offset that it tells. -/
  | reached {n : Nat} (inside : n ≤ text.length) (line : mark.line = (Mark.behind text n).line)
      (offset : mark.offsetIn text = n)
  /-- It is on the line of the end, in whatever column. -/
  | stopped {n : Nat} (stops : Stops text n) (line : mark.line = (Mark.behind text n).line)
      (past : n ≤ mark.offsetIn text)
  /-- It is at the start of the line that is put behind the end, if the last one has begun. -/
  | beyond {n : Nat} (stops : Stops text n) (line : mark.line = (Mark.behind text n).line + 1)
      (column : mark.column = 0) (begun : (Mark.behind text n).column ≠ 0)

namespace Cursor

variable {text : List Char} {n : Nat} {c : Cursor} {mark : Mark}

theorem At.told (here : c.At text n) : Told text c.mark :=
  .reached here.le_length here.toOnLine.line_eq here.offset_eq

theorem At.told_of_met (here : c.At text n) (met : Met c mark) : Told text mark := by
  obtain ⟨d, ⟨k, reads⟩, rfl⟩ := met
  exact (reads.moves text n here).told

theorem OnLine.stops (here : c.OnLine text n) (stop : isEnd c.peek = true) : Stops text n := by
  refine ⟨here.le_length, ?_⟩
  rw [peek, here.rest_eq] at stop
  simpa [List.headD_eq_head?_getD, List.getD_eq_getElem?_getD] using stop

theorem OnLine.told_of_stop (here : c.OnLine text n) (stop : isEnd c.peek = true) :
    Told text c.mark :=
  .stopped (here.stops stop) here.line_eq here.le_offsetIn

end Cursor

/-! ## Readings -/

variable {α β : Type} {text : List Char} {post : α → Prop}

/-- The reading fails at a mark that was reached, or its result is as asked. -/
structure Brings (text : List Char) (post : α → Prop) (reading : Except SyntaxError α) : Prop where
  fails : FailsAt (Told text) reading
  gives : ∀ a, reading = .ok a → post a

namespace Brings

theorem ok {a : α} (holds : post a) : Brings text post (.ok a) where
  fails := .ok a
  gives := by
    rintro _ ⟨⟩
    exact holds

theorem error {fault : Fault} {mark : Mark} (told : Told text mark) :
    Brings text post (.error ⟨fault, mark⟩) where
  fails := .error told
  gives := nofun

theorem bind {mid : α → Prop} {post : β → Prop} {reading : Except SyntaxError α}
    {more : α → Except SyntaxError β} (first : Brings text mid reading)
    (later : ∀ a, mid a → Brings text post (more a)) : Brings text post (reading >>= more) where
  fails := first.fails.bind fun a read => (later a (first.gives a read)).fails
  gives b read := by
    obtain ⟨a, first_read, read⟩ := bind_eq_ok.1 read
    exact (later a (first.gives a first_read)).gives b read

theorem mono {weaker : α → Prop} {reading : Except SyntaxError α}
    (brings : Brings text post reading) (implies : ∀ a, post a → weaker a) :
    Brings text weaker reading :=
  ⟨brings.fails, fun a read => implies a (brings.gives a read)⟩

/-- A reading from a cursor at an offset. -/
theorem of_met {n : Nat} {c : Cursor} {reading : Except SyntaxError α} (here : c.At text n)
    (fails : FailsAt (Met c) reading) : Brings text (reading = .ok ·) reading :=
  ⟨fun error failed => here.told_of_met (fails error failed), fun _ read => read⟩

end Brings

/-! ## What waits -/

namespace Layout

variable {n : Nat} {c : Cursor} {l l' : Layout} {mark : Mark}

/-- The layout stands at a cursor, and the tokens and the keys that wait were marked in the text. -/
structure Located (text : List Char) (c : Cursor) (l : Layout) : Prop where
  cursor_eq : l.cursor = c
  told : Told text c.mark
  queue : ∀ token ∈ l.queue, Told text token.mark
  keys : ∀ key ∈ l.keys, key.possible = true → Told text key.mark

/-- The layout stands behind a cursor. -/
def Past (text : List Char) (c : Cursor) (l : Layout) : Prop :=
  ∃ d, Leads c d ∧ Located text d l

/-- The text has been read up to the cursor, which tells its offset unless the text has ended. -/
def Traced (text : List Char) (l : Layout) : Prop :=
  ∃ n, Located text l.cursor l ∧ l.cursor.OnLine text n ∧
    (l.cursor.At text n ∨ isEnd l.cursor.peek = true)

theorem Past.traced (here : c.At text n) (past : Past text c l) : Traced text l := by
  obtain ⟨d, ⟨k, reads⟩, located⟩ := past
  obtain rfl := located.cursor_eq
  have there := reads.moves text n here
  exact ⟨n + k, located, there.toOnLine, .inl there⟩

namespace Located

theorem mark_told (located : Located text c l) : Told text l.mark := by
  rw [Layout.mark, located.cursor_eq]
  exact located.told

theorem fail {fault : Fault} {post : α → Prop} (located : Located text c l) :
    Brings text post (l.fail fault) :=
  .error located.mark_told

theorem past (located : Located text c l) : Past text c l :=
  ⟨c, .refl c, located⟩

/-- What stands in the queue and in the keys does not depend on the rest. -/
theorem at_cursor {d : Cursor} (located : Located text c l) (told : Told text d.mark)
    (cursor : l'.cursor = d) (queue : l'.queue = l.queue) (keys : l'.keys = l.keys) :
    Located text d l' :=
  ⟨cursor, told, queue ▸ located.queue, keys ▸ located.keys⟩

theorem of_eq (located : Located text c l) (cursor : l'.cursor = l.cursor)
    (queue : l'.queue = l.queue) (keys : l'.keys = l.keys) : Located text c l' :=
  located.at_cursor located.told (cursor.trans located.cursor_eq) queue keys

theorem push (located : Located text c l) (told : Told text mark) (token : Token) :
    Located text c (l.push mark token) := by
  refine ⟨located.cursor_eq, located.told, fun other member => ?_, located.keys⟩
  rcases List.mem_append.1 member with old | new
  · exact located.queue other old
  · rw [List.mem_singleton.1 new]
    exact told

theorem insertAt (located : Located text c l) (told : Told text mark) (number : Nat)
    (token : Token) :
    Located text c (l.insertAt number mark token) := by
  refine ⟨located.cursor_eq, located.told, fun other member => ?_, located.keys⟩
  rcases List.eq_or_mem_of_mem_insertIdx member with rfl | old
  · exact told
  · exact located.queue other old

theorem enterBlock (located : Located text c l) (told : Told text mark) (column : Int)
    (number : Option Nat) (start : Token) :
    Located text c (l.enterBlock column number mark start) := by
  obtain ⟨levels, indent, same | ⟨-, same⟩⟩ := l.enterBlock_cases column number mark start
  · exact same ▸ located.of_eq rfl rfl rfl
  · have entered : Located text c { l with levels, indent } := located.of_eq rfl rfl rfl
    rw [same]
    cases number with
    | none => exact entered.push told start
    | some number => exact entered.insertAt told number start

theorem enterInline (located : Located text c l) : Located text c l.enterInline := by
  obtain ⟨levels, indent, same⟩ := l.enterInline_eq
  exact same ▸ located.of_eq rfl rfl rfl

theorem setTopKey (located : Located text c l) {key : SimpleKey}
    (told : key.possible = true → Told text key.mark) : Located text c (l.setTopKey key) := by
  refine ⟨located.cursor_eq, located.told, located.queue, fun other member => ?_⟩
  rcases List.mem_cons.1 member with rfl | old
  · exact told
  · exact located.keys other (List.mem_of_mem_tail old)

theorem saveKey (located : Located text c l) : Located text c l.saveKey := by
  unfold Layout.saveKey
  split
  · exact located.setTopKey fun _ => located.mark_told
  · exact located

theorem topKey (located : Located text c l) (possible : l.topKey.possible = true) :
    Told text l.topKey.mark := by
  cases found : l.keys with
  | nil => simp [Layout.topKey, found] at possible
  | cons key rest =>
      simp only [Layout.topKey, found, List.headD_cons] at possible ⊢
      exact located.keys key (by simp [found]) possible

theorem removeKey (located : Located text c l) : Brings text (Located text c) l.removeKey := by
  unfold Layout.removeKey
  split
  · exact located.fail
  · exact .ok (located.setTopKey (by simp))

theorem endImplicitMapping (located : Located text c l) : Located text c l.endImplicitMapping := by
  unfold Layout.endImplicitMapping
  split
  · have ended :
        Located text c { l with implicitFlowMapping := false, flowMappingStarted := false } :=
      located.of_eq rfl rfl rfl
    exact ended.push located.mark_told _
  · exact located

theorem leaveBlocks (located : Located text c l) (column : Int) :
    Located text c (l.leaveBlocks column) := by
  obtain ⟨levels, indent, ends, same, all⟩ := leaveBlocks_eq column l
  rw [same]
  refine ⟨located.cursor_eq, located.told, fun token member => ?_, located.keys⟩
  rcases List.mem_append.1 member with old | new
  · exact located.queue token old
  · rw [all token new]
    exact located.mark_told

/-- Keys that are given up need no mark. -/
theorem giveUp (located : Located text c l) (given : SimpleKey → Bool) :
    Located text c
      { l with
        keys := l.keys.map fun key =>
          if given key then { key with possible := false } else key } := by
  refine ⟨located.cursor_eq, located.told, located.queue, fun key member possible => ?_⟩
  obtain ⟨old, found, rfl⟩ := List.mem_map.1 member
  split at possible
  · cases possible
  · rename_i kept
    rw [if_neg kept]
    exact located.keys old found possible

theorem dropExpiredKeys (located : Located text c l) :
    Brings text (Located text c) l.dropExpiredKeys := by
  unfold Layout.dropExpiredKeys
  split
  · exact located.fail
  · exact .ok (located.giveUp l.expired)

/-! ## Reading on -/

theorem skipToLineEnd (located : Located text c l) (here : c.At text n) :
    Brings text (Past text c) l.skipToLineEnd := by
  obtain rfl := located.cursor_eq
  refine .bind (.of_met here (Cursor.failsAt_skipToLineEnd (.refl _))) fun found read => ?_
  have way := Cursor.leads_skipToLineEnd read
  exact .ok ⟨found.1, way, located.at_cursor (here.told_of_met way.met) rfl rfl rfl⟩

theorem skipTabAfterColon (located : Located text c l) (here : c.At text n) :
    Brings text (Past text c) l.skipTabAfterColon := by
  obtain rfl := located.cursor_eq
  unfold Layout.skipTabAfterColon
  split
  · refine .bind (.of_met here (Cursor.failsAt_skipToLineEnd (.refl _))) fun found read => ?_
    have way := Cursor.leads_skipToLineEnd read
    have told := here.told_of_met way.met
    simp only
    split
    · exact .error told
    · exact .ok ⟨found.1, way, located.at_cursor told rfl rfl rfl⟩
  · exact .ok located.past

theorem skipToToken {fuel : Nat} (located : Located text l.cursor l) (here : l.cursor.At text n) :
    Brings text (Past text l.cursor) (l.skipToToken fuel) := by
  induction fuel generalizing l n with
  | zero => exact .ok located.past
  | succ fuel ih =>
      -- Behind any way the rest is read as from the start.
      have further {l' : Layout} (way : Leads l.cursor l'.cursor) (queue : l'.queue = l.queue)
          (keys : l'.keys = l.keys) : Brings text (Past text l.cursor) (l'.skipToToken fuel) := by
        obtain ⟨k, there⟩ : ∃ k, l'.cursor.At text (n + k) :=
          way.imp fun k reads => reads.moves text n here
        refine (ih (located.at_cursor there.told rfl queue keys) there).mono fun last past => ?_
        obtain ⟨d, more, located⟩ := past
        exact ⟨d, way.trans more, located⟩
      simp only [Layout.skipToToken]
      split
      · refine .bind (.of_met here (Cursor.failsAt_skipToLineEnd (.refl _))) fun found read => ?_
        have way := Cursor.leads_skipToLineEnd read
        split
        · exact further way rfl rfl
        · exact .error (here.told_of_met way.met)
      · split
        · rename_i blank
          have plain := Cursor.isBreakOrEnd_of_isBlank blank
          exact further ⟨1, Cursor.reads_skipBlank_one plain⟩ rfl rfl
        · split
          · exact further (Cursor.leads_skipBreak 2 _) rfl rfl
          · split
            · exact further (Cursor.leads_skipComment _) rfl rfl
            · exact .ok located.past

end Located

theorem Traced.toToken (traced : Traced text l) : Brings text (Traced text) l.toToken := by
  obtain ⟨n, located, onLine, here | stop⟩ := traced
  · exact (located.skipToToken here).mono fun _ past => past.traced here
  · have same : l.cursor.peek = '\x00' := beq_iff_eq.1 stop
    rw [toToken_eq_self (by rw [same]; rfl) (by rw [same]; rfl) (by simp [same])]
    exact .ok ⟨n, located, onLine, .inr stop⟩

end Layout

end WorkflowScope.Yaml
