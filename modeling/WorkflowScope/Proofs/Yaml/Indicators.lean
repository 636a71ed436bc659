import WorkflowScope.Proofs.Yaml.Pieces

/-!
# Indicators

The brackets, commas, dashes, question marks and colons of a text. Those that end an entry may end a
mapping without braces before it, a dash or a question mark may begin a block collection, and a colon
may make a key of tokens that wait.
-/

namespace WorkflowScope.Yaml

open Composer (opensAt)
open Cursor (Leads)

namespace Layout

variable {text : List Char} {s e : Room} {n : Nat} {l l' : Layout}

/-! ## Tokens that stand alone -/

/-- A token that stands at the cursor and has been read up to `m`. -/
theorem Stands.take {token : Token} {mark : Mark} {m : Nat} (stands : Stands text s e n l)
    (takes : Takes text e n token { lo := m }) (offset : mark.offsetIn text = n) (le : n ≤ m) :
    Stands text s { lo := m } m (l.push mark token) := by
  refine (stands.mono le).push ?_ (by omega)
  rw [offset]
  exact takes

theorem Stands.endImplicitMapping {keys : List SimpleKey} (stands : Stands text s e n l)
    (idle : e.Idle text n keys) (untouched : e.touch = false) (mark : l.mark.offsetIn text = n)
    (inside : n < text.length) :
    ∃ r, Stands text s r n l.endImplicitMapping ∧ r.Free n ∧ r.touch = false ∧
      l.endImplicitMapping.cursor = l.cursor := by
  unfold Layout.endImplicitMapping
  split
  · have fit : ImplicitEnd text e n n :=
      { behind := idle.lo_le
        room := Nat.le_refl _
        inside := inside
        capped := by simp [idle.cap_eq]
        touching := by simp [untouched]
        due := idle.fresh_eq
        closing := idle.closing_eq }
    have takes : Takes text e (l.mark.offsetIn text) .flowMappingEnd
        { lo := n, cap := e.cap, closing := true } := by
      rw [mark]
      exact .implicitEnd fit
    have ended := stands.push takes (Nat.le_of_eq mark)
    exact ⟨_, ended.of_eq rfl rfl rfl rfl, ⟨Nat.le_refl _, idle.cap_eq, rfl, nofun⟩, rfl, rfl⟩
  · exact ⟨e, stands, idle.toFree, untouched, rfl⟩

theorem Poised.inside (poised : Poised text s e n l) (plain : isBreakOrEnd l.cursor.peek = false) :
    n < text.length := by
  have long := (Cursor.reads_skip_one plain).le_length
  rw [poised.here.rest_eq, List.length_drop] at long
  omega

/-- A token that ends an entry of a flow collection, behind an implicit mapping perhaps. -/
theorem Poised.close {r : Room} {closed after : Layout} (poised : Poised text s e n l)
    (token : Token) (plain : isBreakOrEnd l.cursor.peek = false)
    (ended : Stands text s r n closed) (free : r.Free n) (untouched : r.touch = false)
    (cursor : closed.cursor = l.cursor) (closes : token.closes = true)
    (blanks : ({ closed with cursor := closed.cursor.skip 1 } : Layout).skipToLineEnd = .ok after) :
    ∃ m, Stands text s { lo := m } m (after.push closed.mark token) ∧ after.cursor.At text m := by
  obtain ⟨last, rfl, k, leads⟩ := skipToLineEnd_spec blanks
  simp only [cursor] at leads
  have there := ((Cursor.reads_skip_one plain).trans leads).moves text n poised.here
  have mark : closed.mark.offsetIn text = n := by
    rw [Layout.mark, cursor]
    exact poised.here.offset_eq
  refine ⟨n + (1 + k), ?_, there⟩
  have stands : Stands text s { lo := n + (1 + k) } (n + (1 + k)) (closed.push closed.mark token) := by
    refine ended.take (free.takes (by omega) ?_ untouched (fun _ => closes) ?_ ?_ ?_) mark (by omega)
    · cases token with
      | flowEntry => simp only [Token.shownEnd]; omega
      | flowSequenceEnd => simp only [Token.shownEnd]; omega
      | flowMappingEnd => simp only [Token.shownEnd]; omega
      | _ => cases closes
    · rintro rfl
      cases closes
    · rintro rfl
      cases closes
    · cases token with
      | blockEntry => cases closes
      | key => cases closes
      | _ => rfl
  exact stands.of_eq rfl rfl rfl rfl

theorem steady_takeFlowEnd {token : Token} (poised : Poised text s e n l)
    (found : l.cursor.peek = ']' ∨ l.cursor.peek = '\x7d')
    (kind : token = .flowSequenceEnd ∨ token = .flowMappingEnd)
    (taken : l.takeFlowEnd token = .ok l') : Steady text s l' := by
  have plain : isBreakOrEnd l.cursor.peek = false := by
    rcases found with same | same <;> rw [same] <;> rfl
  have untouched : e.touch = false :=
    poised.idle.untouched poised.here.toOnLine (by rcases found with same | same <;> simp [same])
  obtain ⟨removed, remove, taken⟩ := bind_eq_ok.1 taken
  obtain ⟨stands, same, length⟩ := poised.stands.removeKey remove
  have cursor : removed.cursor = l.cursor := by rw [same]
  -- The keys of the flow collection go with it.
  obtain ⟨left, eq, standing, cursor⟩ : ∃ left, (if removed.inFlow then
      { removed with flowDepth := removed.flowDepth - 1, keys := removed.keys.tail }
      else removed) = left ∧ Stands text s e n left ∧ left.cursor = l.cursor := by
    refine ⟨_, rfl, ?_, ?_⟩
    · split
      · rename_i flow
        have deep : removed.flowDepth ≠ 0 := by simpa [inFlow] using flow
        obtain ⟨key, keys, cons⟩ := stands.exists_cons
        have depth := stands.depth
        have waits := stands.waits
        rw [cons] at depth waits
        rw [List.length_cons] at depth
        refine ⟨?_, stands.marks, ?_⟩
        · simp only [cons, List.tail_cons]
          exact waits.forget
        · simp only [cons, List.tail_cons]
          omega
      · exact stands
    · split <;> exact cursor
  simp only [eq] at taken
  have mark : ({ left with keyAllowed := false } : Layout).mark.offsetIn text = n := by
    simp only [Layout.mark, cursor]
    exact poised.here.offset_eq
  obtain ⟨r, ended, free, touch, cursor'⟩ := Stands.endImplicitMapping
    (l := { left with keyAllowed := false }) (standing.of_eq rfl rfl rfl rfl) poised.idle untouched
    mark (poised.inside plain)
  obtain ⟨after, blanks, taken⟩ := bind_eq_ok.1 taken
  cases taken
  obtain ⟨m, last, there⟩ := poised.close token plain ended free touch
    (cursor'.trans cursor) (by rcases kind with rfl | rfl <;> rfl) blanks
  split
  · exact steady_of_stands (last.of_eq rfl rfl rfl rfl) there
  · exact steady_of_stands last there

theorem steady_takeFlowEntry (poised : Poised text s e n l) (found : l.cursor.peek = ',')
    (taken : l.takeFlowEntry = .ok l') : Steady text s l' := by
  have plain : isBreakOrEnd l.cursor.peek = false := by
    rw [found]
    rfl
  have untouched : e.touch = false := poised.idle.untouched poised.here.toOnLine (by simp [found])
  obtain ⟨removed, remove, taken⟩ := bind_eq_ok.1 taken
  obtain ⟨stands, same, _⟩ := poised.stands.removeKey remove
  have cursor : removed.cursor = l.cursor := by rw [same]
  have mark : ({ removed with keyAllowed := true } : Layout).mark.offsetIn text = n := by
    simp only [Layout.mark, cursor]
    exact poised.here.offset_eq
  obtain ⟨r, ended, free, touch, cursor'⟩ := Stands.endImplicitMapping
    (l := { removed with keyAllowed := true }) (stands.of_eq rfl rfl rfl rfl) poised.idle untouched
    mark (poised.inside plain)
  obtain ⟨after, blanks, taken⟩ := bind_eq_ok.1 taken
  cases taken
  obtain ⟨m, last, there⟩ := poised.close .flowEntry plain ended free touch (cursor'.trans cursor)
    rfl blanks
  exact steady_of_stands last there

/-- Behind a dash no key is waited for; a level may be entered for the line. -/
theorem Stands.behindDash {inline : Bool} (stands : Stands text s e n l)
    (removed : (if inline then l.enterInline else l).removeKey = .ok l') :
    Stands text s e n l' ∧ l'.cursor = l.cursor ∧ l'.keys.length = l.keys.length := by
  cases inline with
  | true =>
      obtain ⟨standing, same, length⟩ := Stands.removeKey removed stands.enterInline
      refine ⟨standing, ?_, ?_⟩
      · rw [same]
        exact cursor_enterInline l
      · rw [length]
        exact congrArg List.length (keys_enterInline l)
  | false =>
      obtain ⟨standing, same, length⟩ := Stands.removeKey removed stands
      exact ⟨standing, by rw [same]; rfl, length⟩

theorem steady_takeBlockEntry (poised : Poised text s e n l) (found : l.cursor.peek = '-')
    (taken : l.takeBlockEntry = .ok l') : Steady text s l' := by
  have plain : isBreakOrEnd l.cursor.peek = false := by
    rw [found]
    rfl
  have untouched : e.touch = false := poised.idle.untouched poised.here.toOnLine (by simp [found])
  have mark : l.mark.offsetIn text = n := poised.here.offset_eq
  rw [takeBlockEntry] at taken
  obtain ⟨block, taken⟩ := refuse_eq_ok.1 taken
  obtain ⟨_, taken⟩ := refuse_eq_ok.1 taken
  split at taken
  · cases taken
  · -- The dash begins a sequence, unless one of its column is open.
    have dash : opensAt text n '[' = false := by
      rw [poised.here.opensAt_eq rfl, found]
      rfl
    have start : Takes text e (l.mark.offsetIn text) .blockSequenceStart { lo := n } := by
      rw [mark]
      exact poised.idle.takes (Nat.le_refl _) (Nat.le_refl _) untouched
        (by simp [poised.idle.closing_eq]) (fun _ => dash) nofun rfl
    obtain ⟨r, levels, indent, queue, room, stands, entered⟩ := Stands.enterBlock
      (l := { l with cursor := l.cursor.skip 1 }) (poised.stands.of_eq rfl rfl rfl rfl)
      l.mark.column start (Nat.le_of_eq mark)
    simp only [entered] at taken stands
    obtain ⟨⟨cursor, gap⟩, blanks, taken⟩ := bind_eq_ok.1 taken
    obtain ⟨_, taken⟩ := refuse_eq_ok.1 taken
    obtain ⟨removed, remove, taken⟩ := bind_eq_ok.1 taken
    cases taken
    obtain ⟨k, leads⟩ := Cursor.leads_skipToLineEnd blanks
    have reads := ((Cursor.reads_skip_one plain).trans leads).lookAhead 2
    have there := reads.moves text n poised.here
    have idle : r.Idle text (n + (1 + k)) l.keys ∧ r.touch = false := by
      rcases room with rfl | rfl
      · exact ⟨poised.idle.of_untouched untouched (by omega), untouched⟩
      · exact ⟨Room.idle_of_lo_le (by omega), rfl⟩
    have before : Stands text s r n { l with cursor := cursor.lookAhead 2, queue, indent, levels } :=
      stands.of_eq rfl rfl rfl rfl
    obtain ⟨standing, cursor_eq, length⟩ := before.behindDash remove
    have depth : removed.keys.length = 1 := by
      have outside : l.flowDepth = 0 := by simpa [inFlow] using block
      rw [length]
      simp [poised.stands.depth, outside]
    have fit : Solid text r (n + (1 + k)) .blockEntry (n + (1 + k)) :=
      idle.1.solid (Nat.le_refl _) (Nat.le_refl _) (Nat.le_refl _) (by simp [idle.2])
        (by simp [idle.1.closing_eq]) nofun nofun fun _ => rfl
    have offset : removed.mark.offsetIn text = n + (1 + k) := by
      rw [Layout.mark, cursor_eq]
      exact there.offset_eq
    have final := (standing.mono (m := n + (1 + k)) (by omega)).push
      (by rw [offset]; exact .solid fit) (Nat.le_of_eq offset)
    refine Poised.steady ⟨final.of_eq rfl rfl rfl rfl, ?_, ?_⟩
    · exact
        { lo_le := Nat.le_refl _
          cap_eq := by simp [Room.after, idle.1.cap_eq]
          fresh_eq := rfl
          touching := fun _ => rfl
          closing_eq := rfl
          bracket := fun touch => ⟨touch, depth⟩ }
    · exact cursor_eq ▸ there

theorem skipAfterQuestionMark_spec (fuel : Nat) (l : Layout) :
    ∃ cursor keyAllowed, (skipAfterQuestionMark fuel l).1 = { l with cursor, keyAllowed } ∧
      Leads l.cursor cursor := by
  induction fuel generalizing l with
  | zero => exact ⟨_, _, rfl, .refl _⟩
  | succ fuel ih =>
      simp only [skipAfterQuestionMark]
      split
      · rename_i blank
        obtain ⟨cursor, allowed, same, leads⟩ := ih { l with cursor := l.cursor.skipBlank 1 }
        refine ⟨cursor, allowed, same, Leads.trans ⟨1, ?_⟩ leads⟩
        exact Cursor.reads_skipBlank_one (isBreakOrEnd_of_eq (beq_iff_eq.1 blank) rfl)
      · split
        · obtain ⟨cursor, allowed, same, leads⟩ := ih
            { l with
              cursor := (l.cursor.lookAhead 2).skipBreak
              keyAllowed := l.keyAllowed || !l.inFlow }
          exact ⟨cursor, allowed, same, (Cursor.leads_skipBreak 2 _).trans leads⟩
        · split
          · obtain ⟨cursor, allowed, same, leads⟩ := ih { l with cursor := l.cursor.skipComment }
            exact ⟨cursor, allowed, same, (Cursor.leads_skipComment _).trans leads⟩
          · exact ⟨_, _, rfl, .refl _⟩

/-- The start of a block mapping at an indicator. -/
theorem Poised.takes_mapping {char : Char} (poised : Poised text s e n l)
    (found : l.cursor.peek = char) (square : char ≠ '[') (curly : char ≠ '\x7b') :
    Takes text e (l.mark.offsetIn text) .blockMappingStart { lo := n } := by
  have mark : l.mark.offsetIn text = n := poised.here.offset_eq
  have brace : opensAt text n '\x7b' = false := by
    rw [poised.here.opensAt_eq rfl, found]
    exact beq_false_of_ne curly
  rw [mark]
  exact poised.idle.takes (Nat.le_refl _) (Nat.le_refl _)
    (poised.idle.untouched poised.here.toOnLine (found ▸ square))
    (by simp [poised.idle.closing_eq]) nofun (fun _ => brace) rfl

theorem steady_takeKey (poised : Poised text s e n l) (found : l.cursor.peek = '?')
    (taken : l.takeKey = .ok l') : Steady text s l' := by
  have plain : isBreakOrEnd l.cursor.peek = false := by
    rw [found]
    rfl
  have untouched : e.touch = false := poised.idle.untouched poised.here.toOnLine (by simp [found])
  have mark : l.mark.offsetIn text = n := poised.here.offset_eq
  rw [takeKey] at taken
  obtain ⟨_, taken⟩ := refuse_eq_ok.1 taken
  obtain ⟨removed, remove, taken⟩ := bind_eq_ok.1 taken
  -- Outside of flow collections the question mark may begin a mapping.
  obtain ⟨r, room, standing, cursor⟩ : ∃ r, (r = e ∨ r = { lo := n }) ∧ Stands text s r n removed ∧
      removed.cursor = l.cursor := by
    split at remove
    · obtain ⟨standing, same, _⟩ := Stands.removeKey remove (poised.stands.of_eq rfl rfl rfl rfl)
      exact ⟨e, .inl rfl, standing, by rw [same]⟩
    · obtain ⟨r, levels, indent, queue, room, stands, entered⟩ := poised.stands.enterBlock
        l.mark.column (poised.takes_mapping found (by decide) (by decide)) (Nat.le_of_eq mark)
      obtain ⟨standing, same, _⟩ := Stands.removeKey remove stands
      exact ⟨r, room, standing, by rw [same, entered]⟩
  have idle : r.Free n ∧ r.touch = false ∧ r.closing = false := by
    rcases room with rfl | rfl
    · exact ⟨poised.idle.toFree, untouched, poised.idle.closing_eq⟩
    · exact ⟨Room.free_self n, rfl, rfl⟩
  obtain ⟨last, allowed, skipped, k, leads⟩ := skipAfterQuestionMark_spec
    ((removed.cursor.skip 1).rest.length + 1)
    { removed with keyAllowed := !removed.inFlow, cursor := removed.cursor.skip 1 }
  simp only [skipped] at taken
  obtain ⟨_, taken⟩ := refuse_eq_ok.1 taken
  obtain ⟨_, taken⟩ := refuse_eq_ok.1 taken
  cases taken
  simp only [cursor] at leads
  have there := ((Cursor.reads_skip_one plain).trans leads).moves text n poised.here
  have opened : opensAt text n '\x7b' = false := by
    rw [poised.here.opensAt_eq rfl, found]
    rfl
  have takes : Takes text r n .key { lo := n + (1 + k) } :=
    idle.1.takes (by omega) (by simp only [Token.shownEnd]; omega) idle.2.1 (by simp [idle.2.2])
      nofun nofun (by simp [Room.touches, idle.2.1, opened])
  exact steady_of_stands ((standing.take takes mark (by omega)).of_eq rfl rfl rfl rfl) there

theorem skipTabAfterColon_spec (read : l.skipTabAfterColon = .ok l') :
    ∃ cursor, l' = { l with cursor } ∧ Leads l.cursor cursor := by
  rw [skipTabAfterColon] at read
  split at read
  · obtain ⟨⟨cursor, gap⟩, blanks, read⟩ := bind_eq_ok.1 read
    obtain ⟨_, read⟩ := refuse_eq_ok.1 read
    cases read
    exact ⟨cursor, rfl, Cursor.leads_skipToLineEnd blanks⟩
  · cases read
    exact ⟨_, rfl, .refl _⟩

theorem insertIdx_append {α : Type} (before rest : List α) (x : α) :
    (before ++ rest).insertIdx before.length x = before ++ x :: rest := by
  induction before with
  | nil => rfl
  | cons first before ih => simp [ih]

/-- The waiting tokens with a key, and perhaps the start of its mapping before it. -/
def keyedQueue (l : Layout) (key : SimpleKey) (start : Option MarkedToken) : List MarkedToken :=
  let queue := l.queue.insertIdx (key.number - l.gone) ⟨key.mark, .key⟩
  match start with
  | none => queue
  | some token => queue.insertIdx (key.number - l.gone) token

/-- What is left of a layout once a key has been completed. -/
structure Keyed (key : SimpleKey) (start : Option MarkedToken) (l l' : Layout) : Prop where
  queue_eq : l'.queue = l.keyedQueue key start
  keys_eq : l'.keys = { key with possible := false } :: l.keys.tail
  gone_eq : l'.gone = l.gone
  depth_eq : l'.flowDepth = l.flowDepth
  cursor_eq : l'.cursor = l.cursor

theorem completeKey_cases {key : SimpleKey} {colon : Mark}
    (flow : l.implicitFlowMapping = true → l.inFlow = true)
    (completed : l.completeKey key colon = .ok l') :
    ∃ start, Keyed key start l l' ∧ ∀ token ∈ start, token = ⟨colon, .blockMappingStart⟩ ∨
      (token = ⟨l.mark, .flowMappingStart⟩ ∧ l.inFlow = true) := by
  have finish {inner : Layout} {start : Option MarkedToken}
      (queue : inner.queue = l.keyedQueue key start) (keys : inner.keys = l.keys)
      (gone : inner.gone = l.gone) (depth : inner.flowDepth = l.flowDepth)
      (cursor : inner.cursor = l.cursor) :
      Keyed key start l { inner.enterInline.setTopKey { key with possible := false } with
        keyAllowed := false } := by
    obtain ⟨levels, indent, inline⟩ := inner.enterInline_eq
    rw [inline]
    exact ⟨queue, by rw [← keys]; rfl, gone, depth, cursor⟩
  simp only [completeKey, ok_bind, error_bind] at completed
  split at completed
  · cases completed
    obtain ⟨levels, indent, same | ⟨_, same⟩⟩ := (l.insertAt key.number key.mark .key).enterBlock_cases
      key.mark.column (some key.number) colon .blockMappingStart
    · rw [same]
      exact ⟨none, finish rfl rfl rfl rfl rfl, nofun⟩
    · rw [same]
      exact ⟨some ⟨colon, .blockMappingStart⟩, finish rfl rfl rfl rfl rfl, by simp⟩
  · rename_i implicit
    have inside : l.inFlow = true := flow (by simpa [insertAt] using implicit)
    obtain ⟨_, completed⟩ := refuse_eq_ok.1 completed
    cases completed
    obtain ⟨levels, indent, same | ⟨outside, _⟩⟩ := ((l.insertAt key.number key.mark .key).insertAt
      key.number (l.insertAt key.number key.mark .key).mark .flowMappingStart).enterBlock_cases
      key.mark.column (some key.number) colon .blockMappingStart
    · rw [same]
      exact ⟨some ⟨l.mark, .flowMappingStart⟩, finish rfl rfl rfl rfl rfl, by simp [inside]⟩
    · rw [show l.inFlow = false from outside] at inside
      cases inside

/-- A colon makes a key of the tokens from the saved place on. -/
theorem Stands.completeKey {m : Nat} {key : SimpleKey} {keys : List SimpleKey} {colon : Mark}
    (stands : Stands text s e n l) (idle : e.Idle text n l.keys) (cons : l.keys = key :: keys)
    (possible : key.possible = true) (offset : colon.offsetIn text = n)
    (brace : opensAt text n '\x7b' = false) (here : l.mark.offsetIn text = m) (le : n ≤ m)
    (flow : l.implicitFlowMapping = true → l.inFlow = true)
    (completed : l.completeKey key colon = .ok l') :
    ∃ cap, Stands text s { e with cap := cap } m l' ∧ (∀ c ∈ cap, n ≤ c) ∧
      l'.cursor = l.cursor := by
  obtain ⟨start, keyed, kinds⟩ := completeKey_cases flow completed
  have waits := stands.waits
  have depth := stands.depth
  rw [cons] at waits depth
  rw [List.length_cons] at depth
  have starts : ∀ token ∈ start, n ≤ token.mark.offsetIn text ∧
      ((token.token = .blockMappingStart ∧
          opensAt text (token.mark.offsetIn text) '\x7b' = false) ∨
        (token.token = .flowMappingStart ∧ keys.length ≠ 0)) := by
    intro token member
    rcases kinds token member with rfl | ⟨rfl, inside⟩
    · rw [offset]
      exact ⟨Nat.le_refl _, .inl ⟨rfl, brace⟩⟩
    · have deep : l.flowDepth ≠ 0 := by simpa [inFlow] using inside
      exact ⟨here.symm ▸ le, .inr ⟨rfl, by omega⟩⟩
  obtain ⟨before, rest, cap, queue, number, reached, capped, waits⟩ :=
    waits.complete possible idle.cap_eq stands.marks starts
  have place : key.number - l.gone = before.length := by omega
  have inserted : l'.queue = before ++ (start.toList ++ ⟨key.mark, .key⟩ :: rest) := by
    simp only [keyed.queue_eq, keyedQueue, queue, place, insertIdx_append]
    cases start with
    | none => rfl
    | some token => simp
  refine ⟨cap, ⟨?_, ?_, ?_⟩, capped, keyed.cursor_eq⟩
  · rw [inserted, keyed.keys_eq, keyed.gone_eq, cons, List.tail_cons]
    exact .skip rfl waits
  · rw [inserted]
    intro token member
    simp only [List.mem_append, List.mem_cons, Option.mem_toList] at member
    have old (member : token ∈ l.queue) : token.mark.offsetIn text ≤ m :=
      Nat.le_trans (stands.marks token member) le
    rcases member with member | member | rfl | member
    · exact old (by simp [queue, member])
    · rcases kinds token member with rfl | ⟨rfl, _⟩
      · exact offset.symm ▸ le
      · exact Nat.le_of_eq here
    · exact Nat.le_trans reached le
    · exact old (by simp [queue, member])
  · rw [keyed.keys_eq, keyed.depth_eq, cons, List.tail_cons, List.length_cons]
    omega

/-- Room for a value at `n`, behind a key or the start of a mapping. -/
structure ValueRoom (n : Nat) (r : Room) : Prop where
  lo_le : r.lo ≤ n
  capped : ∀ c ∈ r.cap, n ≤ c
  untouched : r.touch = false
  closing_eq : r.closing = false

theorem ValueRoom.takes {m : Nat} {r : Room} (room : ValueRoom n r) (le : n + 1 ≤ m) :
    Takes text r n .value { lo := m } := by
  have fit : Solid text r n .value m :=
    { behind := room.lo_le
      room := by omega
      shown := le
      capped := room.capped
      touching := by simp [room.untouched]
      due := fun _ => .inr rfl
      closing := by simp [room.closing_eq]
      sequence := by simp
      mapping := by simp
      next := by simp [Room.touches] }
  exact .solid fit

/-- The value of a key that is marked or empty. -/
theorem Stands.beginValue {m : Nat} {colon : Mark} (stands : Stands text s e n l)
    (idle : e.Idle text n l.keys) (untouched : e.touch = false) (offset : colon.offsetIn text = n)
    (brace : opensAt text n '\x7b' = false) (here : l.mark.offsetIn text = m) (le : n ≤ m)
    (flow : l.implicitFlowMapping = true → l.inFlow = true)
    (begun : l.beginValue colon = .ok l') :
    ∃ r, Stands text s r m l' ∧ ValueRoom n r ∧ l'.cursor = l.cursor := by
  simp only [Layout.beginValue] at begun
  obtain ⟨_, begun⟩ := refuse_eq_ok.1 begun
  cases begun
  split
  · rename_i implicit
    have loose : Loose text e (l.mark.offsetIn text) .flowMappingStart e.lo :=
      { behind := Nat.le_trans idle.lo_le (here.symm ▸ le)
        room := Nat.le_refl _
        start := .inr ⟨rfl, untouched⟩
        capped := by simp [idle.cap_eq]
        touching := fun _ => rfl
        due := idle.fresh_eq
        closing := idle.closing_eq }
    have pushed := (stands.mono le).push (.loose loose) (Nat.le_of_eq here)
    obtain ⟨levels, indent, same | ⟨outside, _⟩⟩ := (l.push l.mark .flowMappingStart).enterBlock_cases
      colon.column none colon .blockMappingStart
    · rw [same]
      have entered : Stands text s _ m { l.push l.mark .flowMappingStart with levels, indent } :=
        pushed.of_eq rfl rfl rfl rfl
      refine ⟨_, entered.enterInline.of_eq rfl rfl rfl rfl, ?_, ?_⟩
      · refine ⟨idle.lo_le, fun c found => ?_, untouched, rfl⟩
        cases found
        exact here.symm ▸ le
      · simp [Layout.push]
    · have inside := flow implicit
      rw [show l.inFlow = false from outside] at inside
      cases inside
  · have takes : Takes text e (colon.offsetIn text) .blockMappingStart { lo := n } := by
      rw [offset]
      exact idle.takes (Nat.le_refl _) (Nat.le_refl _) untouched (by simp [idle.closing_eq])
        (by simp) (fun _ => brace) rfl
    obtain ⟨r, levels, indent, queue, room, entered, same⟩ :=
      stands.enterBlock colon.column takes (Nat.le_of_eq offset)
    refine ⟨r, (entered.enterInline.mono le).of_eq rfl rfl rfl rfl, ?_, ?_⟩
    · rcases room with rfl | rfl
      · exact ⟨idle.lo_le, by simp [idle.cap_eq], untouched, idle.closing_eq⟩
      · exact ⟨Nat.le_refl _, by simp, rfl, rfl⟩
    · simp [same]

theorem steady_takeValue (poised : Poised text s e n l) (found : l.cursor.peek = ':')
    (taken : l.takeValue = .ok l') : Steady text s l' := by
  have plain : isBreakOrEnd l.cursor.peek = false := by
    rw [found]
    rfl
  have untouched : e.touch = false := poised.idle.untouched poised.here.toOnLine (by simp [found])
  have mark : l.mark.offsetIn text = n := poised.here.offset_eq
  have brace : opensAt text n '\x7b' = false := by
    rw [poised.here.opensAt_eq rfl, found]
    rfl
  obtain ⟨tabbed, tabs, taken⟩ := bind_eq_ok.1 taken
  obtain ⟨cursor, rfl, k, leads⟩ := skipTabAfterColon_spec tabs
  have there := ((Cursor.reads_skip_one plain).trans leads).moves text n poised.here
  have flow : (l.inFlow && !l.flowMappingStarted) = true → l.inFlow = true := fun both =>
    (Bool.and_eq_true_iff.1 both).1
  have stands : Stands text s e n
      { l with implicitFlowMapping := l.inFlow && !l.flowMappingStarted, cursor } :=
    poised.stands.of_eq rfl rfl rfl rfl
  -- Either way there is room for the value at the colon.
  have finish {after : Layout} {r : Room} (standing : Stands text s r (n + (1 + k)) after)
      (room : ValueRoom n r) (same : after.cursor = cursor) :
      Steady text s (after.push l.mark .value) := by
    have takes : Takes text r (l.mark.offsetIn text) .value { lo := n + (1 + k) } := by
      rw [mark]
      exact room.takes (by omega)
    exact steady_of_stands (standing.push takes (by omega)) (same ▸ there)
  simp only at taken
  split at taken
  · rename_i possible
    obtain ⟨after, completed, taken⟩ := bind_eq_ok.1 taken
    cases taken
    obtain ⟨key, keys, cons⟩ := poised.stands.exists_cons
    have top : l.topKey = key := by simp [topKey, cons]
    rw [top] at possible completed
    obtain ⟨cap, standing, capped, same⟩ := stands.completeKey poised.idle cons possible mark brace
      there.offset_eq (by omega) flow completed
    exact finish standing ⟨poised.idle.lo_le, capped, untouched, poised.idle.closing_eq⟩ same
  · obtain ⟨after, begun, taken⟩ := bind_eq_ok.1 taken
    cases taken
    obtain ⟨r, standing, room, same⟩ := stands.beginValue poised.idle untouched mark brace
      there.offset_eq (by omega) flow begun
    exact finish standing room same

end Layout

end WorkflowScope.Yaml
