import WorkflowScope.Proofs.Yaml.Ahead
import WorkflowScope.Proofs.Yaml.Indicators

/-!
# The tokens of a text have room in it

Cutting a text into tokens piece by piece keeps the waiting tokens in their places, and the tokens
that have gone took theirs before them. So the tokens of a text take their places one after the
other.
-/

namespace WorkflowScope.Yaml

namespace Layout

variable {text : List Char} {s e : Room} {n : Nat} {l l' : Layout}

/-! ## Documents -/

/-- Everything that a document holds ends where the cursor stands. -/
theorem Poised.endContent (poised : Poised text s e n l) (other : l.cursor.peek ≠ '[')
    (ended : l.endContent = .ok l') :
    ∃ r, Stands text s r n l' ∧ r.Idle text n l'.keys ∧ r.touch = false ∧ l'.cursor = l.cursor := by
  have untouched : e.touch = false := poised.idle.untouched poised.here.toOnLine other
  obtain ⟨removed, remove, ended⟩ := bind_eq_ok.1 ended
  cases ended
  obtain ⟨r, levels, indent, queue, stands, room, left⟩ := poised.stands.leaveBlocks
    (-1) poised.idle.toFree poised.idle.closing_eq poised.here.offset_eq (Nat.le_refl _)
  obtain ⟨standing, same, _⟩ := Stands.removeKey remove stands
  refine ⟨r, standing.of_eq rfl rfl rfl rfl, ?_⟩
  have cursor : removed.cursor = l.cursor := by rw [same, left]
  rcases room with rfl | rfl
  · exact ⟨poised.idle.of_untouched untouched (Nat.le_refl _), untouched, cursor⟩
  · exact ⟨Room.idle_of_lo_le (Nat.le_refl _), rfl, cursor⟩

/-- A token between documents, read up to `m`. -/
theorem Poised.document {m : Nat} {ended : Layout} (poised : Poised text s e n l) (token : Token)
    (other : l.cursor.peek ≠ '[') (content : l.endContent = .ok ended)
    (shown : token.shownEnd text n = n) (le : n ≤ m)
    (quiet : token ≠ .blockSequenceStart ∧ token ≠ .blockMappingStart ∧ token ≠ .blockEntry ∧
      token ≠ .key) :
    Stands text s { lo := m } m (ended.push ended.mark token) ∧ ended.cursor = l.cursor := by
  obtain ⟨r, stands, idle, untouched, cursor⟩ := poised.endContent other content
  have mark : ended.mark.offsetIn text = n := by
    rw [Layout.mark, cursor]
    exact poised.here.offset_eq
  refine ⟨stands.take (idle.takes le (by omega) untouched (by simp [idle.closing_eq])
    (fun same => absurd same quiet.1) (fun same => absurd same quiet.2.1) ?_) mark le, cursor⟩
  cases token with
  | blockEntry => exact absurd rfl quiet.2.2.1
  | key => exact absurd rfl quiet.2.2.2
  | _ => rfl

theorem steady_takeDirective (poised : Poised text s e n l) (found : l.cursor.peek = '%')
    (taken : l.takeDirective = .ok l') : Steady text s l' := by
  obtain ⟨ended, content, taken⟩ := bind_eq_ok.1 taken
  obtain ⟨⟨cursor, token⟩, read, taken⟩ := bind_eq_ok.1 taken
  cases taken
  have other : l.cursor.peek ≠ '[' := by simp [found]
  obtain ⟨_, _, _, _, same⟩ := poised.endContent other content
  rw [same] at read
  obtain ⟨⟨k, reads⟩, kind⟩ := Directive.leads_read found read
  have stands : Stands text s { lo := n + k } (n + k) (ended.push ended.mark token) := by
    rcases kind with rfl | ⟨handle, rfl⟩
    · exact (poised.document .versionDirective other content rfl (by omega) (by simp)).1
    · exact (poised.document (.tagDirective handle) other content rfl (by omega) (by simp)).1
  exact steady_of_stands (stands.of_eq rfl rfl rfl rfl) (reads.moves text n poised.here)

/-- Three characters of a line between documents. -/
theorem reads_marker {c : Cursor} {dash : Char} (found : c.startsWithMarker dash = true)
    (plain : isBreakOrEnd dash = false) : Cursor.Reads 3 c (c.skip 3) := by
  simp only [Cursor.startsWithMarker, Bool.and_eq_true, beq_iff_eq] at found
  obtain ⟨⟨⟨first, second⟩, third⟩, _⟩ := found
  refine reads_skip_of_peekAt fun i below => ?_
  match i, below with
  | 0, _ =>
      rw [peekAt_zero]
      exact isBreakOrEnd_of_eq first plain
  | 1, _ => exact isBreakOrEnd_of_eq second plain
  | 2, _ => exact isBreakOrEnd_of_eq third plain

theorem steady_takeDocumentStart (poised : Poised text s e n l)
    (found : l.cursor.startsWithMarker '-' = true) (taken : l.takeDocumentStart = .ok l') :
    Steady text s l' := by
  obtain ⟨ended, content, taken⟩ := bind_eq_ok.1 taken
  cases taken
  have reads := reads_marker found rfl
  have other : l.cursor.peek ≠ '[' := by
    simp only [Cursor.startsWithMarker, Bool.and_eq_true, beq_iff_eq] at found
    simp [found.1.1.1]
  obtain ⟨stands, same⟩ := poised.document (m := n + 3) .documentStart other content rfl (by omega)
    (by simp)
  refine steady_of_stands (stands.of_eq rfl rfl rfl rfl) ?_
  simp only [Layout.push, same]
  exact reads.moves text n poised.here

theorem steady_takeDocumentEnd (poised : Poised text s e n l)
    (found : l.cursor.startsWithMarker '.' = true) (taken : l.takeDocumentEnd = .ok l') :
    Steady text s l' := by
  obtain ⟨ended, content, taken⟩ := bind_eq_ok.1 taken
  obtain ⟨last, blanks, taken⟩ := bind_eq_ok.1 taken
  cases (ensure_eq_ok.1 taken).2
  obtain ⟨cursor, rfl, k, leads⟩ := skipToLineEnd_spec blanks
  have other : l.cursor.peek ≠ '[' := by
    simp only [Cursor.startsWithMarker, Bool.and_eq_true, beq_iff_eq] at found
    simp [found.1.1.1]
  obtain ⟨stands, same⟩ := poised.document (m := n + (3 + k)) .documentEnd other content rfl
    (by omega) (by simp)
  simp only [Layout.push, same] at leads
  have there := ((reads_marker found rfl).trans leads).moves text n poised.here
  exact steady_of_stands (stands.of_eq rfl rfl rfl rfl) there

/-! ## The end of the stream -/

/-- The stream has ended: all its tokens wait, and none of them can begin a key. -/
structure Ended (text : List Char) (s : Room) (l : Layout) : Prop where
  run : ∃ r, Run text s l.queue r ∧ r.lo ≤ text.length
  given : ∀ key ∈ l.keys, key.possible = false
  last : ∃ token ∈ l.queue, token.token = .streamEnd
  marks : ∀ token ∈ l.queue, token.mark.offsetIn text ≤ l.mark.offsetIn text

theorem lt_of_mem_startsAfterBreaks {base start : Nat} {rest : List Char}
    (member : start ∈ startsAfterBreaks base rest) : base < start := by
  induction rest generalizing base with
  | nil => cases member
  | cons c rest ih =>
      rw [startsAfterBreaks] at member
      split at member
      · rcases List.mem_cons.1 member with rfl | later
        · omega
        · have := ih later
          omega
      · have := ih member
        omega

/-- The mark at which a stream ends is not before the cursor. -/
theorem le_endMark {c : Cursor} (here : c.OnLine text n) :
    n ≤ Mark.offsetIn text
      (if c.mark.column = 0 then c.mark else ⟨c.mark.index, c.mark.line + 1, 0⟩) := by
  split
  · exact here.le_offsetIn
  · obtain ⟨passed, start, starts, line, _⟩ := here.lines
    have inside := here.le_length
    rw [Mark.offsetIn, Mark.offset, starts, ← line]
    simp only
    split
    · rename_i next found
      have member : next ∈ startsAfterBreaks n c.rest := by
        rw [List.getElem?_append_right (by omega), Nat.add_sub_cancel_left,
          List.getElem?_cons_succ] at found
        exact List.mem_of_getElem? found
      have after := lt_of_mem_startsAfterBreaks member
      omega
    · exact inside

theorem ended_endStream (stands : Stands text s e n l) (idle : e.Idle text n l.keys)
    (here : l.cursor.OnLine text n) (stop : isEnd l.cursor.peek = true)
    (ended : l.endStream = .ok l') : Ended text s l' := by
  have untouched : e.touch = false := idle.untouched here (by
    intro same
    rw [same] at stop
    cases stop)
  rw [endStream] at ended
  obtain ⟨_, ended⟩ := refuse_eq_ok.1 ended
  obtain ⟨removed, remove, ended⟩ := bind_eq_ok.1 ended
  cases ended
  generalize given : (if l.mark.column = 0 then l.mark else ⟨l.mark.index, l.mark.line + 1, 0⟩) = mark
    at remove
  have later : n ≤ mark.offsetIn text := given ▸ le_endMark here
  have closed : Stands text s e (mark.offsetIn text)
      { l with
        cursor := { l.cursor with mark }
        keys := l.keys.map fun (key : SimpleKey) => { key with possible := false } } :=
    ⟨by simpa using stands.waits.giveUp fun _ => true, (stands.mono later).marks,
      by simpa using stands.depth⟩
  have idle : e.Idle text (mark.offsetIn text) l.keys := idle.of_untouched untouched later
  obtain ⟨r, levels, indent, queue, left, room, same⟩ := closed.leaveBlocks (-1) idle.toFree
    idle.closing_eq rfl (Nat.le_refl _)
  obtain ⟨standing, eq, _⟩ := Stands.removeKey remove left
  have cursor : removed.mark = mark := by rw [eq, same]; rfl
  have free : r.Free (mark.offsetIn text) ∧ r.touch = false ∧ r.closing = false := by
    rcases room with rfl | rfl
    · exact ⟨idle.toFree, untouched, idle.closing_eq⟩
    · exact ⟨Room.free_self _, rfl, rfl⟩
  have takes : Takes text r (removed.mark.offsetIn text) .streamEnd { lo := mark.offsetIn text } := by
    rw [cursor]
    exact free.1.takes (Nat.le_refl _) (Nat.le_refl _) free.2.1 (by simp [free.2.2]) nofun nofun rfl
  have last := standing.push takes (Nat.le_of_eq (congrArg _ cursor))
  refine ⟨⟨_, last.waits.toRun, mark.offsetIn_le text⟩, ?_, ⟨⟨removed.mark, .streamEnd⟩,
    List.mem_append_right _ (List.mem_singleton.2 rfl), rfl⟩, ?_⟩
  · obtain ⟨_, removed_eq⟩ := refuse_eq_ok.1 remove
    cases removed_eq
    intro key member
    simp only [Layout.push, setTopKey, same] at member
    rcases List.mem_cons.1 member with rfl | later
    · rfl
    · obtain ⟨old, _, rfl⟩ := List.mem_map.1 (List.mem_of_mem_tail later)
      rfl
  · rw [← cursor] at last
    exact last.marks

/-! ## Piece by piece -/

theorem steady_takeContent (poised : Poised text s e n l) (taken : l.takeContent = .ok l') :
    Steady text s l' := by
  have word (square : l.cursor.peek ≠ '[') (curly : l.cursor.peek ≠ '\x7b')
      (taken : l.takePlainScalar = .ok l') : Steady text s l' :=
    steady_takePlainScalar poised square curly taken
  simp only [takeContent] at taken
  split at taken
  · rename_i found
    exact steady_takeFlowStart poised found (.inl ⟨rfl, rfl⟩) taken
  · rename_i found
    exact steady_takeFlowStart poised found (.inr ⟨rfl, rfl⟩) taken
  · rename_i found
    exact steady_takeFlowEnd poised (.inl found) (.inl rfl) taken
  · rename_i found
    exact steady_takeFlowEnd poised (.inr found) (.inr rfl) taken
  · rename_i found
    exact steady_takeFlowEntry poised found taken
  · rename_i found
    split at taken
    · exact steady_takeBlockEntry poised found taken
    · exact word (by simp [found]) (by simp [found]) taken
  · rename_i found
    split at taken
    · exact steady_takeKey poised found taken
    · exact word (by simp [found]) (by simp [found]) taken
  · rename_i found
    split at taken
    · exact steady_takeValue poised found taken
    · exact word (by simp [found]) (by simp [found]) taken
  · rename_i found
    exact steady_takeName poised (.inl ⟨found, rfl⟩) taken
  · rename_i found
    exact steady_takeName poised (.inr ⟨found, rfl⟩) taken
  · rename_i found
    exact steady_takeTag poised found taken
  · rename_i found
    split at taken
    · exact word (by simp [found]) (by simp [found]) taken
    · exact steady_takeBlockScalar poised (.inl found) (.inl rfl) taken
  · rename_i found
    split at taken
    · exact word (by simp [found]) (by simp [found]) taken
    · exact steady_takeBlockScalar poised (.inr found) (.inr rfl) taken
  · rename_i found
    exact steady_takeQuotedScalar poised taken found (.inl ⟨rfl, rfl⟩)
  · rename_i found
    exact steady_takeQuotedScalar poised taken found (.inr ⟨rfl, rfl⟩)
  · cases taken
  · cases taken
  · cases taken
  · rename_i square curly _ _ _ _ _ _ _ _ _ _ _ _ _ _ _ _
    exact word square curly taken

theorem steady_toToken (steady : Steady text s l) (skipped : l.toToken = .ok l') :
    Steady text s l' := by
  obtain ⟨n, e, stands, idle, onLine, settled⟩ := steady
  rcases settled with here | ⟨stop, column⟩
  · cases touch : e.touch with
    | true =>
        -- Behind a dash the bracket stands at once.
        have bracket := (idle.bracket touch).1
        rw [onLine.opensAt_eq rfl, beq_iff_eq] at bracket
        rw [toToken_eq_self (by rw [bracket]; rfl) (by rw [bracket]; rfl) (by simp [bracket])]
          at skipped
        cases skipped
        exact ⟨n, e, stands, idle, onLine, .inl here⟩
    | false =>
        obtain ⟨cursor, allowed, rfl, k, leads⟩ := skipToToken_spec skipped
        have there := leads.moves text n here
        exact ⟨n + k, e, (stands.mono (by omega)).of_eq rfl rfl rfl rfl,
          idle.of_untouched touch (by omega), there.toOnLine, .inl there⟩
  · have same : l.cursor.peek = '\x00' := beq_iff_eq.1 stop
    rw [toToken_eq_self (by rw [same]; rfl) (by rw [same]; rfl) (by simp [same])] at skipped
    cases skipped
    exact ⟨n, e, stands, idle, onLine, .inr ⟨stop, column⟩⟩

theorem steady_dropExpiredKeys (steady : Steady text s l) (dropped : l.dropExpiredKeys = .ok l') :
    Steady text s l' := by
  obtain ⟨n, e, stands, idle, onLine, settled⟩ := steady
  obtain ⟨standing, same, length⟩ := stands.dropExpiredKeys dropped
  refine ⟨n, e, standing, { idle with bracket := fun touch => ?_ }, ?_, ?_⟩
  · rw [length]
    exact idle.bracket touch
  · rw [same]
    exact onLine
  · rw [same]
    exact settled

theorem dropExpiredKeys_eq (dropped : l.dropExpiredKeys = .ok l') : ∃ keys, l' = { l with keys } := by
  obtain ⟨_, dropped⟩ := refuse_eq_ok.1 dropped
  cases dropped
  exact ⟨_, rfl⟩

/-- Blanks have been read up to the next token, and the blocks that end there have ended. -/
structure Arrives (text : List Char) (s r : Room) (n : Nat) (l ready : Layout) : Prop where
  stands : Stands text s r n ready
  idle : r.Idle text n ready.keys
  onLine : ready.cursor.OnLine text n
  depth_eq : ready.flowDepth = l.flowDepth
  queue : ∃ ends, ready.queue = l.queue ++ ends ∧
    ∀ token ∈ ends, token.token = .blockEnd ∧ n ≤ token.mark.offsetIn text
  still : isEnd l.cursor.peek = true → l.cursor.OnLine text n

/-- The pieces that can be read where a token stands. -/
inductive Piece (ready l' : Layout) : Prop where
  | directive (found : ready.cursor.peek = '%') (taken : ready.takeDirective = .ok l')
  | documentStart (found : ready.cursor.startsWithMarker '-' = true)
      (taken : ready.takeDocumentStart = .ok l')
  | documentEnd (found : ready.cursor.startsWithMarker '.' = true)
      (taken : ready.takeDocumentEnd = .ok l')
  | content (taken : ready.takeContent = .ok l')

/-- Reading on comes to the next token, or to the end of the stream. -/
theorem takeNext_cases (steady : Steady text s l) (taken : l.takeNext = .ok l') :
    ∃ n r ready, Arrives text s r n l ready ∧
      ((isEnd ready.cursor.peek = true ∧ ready.endStream = .ok l') ∨
        (isEnd ready.cursor.peek = false ∧ ready.cursor.At text n ∧ Piece ready l')) := by
  obtain ⟨reached, skipped, taken⟩ := bind_eq_ok.1 taken
  obtain ⟨dropped, drop, taken⟩ := bind_eq_ok.1 taken
  obtain ⟨n, e, stands, idle, onLine, settled⟩ :=
    steady_dropExpiredKeys (steady_toToken steady skipped) drop
  obtain ⟨cursor, allowed, reached_eq, -⟩ := skipToToken_spec skipped
  obtain ⟨keys, dropped_eq⟩ := dropExpiredKeys_eq drop
  -- Blocks end here only if the mark of the cursor is exact.
  obtain ⟨r, standing, idle⟩ : ∃ r, Stands text s r n (dropped.leaveBlocks dropped.cursor.column) ∧
      r.Idle text n (dropped.leaveBlocks dropped.cursor.column).keys := by
    rcases settled with here | ⟨_, column⟩
    · obtain ⟨r, levels, indent, queue, left, room, same⟩ := stands.leaveBlocks dropped.cursor.column
        idle.toFree idle.closing_eq here.offset_eq (Nat.le_refl _)
      refine ⟨r, left, ?_⟩
      rcases room with rfl | rfl
      · rw [same]
        exact idle
      · exact Room.idle_of_lo_le (Nat.le_refl _)
    · rw [leaveBlocks_eq_self column]
      exact ⟨e, stands, idle⟩
  obtain ⟨levels, indent, ends, left, all⟩ := leaveBlocks_eq dropped.cursor.column dropped
  rw [left] at standing idle
  simp only [left] at taken
  refine ⟨n, r, { dropped with
      levels, indent, queue := dropped.queue ++ ends, cursor := dropped.cursor.lookAhead 4 },
    ⟨standing.of_eq rfl rfl rfl rfl, idle, onLine.of_eq rfl rfl, ?_, ⟨ends, ?_, ?_⟩, ?_⟩, ?_⟩
  · rw [dropped_eq, reached_eq]
  · rw [dropped_eq, reached_eq]
  · intro token member
    rw [all token member]
    exact ⟨rfl, onLine.le_offsetIn⟩
  · intro ended
    have same : l.cursor.peek = '\x00' := beq_iff_eq.1 ended
    rw [toToken_eq_self (by rw [same]; rfl) (by rw [same]; rfl) (by simp [same])] at skipped
    cases skipped
    exact onLine.of_eq (by rw [dropped_eq]) (by rw [dropped_eq])
  · split at taken
    · next stop => exact .inl ⟨stop, taken⟩
    · next running =>
        refine .inr ⟨by simpa using running,
          (settled.resolve_right fun ended => running ended.1).of_eq rfl rfl, ?_⟩
        split at taken
        · next percent =>
            simp only [Bool.and_eq_true, beq_iff_eq] at percent
            exact .directive percent.2 taken
        · split at taken
          · next dashes => exact .documentStart (Bool.and_eq_true_iff.1 dashes).2 taken
          · split at taken
            · next dots => exact .documentEnd (Bool.and_eq_true_iff.1 dots).2 taken
            · obtain ⟨_, taken⟩ := refuse_eq_ok.1 taken
              exact .content taken

/-- A piece of the text keeps the waiting tokens in their places. -/
theorem steady_piece {ready : Layout} {r : Room} (poised : Poised text s r n ready)
    (piece : Piece ready l') : Steady text s l' := by
  cases piece with
  | directive found taken => exact steady_takeDirective poised found taken
  | documentStart found taken => exact steady_takeDocumentStart poised found taken
  | documentEnd found taken => exact steady_takeDocumentEnd poised found taken
  | content taken => exact steady_takeContent poised taken

/-- Reading on keeps the waiting tokens in their places, or ends the stream. -/
theorem steady_takeNext (steady : Steady text s l) (taken : l.takeNext = .ok l') :
    Steady text s l' ∨ Ended text s l' := by
  obtain ⟨n, r, ready, arrives, ⟨stop, ended⟩ | ⟨_, here, piece⟩⟩ := takeNext_cases steady taken
  · exact .inr (ended_endStream arrives.stands arrives.idle arrives.onLine stop ended)
  · exact .inl (steady_piece ⟨arrives.stands, arrives.idle, here⟩ piece)

/-- Tokens that go leave the others in their places. -/
theorem steady_release (queue : List MarkedToken) (steady : Steady text s { l with queue }) :
    ∃ t, Run text s ((release queue l).1.map ReadToken.marked) t ∧
      Steady text t (release queue l).2 := by
  induction queue generalizing s l with
  | nil => exact ⟨s, .nil (.refl s), steady⟩
  | cons token queue ih =>
      obtain ⟨mark, kind⟩ := token
      rw [release]
      split
      · exact ⟨s, .nil (.refl s), steady⟩
      · rename_i free
        obtain ⟨n, e, stands, idle, onLine, settled⟩ := steady
        obtain ⟨t, takes, waits⟩ := stands.waits.release (by
          intro key member possible same
          refine free (List.any_eq_true.2 ⟨key, member, ?_⟩)
          simp [possible, same])
        obtain ⟨u, run, later⟩ := ih (s := t) (l := { l with gone := l.gone + 1 })
          ⟨n, e, ⟨waits, fun token member => stands.marks token (by simp [member]), stands.depth⟩,
            idle, onLine, settled⟩
        exact ⟨u, .cons takes run, later⟩

/-- The tokens that go are told how far the text has been read. -/
theorem reached_of_mem_release {queue : List MarkedToken} {token : ReadToken}
    (member : token ∈ (release queue l).1) : token.reached = l.mark := by
  induction queue generalizing l with
  | nil => cases member
  | cons first queue ih =>
      obtain ⟨mark, kind⟩ := first
      rw [release] at member
      split at member
      · cases member
      · rcases List.mem_cons.1 member with rfl | later
        · rfl
        · exact ih (l := { l with gone := l.gone + 1 }) later

/-- Once the stream has ended, all its tokens go. -/
theorem release_of_given (queue : List MarkedToken) (given : ∀ key ∈ l.keys, key.possible = false) :
    (release queue l).1.map ReadToken.marked = queue := by
  induction queue generalizing l with
  | nil => rfl
  | cons token queue ih =>
      obtain ⟨mark, kind⟩ := token
      have free : l.awaitsKey = false := by
        rw [awaitsKey, List.any_eq_false]
        intro key member
        simp [given key member]
      rw [release, if_neg (by simp [free])]
      exact congrArg (List.cons ⟨mark, kind⟩) (ih (l := { l with gone := l.gone + 1 }) given)

theorem Steady.inside (steady : Steady text s l) : s.lo ≤ text.length := by
  obtain ⟨n, e, stands, idle, onLine, _⟩ := steady
  exact Nat.le_trans stands.waits.toRun.le (Nat.le_trans idle.lo_le onLine.le_length)

theorem steady_beginStream (text : List Char) :
    Steady text { lo := 0 } (Layout.initial text).beginStream := by
  have takes : Takes text { lo := 0 } 0 .streamStart { lo := 0 } :=
    (Room.free_self 0).takes (Nat.le_refl _) (Nat.le_refl _) rfl nofun nofun
      nofun rfl
  have offset : (Layout.initial text).mark.offsetIn text = 0 := (Cursor.at_initial text).offset_eq
  have start : Stands text { lo := 0 } { lo := 0 } 0 { Layout.initial text with keys := [{}] } :=
    ⟨.skip rfl (.run (.nil (.refl _))), nofun, rfl⟩
  exact steady_of_stands ((start.take takes offset (Nat.le_refl _)).of_eq rfl rfl rfl rfl)
    (Cursor.at_initial text)

end Layout

open Layout

theorem Ahead.none {text : List Char} {s : Room} (inside : s.lo ≤ text.length) :
    Ahead text s [] :=
  ⟨s, .nil (.refl s), inside⟩

/-- Keys that are given up stay so. -/
theorem given_dropExpiredKeys {l l' : Layout} (given : ∀ key ∈ l.keys, key.possible = false)
    (dropped : l.dropExpiredKeys = .ok l') : ∀ key ∈ l'.keys, key.possible = false := by
  obtain ⟨_, dropped⟩ := refuse_eq_ok.1 dropped
  cases dropped
  intro key member
  obtain ⟨old, found, rfl⟩ := List.mem_map.1 member
  split
  · rfl
  · exact given old found

/-- The end of the stream goes with the other tokens. -/
theorem stops_of_given {l : Layout} (given : ∀ key ∈ l.keys, key.possible = false)
    (last : ∃ token ∈ l.queue, token.token = .streamEnd) :
    (l.release l.queue).1.any (·.token = .streamEnd) = true := by
  obtain ⟨last, member, stop⟩ := last
  rw [← release_of_given l.queue given] at member
  obtain ⟨read, first, rfl⟩ := List.mem_map.1 member
  exact List.any_eq_true.2 ⟨read, first, decide_eq_true stop⟩

theorem ended_dropExpiredKeys {text : List Char} {s : Room} {l l' : Layout}
    (ended : Ended text s l) (dropped : l.dropExpiredKeys = .ok l') : Ended text s l' := by
  have given := given_dropExpiredKeys ended.given dropped
  obtain ⟨_, dropped⟩ := refuse_eq_ok.1 dropped
  cases dropped
  exact ⟨ended.run, given, ended.last, ended.marks⟩

/-- Before tokens go, keys are given up unless nothing waits. -/
theorem ready_eq {l next : Layout}
    (found : (if l.queue.isEmpty then .ok l else l.dropExpiredKeys) = .ok next) :
    (next = l ∨ l.dropExpiredKeys = .ok next) ∧ next.queue = l.queue ∧ next.cursor = l.cursor := by
  split at found
  · cases found
    exact ⟨.inl rfl, rfl, rfl⟩
  · obtain ⟨keys, same⟩ := dropExpiredKeys_eq found
    exact ⟨.inr found, by rw [same], by rw [same]⟩

theorem steady_ready {text : List Char} {s : Room} {l next : Layout} (steady : Steady text s l)
    (found : (if l.queue.isEmpty then .ok l else l.dropExpiredKeys) = .ok next) :
    Steady text s next := by
  obtain ⟨rfl | dropped, -⟩ := ready_eq found
  · exact steady
  · exact steady_dropExpiredKeys steady dropped

/-- Once the stream has ended, the waiting tokens are all that come, unless none do. -/
theorem tokens_of_ended {text : List Char} {s : Room} {l : Layout} (fuel : Nat)
    (ended : Ended text s l) : (tokenizeFrom fuel l).tokens = [] ∨
      ((tokenizeFrom fuel l).tokens.map ReadToken.marked = l.queue ∧
        ∀ token ∈ (tokenizeFrom fuel l).tokens, token.reached = l.mark) := by
  cases fuel with
  | zero => exact .inl rfl
  | succ fuel =>
      rw [tokenizeFrom]
      split
      · exact .inl rfl
      · rename_i next found
        obtain ⟨kept, queue, cursor⟩ := ready_eq found
        have ended : Ended text s next := by
          rcases kept with rfl | dropped
          · exact ended
          · exact ended_dropExpiredKeys ended dropped
        have all := release_of_given next.queue ended.given
        have stops := stops_of_given ended.given ended.last
        simp only [stops, if_true]
        refine .inr ⟨all.trans queue, ?_⟩
        intro token member
        rw [reached_of_mem_release member, Layout.mark, Layout.mark, cursor]

theorem ahead_of_ended {text : List Char} {s : Room} {l : Layout} (fuel : Nat)
    (ended : Ended text s l) : Ahead text s (tokenizeFrom fuel l).tokens := by
  obtain ⟨r, run, inside⟩ := ended.run
  rcases tokens_of_ended fuel ended with none | ⟨all, -⟩
  · rw [none]
    exact .none (Nat.le_trans run.le inside)
  · exact ⟨r, all.symm ▸ run, inside⟩

/-- The tokens that are still to come have room behind those that have gone. -/
theorem ahead_tokenizeFrom {text : List Char} {s : Room} {l : Layout} (fuel : Nat)
    (steady : Steady text s l) : Ahead text s (tokenizeFrom fuel l).tokens := by
  induction fuel generalizing s l with
  | zero => exact .none steady.inside
  | succ fuel ih =>
      rw [tokenizeFrom]
      split
      · exact .none steady.inside
      · rename_i next found
        have steady := steady_ready steady found
        obtain ⟨t, run, later⟩ := steady_release next.queue (l := next) steady
        simp only
        split
        · exact ⟨t, run, later.inside⟩
        · split
          · exact ⟨t, run, later.inside⟩
          · rename_i after taken
            obtain ⟨e, rest, inside⟩ : Ahead text t (tokenizeFrom fuel after).tokens := by
              rcases steady_takeNext later taken with steady | ended
              · exact ih steady
              · exact ahead_of_ended fuel ended
            refine ⟨e, ?_, inside⟩
            rw [List.map_append]
            exact run.append rest

theorem ahead_tokenize (text : List Char) : Ahead text { lo := 0 } (tokenize text).tokens :=
  ahead_tokenizeFrom _ (steady_beginStream text)

end WorkflowScope.Yaml
