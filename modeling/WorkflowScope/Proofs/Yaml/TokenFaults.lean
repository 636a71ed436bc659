import WorkflowScope.Proofs.Yaml.Refusals

/-!
# The faults of a text that is cut into tokens

Each piece of a text fails at a mark that was reached in the text, or moves the cursor on and leaves
such marks only. So all tokens of a text are marked at places that were reached, and its fault too.
-/

namespace WorkflowScope.Yaml

open Cursor (Leads)

namespace Layout

variable {text : List Char} {n : Nat} {c : Cursor} {l l' : Layout}

/-! ## Documents -/

theorem Located.endContent (located : Located text c l) :
    Brings text (Located text c) l.endContent := by
  refine .bind (located.leaveBlocks (-1)).removeKey fun removed located => ?_
  exact .ok (located.of_eq rfl rfl rfl)

theorem brings_takeDirective (located : Located text l.cursor l) (here : l.cursor.At text n)
    (found : l.cursor.peek = '%') : Brings text (Past text l.cursor) l.takeDirective := by
  refine .bind located.endContent fun ended located => ?_
  rw [located.cursor_eq]
  refine .bind (.of_met here (Directive.failsAt_read found)) fun read taken => ?_
  have way := (Directive.leads_read found taken).1
  have moved : Located text read.1 { ended with cursor := read.1 } :=
    located.at_cursor (here.told_of_met way.met) rfl rfl rfl
  exact .ok ⟨read.1, way, moved.push located.mark_told _⟩

theorem Located.moveTo {d : Cursor} (located : Located text c l) (told : Told text d.mark) :
    Located text d { l with cursor := d } :=
  located.at_cursor told rfl rfl rfl

/-- Behind the marker of a document. -/
theorem Located.skipMarker {dash : Char} (located : Located text c l) (here : c.At text n)
    (found : c.startsWithMarker dash = true) (plain : isBreakOrEnd dash = false) :
    Located text (c.skip 3) { l with cursor := l.cursor.skip 3 } :=
  located.at_cursor (here.told_of_met (reads_marker found plain).leads.met)
    (by rw [located.cursor_eq]) rfl rfl

theorem brings_takeDocumentStart (located : Located text l.cursor l) (here : l.cursor.At text n)
    (found : l.cursor.startsWithMarker '-' = true) :
    Brings text (Past text l.cursor) l.takeDocumentStart := by
  refine .bind located.endContent fun ended located => ?_
  have moved := located.skipMarker here found rfl
  exact .ok ⟨_, (reads_marker found rfl).leads, moved.push located.mark_told _⟩

theorem brings_takeDocumentEnd (located : Located text l.cursor l) (here : l.cursor.At text n)
    (found : l.cursor.startsWithMarker '.' = true) :
    Brings text (Past text l.cursor) l.takeDocumentEnd := by
  refine .bind located.endContent fun ended located => ?_
  have marker := reads_marker found rfl
  have pushed := (located.skipMarker here found rfl).push located.mark_told .documentEnd
  refine .bind (pushed.skipToLineEnd (marker.moves text n here)) fun last past => ?_
  obtain ⟨d, way, located⟩ := past
  split
  · exact .ok ⟨d, marker.leads.trans way, located⟩
  · exact located.fail

/-! ## Flow collections -/

/-- Behind one character. -/
theorem Located.skipOne (located : Located text c l) (here : c.At text n)
    (plain : isBreakOrEnd c.peek = false) :
    Located text (c.skip 1) { l with cursor := l.cursor.skip 1 } :=
  located.at_cursor (here.told_of_met ((Leads.refl c).one plain).met)
    (by rw [located.cursor_eq]) rfl rfl

/-- An indicator and the blanks behind it. -/
theorem Located.skipIndicator (located : Located text c l) (here : c.At text n)
    (plain : isBreakOrEnd c.peek = false) :
    Brings text (Past text c) { l with cursor := l.cursor.skip 1 }.skipToLineEnd := by
  have one := Cursor.reads_skip_one plain
  refine ((located.skipOne here plain).skipToLineEnd (one.moves text n here)).mono
    fun last past => ?_
  obtain ⟨d, way, located⟩ := past
  exact ⟨d, one.leads.trans way, located⟩

theorem Past.push {mark : Mark} (past : Past text c l) (told : Told text mark) (token : Token) :
    Past text c (l.push mark token) := by
  obtain ⟨d, way, located⟩ := past
  exact ⟨d, way, located.push told token⟩

theorem Past.of_eq (past : Past text c l) (cursor : l'.cursor = l.cursor)
    (queue : l'.queue = l.queue) (keys : l'.keys = l.keys) : Past text c l' := by
  obtain ⟨d, way, located⟩ := past
  exact ⟨d, way, located.of_eq cursor queue keys⟩

theorem brings_takeFlowStart (located : Located text l.cursor l) (here : l.cursor.At text n)
    (plain : isBreakOrEnd l.cursor.peek = false) (token : Token) :
    Brings text (Past text l.cursor) (l.takeFlowStart token) := by
  have saved := located.saveKey.enterInline
  rw [takeFlowStart]
  split
  · exact saved.fail
  · have opened : Located text l.cursor
        { l.saveKey.enterInline with
          keys := {} :: l.saveKey.enterInline.keys
          flowDepth := l.saveKey.enterInline.flowDepth + 1
          keyAllowed := true
          flowMappingStarted :=
            l.saveKey.enterInline.flowMappingStarted || (token == Token.flowMappingStart) } := by
      refine ⟨saved.cursor_eq, saved.told, saved.queue, fun key member possible => ?_⟩
      rcases List.mem_cons.1 member with rfl | old
      · cases possible
      · exact saved.keys key old possible
    refine .bind (opened.skipIndicator here plain) fun after past => ?_
    exact .ok (past.push saved.mark_told token)

theorem brings_takeFlowEnd (located : Located text l.cursor l) (here : l.cursor.At text n)
    (plain : isBreakOrEnd l.cursor.peek = false) (token : Token) :
    Brings text (Past text l.cursor) (l.takeFlowEnd token) := by
  refine .bind located.removeKey fun removed located => ?_
  have left : Located text l.cursor
      (if removed.inFlow then
        { removed with flowDepth := removed.flowDepth - 1, keys := removed.keys.tail }
      else removed) := by
    split
    · exact ⟨located.cursor_eq, located.told, located.queue,
        fun key member => located.keys key (List.mem_of_mem_tail member)⟩
    · exact located
  have ended := (left.of_eq rfl rfl rfl :
    Located text l.cursor { (if removed.inFlow then
        { removed with flowDepth := removed.flowDepth - 1, keys := removed.keys.tail }
      else removed) with keyAllowed := false }).endImplicitMapping
  refine .bind (ended.skipIndicator here plain) fun after past => ?_
  refine .ok (Past.push ?_ ended.mark_told token)
  split
  · exact past.of_eq rfl rfl rfl
  · exact past

theorem brings_takeFlowEntry (located : Located text l.cursor l) (here : l.cursor.At text n)
    (plain : isBreakOrEnd l.cursor.peek = false) :
    Brings text (Past text l.cursor) l.takeFlowEntry := by
  refine .bind located.removeKey fun removed located => ?_
  have ended := (located.of_eq rfl rfl rfl :
    Located text l.cursor { removed with keyAllowed := true }).endImplicitMapping
  refine .bind (ended.skipIndicator here plain) fun after past => ?_
  exact .ok (past.push ended.mark_told _)

/-! ## Block collections -/

/-- An anchor or a tag that stands too far out waits. -/
theorem Located.outerProperty {mark : Mark} (located : Located text c l)
    (found : l.outerProperty? = some mark) : Told text mark := by
  have waits {token : MarkedToken} (last : l.queue.getLast? = some token) : Told text token.mark :=
    located.queue token (List.mem_of_getLast? last)
  unfold outerProperty? at found
  split at found
  · rename_i last
    split at found
    · cases found
      exact waits last
    · cases found
  · rename_i last
    split at found
    · cases found
      exact waits last
    · cases found
  · cases found

theorem brings_takeBlockEntry (located : Located text l.cursor l) (here : l.cursor.At text n)
    (plain : isBreakOrEnd l.cursor.peek = false) :
    Brings text (Past text l.cursor) l.takeBlockEntry := by
  have one := Cursor.reads_skip_one plain
  have there := one.moves text n here
  rw [takeBlockEntry]
  split
  · exact located.fail
  · split
    · exact located.fail
    · split
      · rename_i mark found _
        exact .error (located.outerProperty found)
      · have entered := (located.skipOne here plain).enterBlock located.mark_told l.mark.column none
          .blockSequenceStart
        simp only [entered.cursor_eq]
        refine .bind (.of_met there (Cursor.failsAt_skipToLineEnd (.refl _))) fun found read => ?_
        have way := Cursor.leads_skipToLineEnd read
        have moved : Located text (found.1.lookAhead 2)
            { { l with cursor := l.cursor.skip 1 }.enterBlock l.mark.column none l.mark
              .blockSequenceStart with cursor := found.1.lookAhead 2 } :=
          entered.at_cursor (there.told_of_met way.met) rfl rfl rfl
        split
        · exact moved.fail
        · refine .bind (?_ : Brings text (Located text (found.1.lookAhead 2)) _)
            fun removed located => ?_
          · split
            · exact moved.enterInline.removeKey
            · exact moved.removeKey
          · have allowed : Located text (found.1.lookAhead 2) { removed with keyAllowed := true } :=
              located.of_eq rfl rfl rfl
            exact .ok ⟨_, (one.leads.trans way).ahead 2, allowed.push located.mark_told _⟩

theorem brings_takeKey (located : Located text l.cursor l) (here : l.cursor.At text n)
    (plain : isBreakOrEnd l.cursor.peek = false) : Brings text (Past text l.cursor) l.takeKey := by
  have one := Cursor.reads_skip_one plain
  rw [takeKey]
  split
  · exact located.fail
  · have entered : Located text l.cursor
        (if l.inFlow then { l with flowMappingStarted := true }
          else l.enterBlock l.mark.column none l.mark .blockMappingStart) := by
      split
      · exact located.of_eq rfl rfl rfl
      · exact located.enterBlock located.mark_told _ _ _
    refine .bind entered.removeKey fun removed located' => ?_
    have moved : Located text (l.cursor.skip 1)
        { removed with keyAllowed := !removed.inFlow, cursor := removed.cursor.skip 1 } :=
      (located'.skipOne here plain).of_eq rfl rfl rfl
    obtain ⟨last, allowed, skipped, way⟩ := skipAfterQuestionMark_spec
      ((removed.cursor.skip 1).rest.length + 1)
      { removed with keyAllowed := !removed.inFlow, cursor := removed.cursor.skip 1 }
    simp only [located'.cursor_eq] at way
    have past : Located text last { removed with cursor := last, keyAllowed := allowed } :=
      moved.at_cursor ((one.moves text n here).told_of_met way.met) rfl rfl rfl
    simp only [skipped]
    split
    · exact past.fail
    · split
      · exact past.fail
      · exact .ok ⟨last, one.leads.trans way, past.push located.mark_told _⟩

/-! ## Values -/

theorem brings_completeKey {key : SimpleKey} {colon : Mark} (located : Located text c l)
    (known : Told text key.mark) (told : Told text colon) :
    Brings text (Located text c) (l.completeKey key colon) := by
  have finish {inner : Layout} (located : Located text c inner) : Located text c
      { (inner.enterBlock key.mark.column (some key.number) colon
          .blockMappingStart).enterInline.setTopKey { key with possible := false } with
        keyAllowed := false } :=
    ((located.enterBlock told _ _ _).enterInline.setTopKey (by simp)).of_eq rfl rfl rfl
  have keyed := located.insertAt known key.number .key
  simp only [completeKey, ok_bind, error_bind]
  split
  · exact .ok (finish keyed)
  · split
    · exact .error told
    · exact .ok (finish (keyed.insertAt keyed.mark_told _ _))

theorem brings_beginValue {colon : Mark} (located : Located text c l) (told : Told text colon) :
    Brings text (Located text c) (l.beginValue colon) := by
  have begun : Located text c
      (if l.implicitFlowMapping then l.push l.mark .flowMappingStart else l) := by
    split
    · exact located.push located.mark_told _
    · exact located
  simp only [beginValue]
  generalize (if l.implicitFlowMapping then l.push l.mark .flowMappingStart else l) = inner
    at begun ⊢
  split
  · exact .error told
  · exact .ok ((begun.enterBlock told _ _ _).enterInline.of_eq rfl rfl rfl)

theorem brings_takeValue (located : Located text l.cursor l) (here : l.cursor.At text n)
    (plain : isBreakOrEnd l.cursor.peek = false) :
    Brings text (Past text l.cursor) l.takeValue := by
  have one := Cursor.reads_skip_one plain
  have moved : Located text (l.cursor.skip 1)
      { l with
        implicitFlowMapping := l.inFlow && !l.flowMappingStarted
        cursor := l.cursor.skip 1 } := (located.skipOne here plain).of_eq rfl rfl rfl
  refine .bind (moved.skipTabAfterColon (one.moves text n here)) fun tabbed past => ?_
  obtain ⟨d, way, valued⟩ := past
  have finish {reading : Except SyntaxError Layout}
      (brings : Brings text (Located text d) reading) :
      Brings text (Past text l.cursor) (reading >>= fun l' => .ok (l'.push l.mark .value)) :=
    .bind brings fun last located' =>
      .ok ⟨d, one.leads.trans way, located'.push located.mark_told _⟩
  simp only
  split
  · rename_i possible
    exact finish (brings_completeKey valued (located.topKey possible) located.mark_told)
  · exact finish (brings_beginValue valued located.mark_told)

/-! ## Nodes -/

/-- A key may stand where a node begins. -/
theorem Located.beginNode (located : Located text c l) (keyAllowed : Bool) :
    Located text c { l.saveKey with keyAllowed } :=
  located.saveKey.of_eq rfl rfl rfl

theorem brings_takeName (located : Located text l.cursor l) (here : l.cursor.At text n)
    (plain : isBreakOrEnd l.cursor.peek = false) (token : List Char → Token) :
    Brings text (Past text l.cursor) (l.takeName token) := by
  have way := (reads_name l.cursor plain).leads
  have named {begun : Layout} (located : Located text l.cursor begun) :
      Brings text (Past text l.cursor)
      (if ((begun.cursor.skip 1).upcoming isAnchorChar).isEmpty then begun.fail .nameExpected
      else
        let name := (begun.cursor.skip 1).upcoming isAnchorChar
        .ok ({ begun with cursor := begun.cursor.skip (name.length + 1) }.push begun.mark
          (token name))) := by
    split
    · exact located.fail
    · rw [located.cursor_eq]
      exact .ok ⟨_, way, (located.moveTo (here.told_of_met way.met)).push located.mark_told _⟩
  exact named (located.beginNode false)

theorem brings_takeTag (located : Located text l.cursor l) (here : l.cursor.At text n)
    (bang : l.cursor.peek = '!') : Brings text (Past text l.cursor) l.takeTag := by
  have begun := located.beginNode false
  refine .bind (.of_met (c := l.cursor) here ?_) fun found read => ?_
  · rw [begun.cursor_eq]
    exact Tag.failsAt_read _ (Leads.refl _).met
  · rw [begun.cursor_eq] at read
    have way := Tag.leads_read bang read
    exact .ok ⟨_, way, (begun.moveTo (here.told_of_met way.met)).push begun.mark_told _⟩

theorem brings_takePlainScalar (located : Located text l.cursor l) (here : l.cursor.At text n) :
    Brings text (Past text l.cursor) l.takePlainScalar := by
  have begun : Located text l.cursor { l.saveKey with keyAllowed := false }.leaveInlineLevels :=
    (located.beginNode false).of_eq rfl rfl rfl
  refine .bind (.of_met (c := l.cursor) here ?_) fun found read => ?_
  · rw [begun.cursor_eq]
    exact Plain.failsAt_read _ _ _
  · rw [begun.cursor_eq] at read
    obtain ⟨k, reads, -⟩ := Plain.reads_read read
    have moved := (begun.moveTo (here.told_of_met reads.leads.met)).push begun.mark_told
      (.scalar .plain found.2)
    exact .ok ⟨_, reads.leads, moved.of_eq rfl rfl rfl⟩

theorem brings_takeQuotedScalar (quote : Quoted.Quote) (located : Located text l.cursor l)
    (here : l.cursor.At text n) (opening : l.cursor.peek = quote.char) (style : Style) :
    Brings text (Past text l.cursor) (l.takeQuotedScalar quote style) := by
  have begun := located.beginNode false
  refine .bind (.of_met (c := l.cursor) here ?_) fun found read => ?_
  · rw [begun.cursor_eq]
    exact Quoted.failsAt_read _ _ opening
  · rw [begun.cursor_eq] at read
    obtain ⟨k, reads, -⟩ := Quoted.reads_read opening read
    have there := reads.moves text n here
    refine .bind ((begun.moveTo there.told).skipToToken there) fun last past => ?_
    obtain ⟨d, way, after⟩ := past
    have behind : Past text l.cursor { last with adjacentValueAt := last.mark.index } :=
      ⟨d, reads.leads.trans way, after.of_eq rfl rfl rfl⟩
    exact .ok (behind.push begun.mark_told _)

/-- Behind a block scalar the mark is exact unless the text has ended. -/
theorem brings_takeBlockScalar (located : Located text l.cursor l) (here : l.cursor.At text n)
    (plain : isBreakOrEnd l.cursor.peek = false) (style : Style) :
    Brings text (Traced text) (l.takeBlockScalar style) := by
  have begun : Located text l.cursor { l.saveKey with keyAllowed := true }.leaveInlineLevels :=
    (located.beginNode true).of_eq rfl rfl rfl
  refine .bind (.of_met (c := l.cursor) here ?_) fun found read => ?_
  · rw [begun.cursor_eq]
    exact Block.failsAt_read _ _ plain
  · rw [begun.cursor_eq] at read
    obtain ⟨j, k, -, -, onLine, settled⟩ := Block.onLine_read here plain read
    have settled := settled.imp_right And.left
    have told : Told text found.1.mark := settled.elim Cursor.At.told onLine.told_of_stop
    have marked := here.told_of_met (Block.met_of_read plain read)
    exact .ok ⟨n + k, (begun.moveTo told).push marked _, onLine, settled⟩

/-! ## Piece by piece -/

theorem brings_takeContent (located : Located text l.cursor l) (here : l.cursor.At text n) :
    Brings text (Traced text) l.takeContent := by
  have settle {reading : Except SyntaxError Layout}
      (brings : Brings text (Past text l.cursor) reading) : Brings text (Traced text) reading :=
    brings.mono fun _ past => past.traced here
  have word := settle (brings_takePlainScalar located here)
  simp only [takeContent]
  split
  · rename_i found
    exact settle (brings_takeFlowStart located here (isBreakOrEnd_of_eq found rfl) _)
  · rename_i found
    exact settle (brings_takeFlowStart located here (isBreakOrEnd_of_eq found rfl) _)
  · rename_i found
    exact settle (brings_takeFlowEnd located here (isBreakOrEnd_of_eq found rfl) _)
  · rename_i found
    exact settle (brings_takeFlowEnd located here (isBreakOrEnd_of_eq found rfl) _)
  · rename_i found
    exact settle (brings_takeFlowEntry located here (isBreakOrEnd_of_eq found rfl))
  · rename_i found
    split
    · exact settle (brings_takeBlockEntry located here (isBreakOrEnd_of_eq found rfl))
    · exact word
  · rename_i found
    split
    · exact settle (brings_takeKey located here (isBreakOrEnd_of_eq found rfl))
    · exact word
  · rename_i found
    split
    · exact settle (brings_takeValue located here (isBreakOrEnd_of_eq found rfl))
    · exact word
  · rename_i found
    exact settle (brings_takeName located here (isBreakOrEnd_of_eq found rfl) _)
  · rename_i found
    exact settle (brings_takeName located here (isBreakOrEnd_of_eq found rfl) _)
  · rename_i found
    exact settle (brings_takeTag located here found)
  · rename_i found
    split
    · exact word
    · exact brings_takeBlockScalar located here (isBreakOrEnd_of_eq found rfl) _
  · rename_i found
    split
    · exact word
    · exact brings_takeBlockScalar located here (isBreakOrEnd_of_eq found rfl) _
  · rename_i found
    exact settle (brings_takeQuotedScalar .single located here found _)
  · rename_i found
    exact settle (brings_takeQuotedScalar .double located here found _)
  · exact located.fail
  · exact located.fail
  · exact located.fail
  · exact word

/-- The stream has ended, and none of the waiting tokens can begin a key. -/
structure Finished (text : List Char) (l : Layout) : Prop where
  located : Located text l.cursor l
  given : ∀ key ∈ l.keys, key.possible = false
  last : ∃ token ∈ l.queue, token.token = .streamEnd

theorem brings_endStream (located : Located text l.cursor l) (here : l.cursor.OnLine text n)
    (stop : isEnd l.cursor.peek = true) : Brings text (Finished text) l.endStream := by
  rw [endStream]
  generalize given :
    (if l.mark.column = 0 then l.mark else ⟨l.mark.index, l.mark.line + 1, 0⟩) = mark
  have told : Told text mark := by
    rw [← given]
    split
    · exact located.mark_told
    · rename_i begun
      exact .beyond (here.stops stop) (congrArg (· + 1) here.line_eq) rfl fun first =>
        begun (here.column_eq_zero first)
  have moved := located.moveTo (d := { l.cursor with mark := mark }) told
  split
  · exact moved.fail
  · have quiet : Located text { l.cursor with mark := mark }
        { l with
          cursor := { l.cursor with mark := mark }
          keys := l.keys.map fun (key : SimpleKey) => { key with possible := false } } :=
      ⟨rfl, told, located.queue, fun key member possible => by
        obtain ⟨old, _, rfl⟩ := List.mem_map.1 member
        cases possible⟩
    obtain ⟨levels, indent, ends, left, -⟩ := leaveBlocks_eq (-1)
      { l with
        cursor := { l.cursor with mark := mark }
        keys := l.keys.map fun (key : SimpleKey) => { key with possible := false } }
    have removing := (quiet.leaveBlocks (-1)).removeKey
    refine .bind ⟨removing.fails, fun removed remove => And.intro remove
      (removing.gives removed remove)⟩ fun removed ended => .ok ?_
    obtain ⟨remove, located⟩ := ended
    have allowed :
        Located text { l.cursor with mark := mark } { removed with keyAllowed := false } :=
      located.of_eq rfl rfl rfl
    have pushed := allowed.push located.mark_told .streamEnd
    refine ⟨pushed.cursor_eq ▸ pushed, ?_, ⟨removed.mark, .streamEnd⟩,
      List.mem_append_right _ (List.mem_singleton.2 rfl), rfl⟩
    obtain ⟨_, same⟩ := refuse_eq_ok.1 remove
    cases same
    intro key member
    simp only [Layout.push, setTopKey, left] at member
    rcases List.mem_cons.1 member with rfl | later
    · rfl
    · obtain ⟨old, _, rfl⟩ := List.mem_map.1 (List.mem_of_mem_tail later)
      rfl

/-- What stands at the next token is a piece of the text, or its end. -/
theorem brings_piece (located : Located text l.cursor l) (onLine : l.cursor.OnLine text n)
    (settled : l.cursor.At text n ∨ isEnd l.cursor.peek = true) :
    Brings text (fun l' => Traced text l' ∨ Finished text l')
      (if isEnd l.cursor.peek then l.endStream
      else if l.mark.column == 0 && l.cursor.peek == '%' then l.takeDirective
      else if l.mark.column == 0 && l.cursor.startsWithMarker '-' then l.takeDocumentStart
      else if l.mark.column == 0 && l.cursor.startsWithMarker '.' then l.takeDocumentEnd
      else if l.cursor.column < l.indent then l.fail .badIndentation
      else l.takeContent) := by
  split
  · rename_i stop
    exact (brings_endStream located onLine stop).mono fun _ => .inr
  · rename_i running
    have here := settled.resolve_right running
    have settle {reading : Except SyntaxError Layout}
        (brings : Brings text (Past text l.cursor) reading) :
        Brings text (fun l' => Traced text l' ∨ Finished text l') reading :=
      brings.mono fun _ past => .inl (past.traced here)
    split
    · rename_i percent
      simp only [Bool.and_eq_true, beq_iff_eq] at percent
      exact settle (brings_takeDirective located here percent.2)
    · split
      · rename_i dashes
        exact settle (brings_takeDocumentStart located here (Bool.and_eq_true_iff.1 dashes).2)
      · split
        · rename_i dots
          exact settle (brings_takeDocumentEnd located here (Bool.and_eq_true_iff.1 dots).2)
        · split
          · exact located.fail
          · exact (brings_takeContent located here).mono fun _ => .inl

/-- Reading on fails at a mark that was reached, or leads on, or ends the stream. -/
theorem brings_takeNext (traced : Traced text l) :
    Brings text (fun l' => Traced text l' ∨ Finished text l') l.takeNext := by
  refine .bind traced.toToken fun reached traced => ?_
  obtain ⟨n, located, onLine, exact_or_end⟩ := traced
  refine .bind located.dropExpiredKeys fun dropped located => ?_
  have left := located.leaveBlocks dropped.cursor.column
  have ready : Located text (reached.cursor.lookAhead 4)
      { dropped.leaveBlocks dropped.cursor.column with
        cursor := (dropped.leaveBlocks dropped.cursor.column).cursor.lookAhead 4 } :=
    left.at_cursor located.told (by rw [left.cursor_eq]) rfl rfl
  have cursor := ready.cursor_eq
  refine brings_piece (n := n) (cursor ▸ ready) (cursor ▸ onLine.of_eq rfl rfl) (cursor ▸ ?_)
  exact exact_or_end.imp_left fun here => here.of_eq rfl rfl

/-! ## The whole text -/

/-- What leaves the queue is marked as it was there, and tells how far the text was read. -/
theorem told_release (queue : List MarkedToken) (told : ∀ token ∈ queue, Told text token.mark)
    (here : Told text l.mark) :
    (∀ token ∈ (release queue l).1, Told text token.mark ∧ Told text token.reached) ∧
      (∀ token ∈ (release queue l).2.queue, Told text token.mark) ∧
      (release queue l).2.cursor = l.cursor ∧ (release queue l).2.keys = l.keys := by
  induction queue generalizing l with
  | nil => exact ⟨List.forall_mem_nil _, List.forall_mem_nil _, rfl, rfl⟩
  | cons first queue ih =>
      obtain ⟨mark, kind⟩ := first
      rw [release]
      split
      · exact ⟨List.forall_mem_nil _, told, rfl, rfl⟩
      · obtain ⟨gone, left, cursor, keys⟩ :=
          @ih { l with gone := l.gone + 1 } (fun token member => told token (by simp [member])) here
        refine ⟨fun token member => ?_, left, cursor, keys⟩
        rcases List.mem_cons.1 member with rfl | later
        · exact ⟨told _ List.mem_cons_self, here⟩
        · exact gone token later

theorem Traced.release (traced : Traced text l) :
    (∀ token ∈ (l.release l.queue).1, Told text token.mark ∧ Told text token.reached) ∧
      Traced text (l.release l.queue).2 := by
  obtain ⟨n, located, onLine, exact_or_end⟩ := traced
  obtain ⟨gone, left, cursor, keys⟩ := told_release l.queue located.queue located.told
  refine ⟨gone, n, ⟨rfl, cursor ▸ located.told, left, keys ▸ located.keys⟩, ?_, ?_⟩
  · rw [cursor]
    exact onLine
  · rw [cursor]
    exact exact_or_end

end Layout

open Layout

/-- The marks of the tokens, of how far the text was read for them and of the fault were reached. -/
structure TokenStream.Traced (text : List Char) (stream : TokenStream) : Prop where
  tokens : ∀ token ∈ stream.tokens, Told text token.mark ∧ Told text token.reached
  fault : ∀ error ∈ stream.fault, Told text error.mark

theorem brings_ready {text : List Char} {c : Cursor} {l : Layout} (located : Located text c l) :
    Brings text (Located text c) (if l.queue.isEmpty then .ok l else l.dropExpiredKeys) := by
  split
  · exact .ok located
  · exact located.dropExpiredKeys

/-- Once the stream has ended, the waiting tokens are all that come. -/
theorem traced_of_finished {text : List Char} {l : Layout} (fuel : Nat)
    (finished : Finished text l) : (tokenizeFrom fuel l).Traced text := by
  cases fuel with
  | zero => exact ⟨List.forall_mem_nil _, by simp [tokenizeFrom]⟩
  | succ fuel =>
      have ready := brings_ready finished.located
      rw [tokenizeFrom]
      split
      · rename_i error failed
        refine ⟨List.forall_mem_nil _, ?_⟩
        rintro _ ⟨⟩
        exact ready.fails error failed
      · rename_i next found
        have located := ready.gives next found
        obtain ⟨kept, queue, -⟩ := ready_eq found
        have given : ∀ key ∈ next.keys, key.possible = false := by
          rcases kept with rfl | dropped
          · exact finished.given
          · exact given_dropExpiredKeys finished.given dropped
        have stops := stops_of_given given (queue ▸ finished.last)
        simp only [stops, if_true]
        exact ⟨(told_release next.queue located.queue located.mark_told).1, by simp⟩

/-- Every token of a text and its fault are marked at places that were reached. -/
theorem traced_tokenizeFrom {text : List Char} {l : Layout} (fuel : Nat)
    (traced : Traced text l) : (tokenizeFrom fuel l).Traced text := by
  induction fuel generalizing l with
  | zero => exact ⟨List.forall_mem_nil _, by simp [tokenizeFrom]⟩
  | succ fuel ih =>
      obtain ⟨n, located, onLine, exact_or_end⟩ := traced
      have ready := brings_ready located
      rw [tokenizeFrom]
      split
      · rename_i error failed
        refine ⟨List.forall_mem_nil _, ?_⟩
        rintro _ ⟨⟩
        exact ready.fails error failed
      · rename_i next found
        have located := ready.gives next found
        have cursor := located.cursor_eq
        have traced : Traced text next :=
          ⟨n, cursor ▸ located, cursor ▸ onLine, cursor ▸ exact_or_end⟩
        obtain ⟨gone, traced⟩ := traced.release
        simp only
        split
        · exact ⟨gone, by simp⟩
        · have step := brings_takeNext traced
          split
          · rename_i error failed
            refine ⟨gone, ?_⟩
            rintro _ ⟨⟩
            exact step.fails error failed
          · rename_i after taken
            have later : (tokenizeFrom fuel after).Traced text :=
              (step.gives after taken).elim ih (traced_of_finished fuel)
            refine ⟨fun token member => ?_, later.fault⟩
            exact (List.mem_append.1 member).elim (gone token) (later.tokens token)

theorem traced_tokenize (text : List Char) : (tokenize text).Traced text := by
  have start := Cursor.at_initial text
  have begun : Located text { rest := text } { Layout.initial text with keys := [{}] } :=
    ⟨rfl, start.told, nofun, by simp⟩
  exact traced_tokenizeFrom _ ⟨0, begun.push start.told _, start.toOnLine, .inl start⟩

end WorkflowScope.Yaml
