import WorkflowScope.Proofs.Yaml.CollectionEvents
import WorkflowScope.Proofs.Yaml.Cursor

/-!
# Events of tokens in their room

If the tokens of a text take their places one after the other, so do its events.
-/

namespace WorkflowScope.Yaml.Grammar

variable {text : List Char} {r : Reader} {s : Room} {frames outer : List Frame} {lo effort : Nat}
  {bound : Option Nat}

/-! ## One step and all steps -/

theorem yields_documentContent (node : NodeAt text r s [.root] lo none effort) :
    Yields documentContent r (Emits text [.root] lo none effort) := by
  have missing : ∀ {next : ReadToken} {rest : List ReadToken}, r.tokens = next :: rest →
      next.token ≠ .flowMappingStart → next.token ≠ .blockMappingStart →
      Yields (do leave; return ⟨next.mark, .empty⟩) { r with reached := next.reached }
        (Emits text [.root] lo none effort) := by
    intro next rest tokens start block
    have less := node.less
    obtain ⟨top, states, stack⟩ := node.stacked.exists_cons
    refine .bind (.leave (.pure (emits_empty ?_ tokens (tokens ▸ node.ahead) node.level (by simp)
      start (fun loose => absurd loose block)
      (Nat.lt_of_le_of_lt (effort_returned node.stacked rfl rfl) less))))
    simpa [stack] using node.stacked
  refine .bind (.peek fun next rest tokens => ?_)
  split
  · rename_i kind
    exact missing tokens (by simp [kind]) (by simp [kind])
  · rename_i kind
    exact missing tokens (by simp [kind]) (by simp [kind])
  · rename_i kind
    exact missing tokens (by simp [kind]) (by simp [kind])
  · rename_i kind
    exact missing tokens (by simp [kind]) (by simp [kind])
  · rename_i kind
    exact missing tokens (by simp [kind]) (by simp [kind])
  · exact yields_node ⟨node.stacked, node.ahead, node.level, node.under, node.less⟩ (by simp)

/-- The reader has returned to a collection that is open. -/
theorem yields_entry (stacked : Stacked (r.state :: r.stack) frames) (ahead : Ahead text s r.tokens)
    (level : Level r s lo) (inside : lo ≤ text.length) (running : frames ≠ []) :
    Yields step r (Emits text frames lo none r.effort) := by
  generalize found : r.state = state at stacked
  have weighs : r.effort = r.backlog + state.weight (r.tokens.head?.map (·.token)) := by
    rw [Reader.effort, found]
  refine .bind (.reading ?_)
  cases stacked with
  | document => exact absurd rfl running
  | blockSequence outer =>
      rw [found]
      exact yields_blockSequenceEntry outer ahead (level.near (by simp [found, State.followsInFlow]))
        (by omega)
  | indentlessSequence outer =>
      rw [found]
      exact yields_indentlessSequenceEntry outer ahead
        (level.near (by simp [found, State.followsInFlow])) inside found (Nat.le_refl _)
  | blockKey outer =>
      rw [found]
      exact yields_blockMappingKey outer ahead (level.near (by simp [found, State.followsInFlow]))
        (by simp) (by omega)
  | blockValue outer =>
      rw [found]
      exact yields_blockMappingValue outer ahead
        (level.near (by simp [found, State.followsInFlow])) inside found (Nat.le_refl _)
  | flowSequence outer =>
      rw [found]
      exact yields_flowSequenceEntry outer ahead level (by omega)
  | pairValue outer =>
      rw [found]
      exact yields_flowPairValue outer ahead level inside
        (by simp only [State.weight] at weighs; omega)
  | pairEnd outer =>
      rw [found]
      exact yields_flowPairEnd outer ahead level inside
        (by simp only [State.weight] at weighs; omega)
  | flowKey outer =>
      rw [found]
      exact yields_flowMappingKey outer ahead level (by omega)
  | flowValue outer =>
      rw [found]
      exact yields_flowMappingValue outer ahead level inside
        (by simp only [State.weight] at weighs; omega)
  | flowEmptyValue outer =>
      rw [found]
      refine .bind (.peek fun next rest tokens => ?_)
      exact yields_missing (.flowKey outer) ahead level inside rfl
        (by simp only [State.weight, Reader.backlog] at weighs ⊢; omega)

/-- The token that opens a collection is one less to read. -/
theorem effort_opened {token : ReadToken} {rest : List ReadToken} (tokens : r.tokens = token :: rest) :
    8 * rest.length + 2 * r.stack.length + 8 ≤ r.effort := by
  simp only [Reader.effort, Reader.backlog, tokens, List.length_cons]
  omega

theorem yields_firstItem {token : ReadToken} {rest : List ReadToken} {own : Bool}
    (state : r.state = if own then .flowSequenceFirstEntry else .blockSequenceFirstEntry)
    (tokens : r.tokens = token :: rest) (stacked : Stacked r.stack outer)
    (ahead : Ahead text s rest) (level : lo ≤ s.lo) :
    Yields step r (Emits text (.item own :: outer) lo none r.effort) := by
  have less := effort_opened tokens
  refine .bind (.reading ?_)
  rw [state]
  cases own with
  | true =>
      refine .bind (.opened fun token' rest' tokens' => ?_)
      obtain ⟨rfl, rfl⟩ : token = token' ∧ rest = rest' := by simpa [tokens] using tokens'
      exact yields_flowSequenceItem stacked ahead level (by simpa only [Reader.backlog] using less)
  | false =>
      refine .bind (.opened fun token' rest' tokens' => ?_)
      obtain ⟨rfl, rfl⟩ : token = token' ∧ rest = rest' := by simpa [tokens] using tokens'
      exact yields_blockSequenceEntry stacked ahead (.inl level)
        (by simp only [Reader.backlog]; omega)

theorem yields_firstKey {token : ReadToken} {rest : List ReadToken} {own : Bool}
    (state : r.state = if own then .flowMappingFirstKey else .blockMappingFirstKey)
    (tokens : r.tokens = token :: rest) (stacked : Stacked r.stack outer)
    (ahead : Ahead text s rest) (level : lo ≤ s.lo)
    (under : ∀ b ∈ bound, s.Under b ∧ s.fresh = true) :
    Yields step r (Emits text (.key own :: outer) lo bound r.effort) := by
  have less := effort_opened tokens
  refine .bind (.reading ?_)
  rw [state]
  cases own with
  | true =>
      refine .bind (.opened fun token' rest' tokens' => ?_)
      obtain ⟨rfl, rfl⟩ : token = token' ∧ rest = rest' := by simpa [tokens] using tokens'
      refine .bind (.peek fun next rest' left => ?_)
      refine yields_flowMappingItem stacked ahead level under (.inl fun next' rest'' left' => ?_)
        (by simpa only [Reader.backlog] using less)
      obtain ⟨rfl, rfl⟩ : next = next' ∧ rest' = rest'' := by
        simpa using left.symm.trans left'
      rfl
  | false =>
      refine .bind (.opened fun token' rest' tokens' => ?_)
      obtain ⟨rfl, rfl⟩ : token = token' ∧ rest = rest' := by simpa [tokens] using tokens'
      refine yields_blockMappingKey stacked ahead (.inl level) under ?_
      have weight := State.weight_le (rest.head?.map (·.token)) .blockMappingKey
      simp only [Reader.backlog]
      omega

/-- Whatever the reader is ready for, its next event continues the chain. -/
theorem Ready.emits (ready : Ready text r frames lo bound) (running : frames ≠ []) :
    Yields step r (Emits text frames lo bound r.effort) := by
  cases ready with
  | finished => exact absurd rfl running
  | @root s lo state stacked ahead level =>
      have node : NodeAt text r s [.root] lo none r.effort := by
        refine ⟨stacked, ahead, level, by simp, ?_⟩
        rcases state with state | state <;> simp [Reader.effort, state, State.weight]
      rcases state with state | state
      · exact .bind (.reading (by rw [state]; exact yields_node node (by simp)))
      · exact .bind (.reading (by rw [state]; exact yields_documentContent node))
  | entry stacked ahead level inside => exact yields_entry stacked ahead level inside running
  | dash state tokens entry stacked ahead =>
      refine .bind (.reading ?_)
      rw [state]
      exact yields_firstDash stacked ahead tokens entry (by simp only [Reader.effort]; omega)
  | firstItem state tokens stacked ahead level =>
      exact yields_firstItem state tokens stacked ahead level
  | firstKey state tokens stacked ahead level under =>
      exact yields_firstKey state tokens stacked ahead level under
  | pairKey state stacked ahead level under =>
      refine .bind (.reading ?_)
      rw [state]
      exact yields_flowPairKey stacked ahead level under
        (by simp only [Reader.effort, state, State.weight]; omega)

theorem chained_eventsFrom {fuel : Nat} {events : List MarkedEvent}
    (ready : Ready text r frames lo bound) (enough : r.effort < fuel)
    (read : eventsFrom fuel r = .ok events) :
    Chained text frames lo bound (events.map (Snapshot.place (lineStarts text) text.length)) := by
  induction fuel generalizing r frames lo bound events with
  | zero => omega
  | succ fuel ih =>
      by_cases ended : frames = []
      · subst ended
        exact .done
      · rw [eventsFrom, bind_eq_ok] at read
        obtain ⟨⟨event, after⟩, run, read⟩ := read
        obtain ⟨running, less, chains⟩ := ready.emits ended event after run
        simp only [running, if_false, bind_eq_ok] at read
        obtain ⟨more, read, same⟩ := read
        cases same
        refine chains _ fun frames lo bound ready => ih ready (by omega) read

/-! ## Before the root -/

/-- Nothing waits, and the tokens to come have room. At most `count` are left. -/
structure Starting (text : List Char) (count : Nat) (r : Reader) : Prop where
  ahead : ∃ s, Ahead text s r.tokens
  stack : r.stack = []
  few : r.tokens.length ≤ count

theorem Starting.next {count : Nat} {token : ReadToken} {rest : List ReadToken} {after : Reader}
    (starting : Starting text count r) (tokens : r.tokens = token :: rest)
    (left : after.tokens = rest) (stack : after.stack = r.stack) : Starting text count after := by
  obtain ⟨⟨s, ahead⟩, empty, few⟩ := starting
  rw [tokens] at ahead few
  obtain ⟨t, _, ahead⟩ := ahead.next
  refine ⟨⟨t, left ▸ ahead⟩, stack.trans empty, ?_⟩
  simp only [List.length_cons] at few
  rw [left]
  omega

theorem yields_skipDocumentEnds {fuel count : Nat} (starting : Starting text count r) :
    Yields (skipDocumentEnds fuel) r fun _ after => Starting text count after := by
  induction fuel generalizing r with
  | zero => exact .pure starting
  | succ fuel ih =>
      refine .bind (.peek fun next rest tokens => ?_)
      split
      · exact .bind (.advance tokens (ih (starting.next tokens rfl rfl)))
      · exact .pure ⟨starting.ahead, starting.stack, starting.few⟩

theorem yields_directives {fuel count : Nat} {versioned : Bool} (starting : Starting text count r) :
    Yields (directives fuel versioned) r fun _ after => Starting text count after := by
  induction fuel generalizing r versioned with
  | zero => exact .pure starting
  | succ fuel ih =>
      refine .bind (.peek fun next rest tokens => ?_)
      split
      · split
        · exact .refuse
        · exact .bind (.changing (.bind (.advance tokens (ih (starting.next tokens rfl rfl)))))
      · exact .bind (.changing (.bind (.advance tokens (ih (starting.next tokens rfl rfl)))))
      · exact .pure ⟨starting.ahead, starting.stack, starting.few⟩

/-- A document has begun, and its root is due; or the stream has ended. -/
def Begun (text : List Char) (count : Nat) (event : MarkedEvent) (after : Reader) : Prop :=
  event.event = .streamEnd ∨ (event.event = .documentStart ∧ Ready text after [.root] 0 none ∧
    after.effort ≤ 8 * count + 3)

theorem Starting.begun {count : Nat} {after : Reader} {mark : Mark}
    (starting : Starting text count after) (r : Reader)
    (state : r.state = .blockNode ∨ r.state = .documentContent)
    (stack : r.stack = .documentEnd :: after.stack) (tokens : r.tokens = after.tokens) :
    Begun text count ⟨mark, .documentStart⟩ r := by
  obtain ⟨⟨s, ahead⟩, empty, few⟩ := starting
  refine .inr ⟨rfl, .root state ?_ (tokens ▸ ahead) (Nat.zero_le _), ?_⟩
  · rw [stack]
    exact .document
  · have weight : r.state.weight (r.tokens.head?.map (·.token)) ≤ 1 := by
      rcases state with state | state <;> simp [state, State.weight]
    simp only [Reader.effort, Reader.backlog, stack, empty, tokens, List.length_cons,
      List.length_nil] at weight ⊢
    omega

theorem yields_explicitDocument {count : Nat} (starting : Starting text count r) :
    Yields explicitDocument r (Begun text count) := by
  refine .bind (.reading (.bind fun _ after run => ?_))
  have starting := yields_directives starting _ after run
  refine .bind (.peek fun next rest tokens => ?_)
  split
  · refine .bind (.returnTo (.bind (.goTo (.bind (.advance tokens (.pure ?_))))))
    have left : Starting text count { after with tokens := rest } := starting.next tokens rfl rfl
    exact left.begun _ (.inr rfl) rfl rfl
  · exact .refuse

theorem yields_documentStart {count : Nat} (starting : Starting text count r) :
    Yields (documentStart true) r (Begun text count) := by
  refine .bind (.reading (.bind fun _ after run => ?_))
  have starting := yields_skipDocumentEnds starting _ after run
  refine .bind (.peek fun next rest tokens => ?_)
  have waiting : Starting text count { after with reached := next.reached } :=
    ⟨starting.ahead, starting.stack, starting.few⟩
  split
  · exact .bind (.goTo (.bind (.advance tokens (.pure (.inl rfl)))))
  · exact yields_explicitDocument waiting
  · exact yields_explicitDocument waiting
  · exact yields_explicitDocument waiting
  · exact .bind (.returnTo (.bind (.goTo (.pure (waiting.begun _ (.inl rfl) rfl rfl)))))

/-- The first event is that of the stream, and the second begins a document or ends the stream. -/
theorem events_cases {events : List MarkedEvent} {fuel : Nat} (starting : Starting text fuel r)
    (state : r.state = .streamStart) (read : eventsFrom (8 * fuel + 16) r = .ok events) :
    ∃ first second rest, events = first :: second :: rest ∧ first.event = .streamStart ∧
      (second.event = .streamEnd ∨ (second.event = .documentStart ∧
        Chained text [.root] 0 none (rest.map (Snapshot.place (lineStarts text) text.length)))) := by
  have first : Yields step r fun event after =>
      event.event = .streamStart ∧ after.state = .implicitDocumentStart ∧ Starting text fuel after := by
    refine .bind (.reading ?_)
    rw [state]
    refine .bind (.peek fun next rest tokens => .bind (.goTo (.bind (.advance tokens (.pure ?_)))))
    exact ⟨rfl, rfl, starting.next tokens rfl rfl⟩
  rw [eventsFrom, bind_eq_ok] at read
  obtain ⟨⟨event, after⟩, run, read⟩ := read
  obtain ⟨begins, state, starting⟩ := first event after run
  simp only [begins, reduceCtorEq, if_false, bind_eq_ok] at read
  obtain ⟨more, read, same⟩ := read
  cases same
  have second : Yields step after (Begun text fuel) := by
    refine .bind (.reading ?_)
    rw [state]
    exact yields_documentStart starting
  rw [eventsFrom, bind_eq_ok] at read
  obtain ⟨⟨event', after'⟩, run, read⟩ := read
  rcases second event' after' run with ended | ⟨begun, ready, enough⟩
  · simp only [ended, if_true, Except.ok.injEq] at read
    subst read
    exact ⟨event, event', [], rfl, begins, .inl ended⟩
  · simp only [begun, reduceCtorEq, if_false, bind_eq_ok] at read
    obtain ⟨rest, read, same⟩ := read
    cases same
    exact ⟨event, event', rest, rfl, begins, .inr ⟨begun, chained_eventsFrom ready (by omega) read⟩⟩

/-- The events of a text are chained behind its prologue, or there is no root. -/
theorem chained_events {events : List MarkedEvent} (ahead : Ahead text s (tokenize text).tokens)
    (read : Yaml.events text = .ok events) :
    let placed := (events.map (Snapshot.place (lineStarts text) text.length)).dropWhile
      Composer.isPrologue
    Chained text [.root] 0 none placed ∨
      ∀ first ∈ placed.head?, first.event = .streamEnd ∨ first.event = .documentEnd := by
  have starting : Starting text (tokenize text).tokens.length
      { tokens := (tokenize text).tokens, fault := (tokenize text).fault } :=
    ⟨⟨s, ahead⟩, rfl, Nat.le_refl _⟩
  rw [Yaml.events, TokenStream.events] at read
  obtain ⟨first, second, rest, rfl, begins, ended | ⟨begun, chained⟩⟩ :=
    events_cases starting rfl read
  · exact .inr (by simp [Composer.isPrologue, Snapshot.place, begins, ended])
  · refine .inl ?_
    have unread : (rest.map (Snapshot.place (lineStarts text) text.length)).dropWhile
        Composer.isPrologue = rest.map (Snapshot.place (lineStarts text) text.length) := by
      generalize rest.map (Snapshot.place (lineStarts text) text.length) = placed at chained
      cases chained <;> simp [Composer.isPrologue]
    simpa [Composer.isPrologue, Snapshot.place, begins, begun, unread] using chained

end WorkflowScope.Yaml.Grammar
