import WorkflowScope.Proofs.Text.Readings
import WorkflowScope.Proofs.Yaml.Yields

/-!
# Where events come from

An event is marked at a token that is still to be read, and an alias or a scalar that is written has
a token of its own, which is read with it. So the next event is marked further on: at a token behind
that one, or where the text has been read to.
-/

namespace WorkflowScope.Yaml

/-- The events that stand for a leaf of the tree which is written in the text. -/
def Event.isWritten : Event → Bool
  | .reference => true
  | .scalar style value => !(style == .plain && value.isEmpty)
  | _ => false

namespace Grammar

/-- A token that says the same as an event of a leaf. -/
structure StandsFor (token : ReadToken) (event : MarkedEvent) : Prop where
  mark_eq : token.mark = event.mark
  kind : (event.event = .reference ∧ ∃ name, token.token = .reference name) ∨
    ∃ style value, event.event = .scalar style value ∧ token.token = .scalar style value

/-- An event that is marked at one of the tokens, and what is left of them. A leaf that is written
has taken its token. -/
structure Drawn (all : List ReadToken) (event : MarkedEvent) (after : Reader) : Prop where
  left : after.tokens <:+ all
  marked : ∃ token ∈ all, token.mark = event.mark
  source : event.event.isWritten = true → ∃ token, token :: after.tokens <:+ all ∧
    StandsFor token event ∧ after.reached = token.reached

/-- Whatever of the tokens has been read before, the piece draws its event from those that are
left. -/
def Draws (piece : Step MarkedEvent) : Prop :=
  ∀ (all : List ReadToken) (r : Reader), r.tokens <:+ all → Yields piece r (Drawn all)

/-- The piece reads tokens and puts none back. -/
def Keeps {α : Type} (piece : Step α) : Prop :=
  ∀ (all : List ReadToken) (r : Reader), r.tokens <:+ all →
    Yields piece r fun _ after => after.tokens <:+ all

variable {all : List ReadToken} {r : Reader} {token : ReadToken}

/-! ## Rules -/

theorem drawn_unwritten {after : Reader} {event : Event} (left : after.tokens <:+ all)
    (member : token ∈ all) (silent : event.isWritten = false) :
    Drawn all ⟨token.mark, event⟩ after where
  left := left
  marked := ⟨token, member, rfl⟩
  source written := by rw [silent] at written; cases written

theorem drawn_leaf {after : Reader} {event : Event} (part : token :: after.tokens <:+ all)
    (stands : StandsFor token ⟨token.mark, event⟩) (reached : after.reached = token.reached) :
    Drawn all ⟨token.mark, event⟩ after where
  left := (List.suffix_cons _ _).trans part
  marked := ⟨token, part.subset List.mem_cons_self, rfl⟩
  source _ := ⟨token, part, stands, reached⟩

theorem draws_peek {α : Type} {next : ReadToken → Step α} {post : α → Reader → Prop}
    (left : r.tokens <:+ all)
    (found : ∀ token rest, r.tokens = token :: rest → token ∈ all →
      Yields (next token) { r with reached := token.reached } post) :
    Yields (peek >>= next) r post := by
  refine .bind (.peek fun token rest tokens => found token rest tokens ?_)
  exact left.subset (tokens ▸ List.mem_cons_self)

theorem draws_advance {α : Type} {next : Unit → Step α} {post : α → Reader → Prop}
    (left : r.tokens <:+ all)
    (more : ∀ after : Reader, after.tokens <:+ all → Yields (next ()) after post) :
    Yields (advance >>= next) r post :=
  .bind (.changing (more _ ((List.tail_suffix _).trans left)))

theorem draws_emptyThen (state : State) (left : r.tokens <:+ all) (member : token ∈ all) :
    Yields (emptyThen state token.mark) r (Drawn all) :=
  .emptyThen (drawn_unwritten left member rfl)

theorem draws_close {event : Event} (silent : event.isWritten = false) (left : r.tokens <:+ all)
    (member : token ∈ all) : Yields (close event token.mark) r (Drawn all) :=
  .bind (.leave (draws_advance left fun _ left => .pure (drawn_unwritten left member silent)))

/-! ## Nodes -/

theorem keeps_properties : Keeps properties := by
  intro all r left
  refine draws_peek left fun first rest tokens _ => ?_
  split
  · refine draws_advance left fun after left => .bind (.declareAnchor ?_)
    refine draws_peek left fun second rest tokens _ => ?_
    split
    · exact draws_advance left fun after left => .bind (.checkHandle (.pure left))
    · exact .bind (.pure (.pure left))
  · refine draws_advance left fun after left => .bind (.checkHandle ?_)
    refine draws_peek left fun second rest tokens _ => ?_
    split
    · exact draws_advance left fun after left => .bind (.declareAnchor (.pure left))
    · exact .bind (.pure (.pure left))
  · exact .pure left

theorem draws_content (block indentless decorated : Bool) :
    Draws (content block indentless decorated) := by
  intro all r left
  refine draws_peek left fun next rest tokens member => ?_
  split
  · rename_i style value kind
    refine .bind (.leave (.bind (.advance tokens (.pure ?_))))
    exact drawn_leaf (tokens ▸ left) ⟨rfl, .inr ⟨style, value, rfl, kind⟩⟩ rfl
  · exact .bind (.goTo (.pure (drawn_unwritten left member rfl)))
  · exact .bind (.goTo (.pure (drawn_unwritten left member rfl)))
  · split
    · exact .bind (.goTo (.pure (drawn_unwritten left member rfl)))
    · split
      · exact .bind (.goTo (.pure (drawn_unwritten left member rfl)))
      · split
        · exact .bind (.goTo (.pure (drawn_unwritten left member rfl)))
        · split
          · exact .bind (.leave (.pure (drawn_unwritten left member rfl)))
          · exact .refuse

theorem draws_node (block indentless : Bool) : Draws (node block indentless) := by
  intro all r left
  refine draws_peek left fun first rest tokens member => ?_
  split
  · rename_i name kind
    refine .bind (.leave (.bind (.advance tokens (.bind (.reading ?_)))))
    split
    · exact .pure (drawn_leaf (tokens ▸ left) ⟨rfl, .inl ⟨rfl, name, kind⟩⟩ rfl)
    · exact .refuse
  · refine .bind fun decorated after run => ?_
    have kept := keeps_properties all { r with reached := first.reached } left decorated after run
    exact draws_content _ _ _ _ _ kept

theorem draws_nodeThen (state : State) (block indentless : Bool) :
    Draws (nodeThen state block indentless) :=
  fun _ _ left => .bind (.returnTo (draws_node _ _ _ _ left))

/-! ## Documents -/

theorem keeps_directives (fuel : Nat) (versioned : Bool) : Keeps (directives fuel versioned) := by
  induction fuel generalizing versioned with
  | zero => exact fun _ _ left => .pure left
  | succ fuel ih =>
      intro all r left
      refine draws_peek left fun next rest tokens _ => ?_
      split
      · split
        · exact .refuse
        · exact .bind (.changing (draws_advance left fun after left => ih _ _ _ left))
      · exact .bind (.changing (draws_advance left fun after left => ih _ _ _ left))
      · exact .pure left

theorem keeps_skipDocumentEnds (fuel : Nat) : Keeps (skipDocumentEnds fuel) := by
  induction fuel with
  | zero => exact fun _ _ left => .pure left
  | succ fuel ih =>
      intro all r left
      refine draws_peek left fun next rest tokens _ => ?_
      split
      · exact draws_advance left fun after left => ih _ _ left
      · exact .pure left

theorem draws_explicitDocument : Draws explicitDocument := by
  intro all r left
  refine .bind (.reading (.bind fun _ after run => ?_))
  have left := keeps_directives _ _ _ _ left _ after run
  refine draws_peek left fun next rest tokens member => ?_
  split
  · refine .bind (.returnTo (.bind (.goTo (draws_advance left fun after left => ?_))))
    exact .pure (drawn_unwritten left member rfl)
  · exact .refuse

theorem draws_documentStart (implicit : Bool) : Draws (documentStart implicit) := by
  intro all r left
  refine .bind (.reading (.bind fun _ after run => ?_))
  have left := keeps_skipDocumentEnds _ _ _ left _ after run
  refine draws_peek left fun next rest tokens member => ?_
  split
  · refine .bind (.goTo (draws_advance left fun after left => ?_))
    exact .pure (drawn_unwritten left member rfl)
  · exact draws_explicitDocument _ _ left
  · exact draws_explicitDocument _ _ left
  · exact draws_explicitDocument _ _ left
  · split
    · exact .bind (.returnTo (.bind (.goTo (.pure (drawn_unwritten left member rfl)))))
    · exact draws_explicitDocument _ _ left

theorem draws_documentContent : Draws documentContent := by
  intro all r left
  refine draws_peek left fun next rest tokens member => ?_
  split
  all_goals first
    | exact .bind (.leave (.pure (drawn_unwritten left member rfl)))
    | exact draws_node _ _ _ _ left

theorem draws_documentEnd : Draws documentEnd := by
  intro all r left
  refine draws_peek left fun next rest tokens member => .bind (.changing ?_)
  split
  · refine draws_advance left fun after left => .bind (.goTo ?_)
    exact .pure (drawn_unwritten left member rfl)
  · exact .refuse
  · exact .refuse
  · exact .bind (.goTo (.pure (drawn_unwritten left member rfl)))

/-! ## Block collections -/

theorem draws_blockSequenceEntry : Draws blockSequenceEntry := by
  intro all r left
  refine draws_peek left fun next rest tokens member => ?_
  split
  · exact draws_close rfl left member
  · refine draws_advance left fun after left => ?_
    refine draws_peek left fun entry rest tokens member => ?_
    split
    · exact draws_emptyThen _ left member
    · exact draws_emptyThen _ left member
    · exact draws_nodeThen _ _ _ _ _ left
  · exact .refuse

theorem draws_indentlessSequenceEntry : Draws indentlessSequenceEntry := by
  intro all r left
  refine draws_peek left fun next rest tokens member => ?_
  split
  · refine draws_advance left fun after left => ?_
    refine draws_peek left fun entry rest tokens member => ?_
    split
    all_goals first
      | exact draws_emptyThen _ left member
      | exact draws_nodeThen _ _ _ _ _ left
  · exact .bind (.leave (.pure (drawn_unwritten left member rfl)))

theorem draws_blockMappingNode (state : State) : Draws (blockMappingNode state) := by
  intro all r left
  refine draws_peek left fun next rest tokens member => ?_
  split
  · exact draws_emptyThen _ left member
  · exact draws_emptyThen _ left member
  · exact draws_emptyThen _ left member
  · exact draws_nodeThen _ _ _ _ _ left

theorem draws_blockMappingKey : Draws blockMappingKey := by
  intro all r left
  refine draws_peek left fun next rest tokens member => ?_
  split
  · exact draws_advance left fun after left => draws_blockMappingNode _ _ _ left
  · exact draws_emptyThen _ left member
  · exact draws_close rfl left member
  · exact .refuse

theorem draws_blockMappingValue : Draws blockMappingValue := by
  intro all r left
  refine draws_peek left fun next rest tokens member => ?_
  split
  · exact draws_advance left fun after left => draws_blockMappingNode _ _ _ left
  · exact draws_emptyThen _ left member

/-! ## Flow collections -/

theorem draws_flowSequenceItem : Draws flowSequenceItem := by
  intro all r left
  refine draws_peek left fun next rest tokens member => ?_
  split
  · exact draws_close rfl left member
  · refine .bind (.goTo (draws_advance left fun after left => ?_))
    exact .pure (drawn_unwritten left member rfl)
  · exact draws_nodeThen _ _ _ _ _ left

theorem draws_flowSequenceEntry : Draws flowSequenceEntry := by
  intro all r left
  refine draws_peek left fun next rest tokens member => ?_
  split
  · exact draws_close rfl left member
  · exact draws_advance left fun after left => draws_flowSequenceItem _ _ left
  · exact .refuse

theorem draws_flowPairKey : Draws flowPairKey := by
  intro all r left
  refine draws_peek left fun next rest tokens member => ?_
  split
  all_goals first
    | exact draws_advance left fun after left => draws_emptyThen _ left member
    | exact draws_nodeThen _ _ _ _ _ left

theorem draws_flowPairValue : Draws flowPairValue := by
  intro all r left
  refine draws_peek left fun next rest tokens member => ?_
  split
  · refine draws_advance left fun after left => ?_
    refine draws_peek left fun value rest tokens member => ?_
    split
    · exact draws_emptyThen _ left member
    · exact draws_emptyThen _ left member
    · exact draws_nodeThen _ _ _ _ _ left
  · exact draws_emptyThen _ left member

theorem draws_flowMappingItem (before : ReadToken) (member : before ∈ all) (left : r.tokens <:+ all) :
    Yields (flowMappingItem before.mark) r (Drawn all) := by
  refine draws_peek left fun next rest tokens here => ?_
  split
  · refine draws_advance left fun after left => ?_
    refine draws_peek left fun key rest tokens member => ?_
    split
    all_goals first
      | exact draws_emptyThen _ left member
      | exact draws_nodeThen _ _ _ _ _ left
  · exact draws_emptyThen _ left here
  · exact draws_close rfl left member
  · exact draws_nodeThen _ _ _ _ _ left

theorem draws_flowMappingKey : Draws flowMappingKey := by
  intro all r left
  refine draws_peek left fun next rest tokens member => ?_
  split
  · exact draws_close rfl left member
  · exact draws_advance left fun after left => draws_flowMappingItem next member left
  · exact .refuse

theorem draws_flowMappingValue : Draws flowMappingValue := by
  intro all r left
  refine draws_peek left fun next rest tokens member => ?_
  split
  · refine draws_advance left fun after left => ?_
    refine draws_peek left fun value rest tokens _ => ?_
    split
    · exact draws_emptyThen _ left member
    · exact draws_emptyThen _ left member
    · exact draws_nodeThen _ _ _ _ _ left
  · exact draws_emptyThen _ left member

/-! ## All events -/

/-- Every event is drawn from the tokens, or it has none and is marked where the text has been read
to. -/
theorem yields_step (r : Reader) :
    Yields step r fun event after => Drawn r.tokens event after ∨
      (event.mark = r.reached ∧ event.event.isWritten = false ∧ after.tokens = r.tokens) := by
  have drawn {piece : Step MarkedEvent} (draws : Draws piece) :
      Yields piece r fun event after => Drawn r.tokens event after ∨
        (event.mark = r.reached ∧ event.event.isWritten = false ∧ after.tokens = r.tokens) :=
    fun event after run => .inl (draws _ r (List.suffix_refl _) event after run)
  have opening {piece : Step MarkedEvent} (draws : Draws piece) : Draws (do opened; piece) := by
    intro all r left
    refine .bind (.opened fun token rest tokens => draws _ _ ?_)
    exact (List.suffix_cons token rest).trans (tokens ▸ left)
  refine .bind (.reading ?_)
  split
  · refine drawn fun all r left => draws_peek left fun next rest tokens member => ?_
    refine .bind (.goTo (draws_advance left fun after left => ?_))
    exact .pure (drawn_unwritten left member rfl)
  · exact drawn (draws_documentStart true)
  · exact drawn (draws_documentStart false)
  · exact drawn draws_documentContent
  · exact drawn draws_documentEnd
  · exact drawn (draws_node true false)
  · exact drawn (opening draws_blockSequenceEntry)
  · exact drawn draws_blockSequenceEntry
  · exact drawn draws_indentlessSequenceEntry
  · exact drawn (opening draws_blockMappingKey)
  · exact drawn draws_blockMappingKey
  · exact drawn draws_blockMappingValue
  · exact drawn (opening draws_flowSequenceItem)
  · exact drawn draws_flowSequenceEntry
  · exact drawn draws_flowPairKey
  · exact drawn draws_flowPairValue
  · exact .bind (.goTo (.bind (.reading (.pure (.inr ⟨rfl, rfl, rfl⟩)))))
  · refine drawn (opening fun all r left => ?_)
    exact draws_peek left fun next rest tokens member => draws_flowMappingItem next member left
  · exact drawn draws_flowMappingKey
  · exact drawn draws_flowMappingValue
  · refine drawn fun all r left => draws_peek left fun next rest tokens member => ?_
    exact draws_emptyThen _ left member
  · exact .bind (.reading (.pure (.inr ⟨rfl, rfl, rfl⟩)))

/-- A leaf that is written has a token of its own, and the event behind it is marked further on. -/
def Sourced (all : List ReadToken) (event : MarkedEvent) (rest : List MarkedEvent) : Prop :=
  event.event.isWritten = true → ∃ token later, token :: later <:+ all ∧ StandsFor token event ∧
    ∀ next ∈ rest.head?, next.mark = token.reached ∨ ∃ other ∈ later, other.mark = next.mark

theorem eventsFrom_cases {fuel : Nat} {events : List MarkedEvent}
    (read : eventsFrom (fuel + 1) r = .ok events) :
    ∃ event after more, step.run r = .ok (event, after) ∧ events = event :: more ∧
      (more = [] ∨ eventsFrom fuel after = .ok more) := by
  obtain ⟨⟨event, after⟩, run, read⟩ := bind_eq_ok.1 read
  simp only at read
  split at read
  · cases read
    exact ⟨event, after, [], run, rfl, .inl rfl⟩
  · obtain ⟨more, later, same⟩ := bind_eq_ok.1 read
    cases same
    exact ⟨event, after, more, run, rfl, .inr later⟩

/-- The first event is marked where the text has been read to, or at a token that is left. -/
theorem head_eventsFrom {fuel : Nat} {events : List MarkedEvent}
    (read : eventsFrom fuel r = .ok events) :
    ∀ next ∈ events.head?, next.mark = r.reached ∨ ∃ token ∈ r.tokens, token.mark = next.mark := by
  cases fuel with
  | zero =>
      cases read
      nofun
  | succ fuel =>
      obtain ⟨event, after, more, run, rfl, -⟩ := eventsFrom_cases read
      rintro next ⟨⟩
      exact (yields_step r event after run).elim (fun drawn => .inr drawn.marked)
        fun silent => .inl silent.1

theorem sourced_eventsFrom {fuel : Nat} {events : List MarkedEvent}
    (read : eventsFrom fuel r = .ok events) {event : MarkedEvent} {rest : List MarkedEvent}
    (part : event :: rest <:+ events) : Sourced r.tokens event rest := by
  induction fuel generalizing r events with
  | zero =>
      cases read
      exact absurd (List.suffix_nil.1 part) (by simp)
  | succ fuel ih =>
      obtain ⟨first, after, more, run, rfl, later⟩ := eventsFrom_cases read
      have step := yields_step r first after run
      have left : after.tokens <:+ r.tokens :=
        step.elim Drawn.left fun silent => silent.2.2 ▸ List.suffix_refl _
      rcases List.suffix_cons_iff.1 part with whole | inner
      · obtain ⟨rfl, rfl⟩ := List.cons.inj whole
        intro written
        rcases step with drawn | ⟨_, unwritten, _⟩
        · obtain ⟨token, suffix, stands, reached⟩ := drawn.source written
          refine ⟨token, after.tokens, suffix, stands, ?_⟩
          rcases later with rfl | later
          · nofun
          · exact reached ▸ head_eventsFrom later
        · rw [unwritten] at written
          cases written
      · rcases later with rfl | later
        · exact absurd (List.suffix_nil.1 inner) (by simp)
        · intro written
          obtain ⟨token, behind, suffix, known⟩ := ih later inner written
          exact ⟨token, behind, suffix.trans left, known⟩

theorem sourced_events {text : List Char} {events : List MarkedEvent}
    (read : Yaml.events text = .ok events) {event : MarkedEvent} {rest : List MarkedEvent}
    (part : event :: rest <:+ events) : Sourced (tokenize text).tokens event rest :=
  sourced_eventsFrom read part

end Grammar

end WorkflowScope.Yaml
