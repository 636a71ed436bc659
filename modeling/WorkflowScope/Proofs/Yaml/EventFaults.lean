import WorkflowScope.Proofs.Yaml.TokenFaults
import WorkflowScope.Yaml.Grammar

/-!
# The faults of a token stream that is read

A reader of tokens refuses them at the mark of a token, at the mark of the fault behind them, or
where the text had been read to. So the fault of a text is marked at a place that was reached in it.
-/

namespace WorkflowScope.Yaml.Grammar

variable {α β : Type} {text : List Char} {mark : Mark}

/-- The marks that the reader can come upon were reached in the text. -/
structure Reader.Traced (text : List Char) (r : Reader) : Prop where
  tokens : ∀ token ∈ r.tokens, Told text token.mark ∧ Told text token.reached
  fault : ∀ error ∈ r.fault, Told text error.mark
  reached : Told text r.reached

/-- From such a reader the piece fails at a mark that was reached, or leaves such a reader. -/
def Traces (text : List Char) (piece : Step α) : Prop :=
  ∀ r : Reader, r.Traced text → Brings text (fun found => found.2.Traced text) (piece.run r)

/-! ## Rules -/

namespace Traces

theorem pure (a : α) : Traces text (Pure.pure a : Step α) :=
  fun _ traced => .ok traced

theorem bind {piece : Step α} {next : α → Step β} (first : Traces text piece)
    (later : ∀ a, Traces text (next a)) : Traces text (piece >>= next) := by
  intro r traced
  rw [StateT.run_bind]
  exact .bind (first r traced) fun found traced => later found.1 found.2 traced

theorem refuse (fault : Fault) (told : Told text mark) :
    Traces text (Grammar.refuse fault mark : Step α) :=
  fun _ _ => .error told

theorem peek {next : ReadToken → Step α}
    (later : ∀ token, Told text token.mark → Traces text (next token)) :
    Traces text (Grammar.peek >>= next) := by
  intro r traced
  rw [StateT.run_bind]
  refine .bind (?_ : Brings text (fun found => Told text found.1.mark ∧ found.2.Traced text) _)
    fun found ⟨told, traced⟩ => later found.1 told found.2 traced
  simp only [Grammar.peek, StateT.run_bind, StateT.run_get, pure_bind]
  split
  · cases given : r.fault with
    | none => exact .error traced.reached
    | some error => exact .error (traced.fault error given)
  · rename_i token rest tokens
    obtain ⟨told, reached⟩ := traced.tokens token (tokens ▸ List.mem_cons_self)
    exact .ok ⟨told, traced.tokens, traced.fault, reached⟩

theorem reading {next : Reader → Step α} (later : ∀ r, Traces text (next r)) :
    Traces text (get >>= next) :=
  fun r traced => later r r traced

theorem advance : Traces text Grammar.advance :=
  fun _ traced => .ok
    ⟨fun token member => traced.tokens token (List.mem_of_mem_tail member), traced.fault,
      traced.reached⟩

/-- What is remembered besides tokens has no mark. -/
theorem changing {change : Reader → Reader} (tokens : ∀ r, (change r).tokens = r.tokens)
    (fault : ∀ r, (change r).fault = r.fault) (reached : ∀ r, (change r).reached = r.reached) :
    Traces text (modify change : Step Unit) :=
  fun r traced => .ok
    ⟨(tokens r).symm ▸ traced.tokens, (fault r).symm ▸ traced.fault,
      (reached r).symm ▸ traced.reached⟩

theorem goTo (state : State) : Traces text (Grammar.goTo state) :=
  changing (fun _ => rfl) (fun _ => rfl) fun _ => rfl

theorem returnTo (state : State) : Traces text (Grammar.returnTo state) :=
  changing (fun _ => rfl) (fun _ => rfl) fun _ => rfl

theorem leave : Traces text Grammar.leave :=
  changing (fun _ => rfl) (fun _ => rfl) fun _ => rfl

theorem declareAnchor (name : List Char) : Traces text (Grammar.declareAnchor name) :=
  changing (fun _ => rfl) (fun _ => rfl) fun _ => rfl

theorem declareHandles (handles : List (List Char)) :
    Traces text (modify fun r => { r with handles } : Step Unit) :=
  changing (fun _ => rfl) (fun _ => rfl) fun _ => rfl

theorem emptyThen (state : State) (mark : Mark) : Traces text (Grammar.emptyThen state mark) :=
  .bind (goTo state) fun _ => .pure _

theorem close (event : Event) (mark : Mark) : Traces text (Grammar.close event mark) :=
  .bind leave fun _ => .bind advance fun _ => .pure _

theorem opened : Traces text Grammar.opened :=
  .peek fun _ _ => advance

theorem checkHandle (handle : List Char) (told : Told text mark) :
    Traces text (Grammar.checkHandle handle mark) := by
  refine .reading fun r => ?_
  split
  · exact .refuse _ told
  · exact .pure _

end Traces

/-! ## Nodes -/

theorem traces_properties : Traces text properties := by
  refine .peek fun first told => ?_
  split
  · refine .bind .advance fun _ => .bind (.declareAnchor _) fun _ => .peek fun second _ => ?_
    split
    · exact .bind .advance fun _ => .bind (.checkHandle _ told) fun _ => .pure _
    · exact .bind (.pure ()) fun _ => .pure true
  · refine .bind .advance fun _ => .bind (.checkHandle _ told) fun _ => .peek fun second _ => ?_
    split
    · exact .bind .advance fun _ => .bind (.declareAnchor _) fun _ => .pure _
    · exact .bind (.pure ()) fun _ => .pure true
  · exact .pure _

theorem traces_content (block indentless decorated : Bool) :
    Traces text (content block indentless decorated) := by
  refine .peek fun next told => ?_
  split
  · exact .bind .leave fun _ => .bind .advance fun _ => .pure _
  · exact .bind (.goTo _) fun _ => .pure _
  · exact .bind (.goTo _) fun _ => .pure _
  · split
    · exact .bind (.goTo _) fun _ => .pure _
    · split
      · exact .bind (.goTo _) fun _ => .pure _
      · split
        · exact .bind (.goTo _) fun _ => .pure _
        · split
          · exact .bind .leave fun _ => .pure _
          · exact .refuse _ told

theorem traces_node (block indentless : Bool) : Traces text (node block indentless) := by
  refine .peek fun first told => ?_
  split
  · refine .bind .leave fun _ => .bind .advance fun _ => .reading fun r => ?_
    split
    · exact .pure _
    · exact .refuse _ told
  · exact .bind traces_properties fun decorated => traces_content _ _ _

theorem traces_nodeThen (state : State) (block indentless : Bool) :
    Traces text (nodeThen state block indentless) :=
  .bind (.returnTo state) fun _ => traces_node _ _

/-! ## Documents -/

theorem traces_directives (fuel : Nat) (versioned : Bool) :
    Traces text (directives fuel versioned) := by
  induction fuel generalizing versioned with
  | zero => exact .pure _
  | succ fuel ih =>
      refine .peek fun next told => ?_
      split
      · split
        · exact .refuse _ told
        · exact .bind (.declareHandles _) fun _ => .bind .advance fun _ => ih _
      · exact .bind (.declareHandles _) fun _ => .bind .advance fun _ => ih _
      · exact .pure _

theorem traces_skipDocumentEnds (fuel : Nat) : Traces text (skipDocumentEnds fuel) := by
  induction fuel with
  | zero => exact .pure _
  | succ fuel ih =>
      refine .peek fun next told => ?_
      split
      · exact .bind .advance fun _ => ih
      · exact .pure _

theorem traces_explicitDocument : Traces text explicitDocument := by
  refine .reading fun r => .bind (traces_directives _ _) fun _ => .peek fun next told => ?_
  split
  · refine .bind (.returnTo _) fun _ => .bind (.goTo _) fun _ => .bind .advance fun _ => ?_
    exact .pure _
  · exact .refuse _ told

theorem traces_documentStart (implicit : Bool) : Traces text (documentStart implicit) := by
  refine .reading fun r => .bind (traces_skipDocumentEnds _) fun _ => .peek fun next told => ?_
  split
  · exact .bind (.goTo _) fun _ => .bind .advance fun _ => .pure _
  · exact traces_explicitDocument
  · exact traces_explicitDocument
  · exact traces_explicitDocument
  · split
    · exact .bind (.returnTo _) fun _ => .bind (.goTo _) fun _ => .pure _
    · exact traces_explicitDocument

theorem traces_documentContent : Traces text documentContent := by
  refine .peek fun next told => ?_
  split
  all_goals first
    | exact .bind .leave fun _ => .pure _
    | exact traces_node _ _

theorem traces_documentEnd : Traces text documentEnd := by
  refine .peek fun next told => .bind (.declareHandles _) fun _ => ?_
  split
  · exact .bind .advance fun _ => .bind (.goTo _) fun _ => .pure _
  · exact .refuse _ told
  · exact .refuse _ told
  · exact .bind (.goTo _) fun _ => .pure _

/-! ## Block collections -/

theorem traces_blockSequenceEntry : Traces text blockSequenceEntry := by
  refine .peek fun next told => ?_
  split
  · exact .close _ _
  · refine .bind .advance fun _ => .peek fun entry _ => ?_
    split
    · exact .emptyThen _ _
    · exact .emptyThen _ _
    · exact traces_nodeThen _ _ _
  · exact .refuse _ told

theorem traces_indentlessSequenceEntry : Traces text indentlessSequenceEntry := by
  refine .peek fun next told => ?_
  split
  · refine .bind .advance fun _ => .peek fun entry _ => ?_
    split
    all_goals first
      | exact .emptyThen _ _
      | exact traces_nodeThen _ _ _
  · exact .bind .leave fun _ => .pure _

theorem traces_blockMappingNode (state : State) : Traces text (blockMappingNode state) := by
  refine .peek fun next told => ?_
  split
  · exact .emptyThen _ _
  · exact .emptyThen _ _
  · exact .emptyThen _ _
  · exact traces_nodeThen _ _ _

theorem traces_blockMappingKey : Traces text blockMappingKey := by
  refine .peek fun next told => ?_
  split
  · exact .bind .advance fun _ => traces_blockMappingNode _
  · exact .emptyThen _ _
  · exact .close _ _
  · exact .refuse _ told

theorem traces_blockMappingValue : Traces text blockMappingValue := by
  refine .peek fun next told => ?_
  split
  · exact .bind .advance fun _ => traces_blockMappingNode _
  · exact .emptyThen _ _

/-! ## Flow collections -/

theorem traces_flowSequenceItem : Traces text flowSequenceItem := by
  refine .peek fun next told => ?_
  split
  · exact .close _ _
  · exact .bind (.goTo _) fun _ => .bind .advance fun _ => .pure _
  · exact traces_nodeThen _ _ _

theorem traces_flowSequenceEntry : Traces text flowSequenceEntry := by
  refine .peek fun next told => ?_
  split
  · exact .close _ _
  · exact .bind .advance fun _ => traces_flowSequenceItem
  · exact .refuse _ told

theorem traces_flowPairKey : Traces text flowPairKey := by
  refine .peek fun next told => ?_
  split
  all_goals first
    | exact .bind .advance fun _ => .emptyThen _ _
    | exact traces_nodeThen _ _ _

theorem traces_flowPairValue : Traces text flowPairValue := by
  refine .peek fun next told => ?_
  split
  · refine .bind .advance fun _ => .peek fun value _ => ?_
    split
    · exact .emptyThen _ _
    · exact .emptyThen _ _
    · exact traces_nodeThen _ _ _
  · exact .emptyThen _ _

theorem traces_flowMappingItem (before : Mark) : Traces text (flowMappingItem before) := by
  refine .peek fun next told => ?_
  split
  · refine .bind .advance fun _ => .peek fun key _ => ?_
    split
    all_goals first
      | exact .emptyThen _ _
      | exact traces_nodeThen _ _ _
  · exact .emptyThen _ _
  · exact .close _ _
  · exact traces_nodeThen _ _ _

theorem traces_flowMappingKey : Traces text flowMappingKey := by
  refine .peek fun next told => ?_
  split
  · exact .close _ _
  · exact .bind .advance fun _ => traces_flowMappingItem _
  · exact .refuse _ told

theorem traces_flowMappingValue : Traces text flowMappingValue := by
  refine .peek fun next told => ?_
  split
  · refine .bind .advance fun _ => .peek fun value _ => ?_
    split
    · exact .emptyThen _ _
    · exact .emptyThen _ _
    · exact traces_nodeThen _ _ _
  · exact .emptyThen _ _

/-! ## All events -/

/-- Every event leaves only marks that were reached, and so does every refusal. -/
theorem traces_step : Traces text step := by
  refine .reading fun r => ?_
  split
  · exact .peek fun next _ => .bind (.goTo _) fun _ => .bind .advance fun _ => .pure _
  · exact traces_documentStart true
  · exact traces_documentStart false
  · exact traces_documentContent
  · exact traces_documentEnd
  · exact traces_node true false
  · exact .bind .opened fun _ => traces_blockSequenceEntry
  · exact traces_blockSequenceEntry
  · exact traces_indentlessSequenceEntry
  · exact .bind .opened fun _ => traces_blockMappingKey
  · exact traces_blockMappingKey
  · exact traces_blockMappingValue
  · exact .bind .opened fun _ => traces_flowSequenceItem
  · exact traces_flowSequenceEntry
  · exact traces_flowPairKey
  · exact traces_flowPairValue
  · exact .bind (.goTo _) fun _ => .reading fun _ => .pure _
  · exact .bind .opened fun _ => .peek fun _ _ => traces_flowMappingItem _
  · exact traces_flowMappingKey
  · exact traces_flowMappingValue
  · exact .peek fun next _ => .emptyThen _ _
  · exact .reading fun _ => .pure _

theorem failsAt_eventsFrom {fuel : Nat} {r : Reader} (traced : r.Traced text) :
    FailsAt (Told text) (eventsFrom fuel r) := by
  induction fuel generalizing r with
  | zero => exact .ok _
  | succ fuel ih =>
      have step := traces_step r traced
      refine .bind step.fails fun found run => ?_
      simp only
      split
      · exact .ok _
      · exact .bind (ih (step.gives found run)) fun _ _ => .ok _

/-- A text is refused at a mark that was reached in it. -/
theorem failsAt_events (text : List Char) : FailsAt (Told text) (Yaml.events text) := by
  have traced := traced_tokenize text
  exact failsAt_eventsFrom ⟨traced.tokens, traced.fault, (Cursor.at_initial text).told⟩

end WorkflowScope.Yaml.Grammar
