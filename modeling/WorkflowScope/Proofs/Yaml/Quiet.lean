import Mathlib.Data.List.InsertIdx
import WorkflowScope.Proofs.Yaml.Tokens

/-!
# Quiet pieces of a text

Aliases and scalars are the leaves of a tree. Every other piece of a text is quiet: whatever it puts
into the queue, behind the waiting tokens or between them, is no leaf.
-/

namespace WorkflowScope.Yaml

/-- The tokens that stand for a leaf of the tree. -/
def Token.isLeaf : Token → Bool
  | .reference _ | .scalar .. => true
  | _ => false

namespace Layout

variable {l l' l'' : Layout}

/-! ## Steps -/

/-- Nothing is put into the queue but quiet tokens. -/
def Adds (l l' : Layout) : Prop :=
  ∀ token ∈ l'.queue, token ∈ l.queue ∨ token.token.isLeaf = false

theorem adds_of_eq (same : l'.queue = l.queue) : Adds l l' := by
  intro token member
  exact .inl (same ▸ member)

theorem Adds.trans (first : Adds l l') (second : Adds l' l'') : Adds l l'' := by
  intro token member
  rcases second token member with old | quiet
  · exact first token old
  · exact .inr quiet

theorem Adds.to (adds : Adds l l') (same : l''.queue = l'.queue) : Adds l l'' :=
  adds.trans (adds_of_eq same)

theorem Adds.push (adds : Adds l l') (mark : Mark) {token : Token} (quiet : token.isLeaf = false) :
    Adds l (l'.push mark token) := by
  intro other member
  rcases List.mem_append.1 member with old | new
  · exact adds other old
  · rw [List.mem_singleton.1 new]
    exact .inr quiet

theorem adds_insertAt (l : Layout) (number : Nat) (mark : Mark) {token : Token}
    (quiet : token.isLeaf = false) : Adds l (l.insertAt number mark token) := by
  intro other member
  rcases List.eq_or_mem_of_mem_insertIdx member with rfl | old
  · exact .inr quiet
  · exact .inl old

theorem adds_enterBlock (l : Layout) (column : Int) (number : Option Nat) (mark : Mark) {start : Token}
    (quiet : start.isLeaf = false) : Adds l (l.enterBlock column number mark start) := by
  obtain ⟨levels, indent, same | ⟨-, same⟩⟩ := l.enterBlock_cases column number mark start
  · rw [same]
    exact adds_of_eq rfl
  · rw [same]
    cases number with
    | none => exact (adds_of_eq rfl : Adds l { l with levels, indent }).push mark quiet
    | some number =>
        exact (adds_of_eq rfl : Adds l { l with levels, indent }).trans
          (adds_insertAt _ number mark quiet)

theorem adds_enterInline (l : Layout) : Adds l l.enterInline := by
  obtain ⟨levels, indent, same⟩ := l.enterInline_eq
  rw [same]
  exact adds_of_eq rfl

theorem adds_saveKey (l : Layout) : Adds l l.saveKey := by
  unfold saveKey
  split <;> exact adds_of_eq rfl

theorem adds_removeKey (removed : l.removeKey = .ok l') : Adds l l' := by
  obtain ⟨_, removed⟩ := refuse_eq_ok.1 removed
  cases removed
  exact adds_of_eq rfl

theorem queue_skipToLineEnd (read : l.skipToLineEnd = .ok l') : l'.queue = l.queue := by
  obtain ⟨cursor, rfl, -⟩ := skipToLineEnd_spec read
  rfl

theorem adds_endImplicitMapping (l : Layout) : Adds l l.endImplicitMapping := by
  unfold endImplicitMapping
  split
  · exact (adds_of_eq rfl : Adds l { l with implicitFlowMapping := false, flowMappingStarted := false }).push
      l.mark rfl
  · exact adds_of_eq rfl

theorem adds_leaveBlocks (column : Int) (l : Layout) : Adds l (l.leaveBlocks column) := by
  obtain ⟨levels, indent, ends, same, all⟩ := leaveBlocks_eq column l
  rw [same]
  intro token member
  rcases List.mem_append.1 member with old | new
  · exact .inl old
  · rw [all token new]
    exact .inr rfl

theorem cursor_endContent (ended : l.endContent = .ok l') : l'.cursor = l.cursor := by
  obtain ⟨removed, remove, ended⟩ := bind_eq_ok.1 ended
  cases ended
  obtain ⟨_, remove⟩ := refuse_eq_ok.1 remove
  cases remove
  obtain ⟨levels, indent, ends, same, -⟩ := leaveBlocks_eq (-1) l
  rw [same]
  rfl

/-! ## Pieces -/

theorem adds_endContent (ended : l.endContent = .ok l') : Adds l l' := by
  obtain ⟨removed, remove, ended⟩ := bind_eq_ok.1 ended
  cases ended
  exact ((adds_leaveBlocks (-1) l).trans (adds_removeKey remove)).to rfl

theorem adds_takeDirective (found : l.cursor.peek = '%') (taken : l.takeDirective = .ok l') :
    Adds l l' := by
  obtain ⟨ended, content, taken⟩ := bind_eq_ok.1 taken
  obtain ⟨⟨cursor, token⟩, read, taken⟩ := bind_eq_ok.1 taken
  cases taken
  rw [cursor_endContent content] at read
  have quiet : token.isLeaf = false := by
    obtain ⟨-, rfl | ⟨handle, rfl⟩⟩ := Directive.leads_read found read <;> rfl
  exact ((adds_endContent content).push _ quiet).to rfl

theorem adds_takeDocumentStart (taken : l.takeDocumentStart = .ok l') : Adds l l' := by
  obtain ⟨ended, content, taken⟩ := bind_eq_ok.1 taken
  cases taken
  exact ((adds_endContent content).push ended.mark rfl).to rfl

theorem adds_takeDocumentEnd (taken : l.takeDocumentEnd = .ok l') : Adds l l' := by
  obtain ⟨ended, content, taken⟩ := bind_eq_ok.1 taken
  obtain ⟨last, blanks, taken⟩ := bind_eq_ok.1 taken
  cases (ensure_eq_ok.1 taken).2
  have pushed : Adds l (ended.push ended.mark .documentEnd) := (adds_endContent content).push _ rfl
  exact pushed.to ((queue_skipToLineEnd blanks).trans rfl)

theorem adds_takeFlowStart {token : Token} (quiet : token.isLeaf = false)
    (taken : l.takeFlowStart token = .ok l') : Adds l l' := by
  rw [takeFlowStart] at taken
  obtain ⟨_, taken⟩ := refuse_eq_ok.1 taken
  obtain ⟨after, blanks, taken⟩ := bind_eq_ok.1 taken
  cases taken
  have saved := (adds_saveKey l).trans (adds_enterInline l.saveKey)
  exact (saved.to ((queue_skipToLineEnd blanks).trans rfl)).push _ quiet

theorem adds_takeFlowEnd {token : Token} (quiet : token.isLeaf = false)
    (taken : l.takeFlowEnd token = .ok l') : Adds l l' := by
  obtain ⟨removed, remove, taken⟩ := bind_eq_ok.1 taken
  obtain ⟨left, closed, taken⟩ : ∃ left : Layout, left.queue = removed.queue ∧
      (do let after ← Layout.skipToLineEnd { left.endImplicitMapping with
            cursor := left.endImplicitMapping.cursor.skip 1 }
          Except.ok ((if after.inFlow then { after with adjacentValueAt := after.mark.index }
            else after).push left.endImplicitMapping.mark token)) = .ok l' := by
    refine ⟨_, ?_, taken⟩
    split <;> rfl
  obtain ⟨after, blanks, taken⟩ := bind_eq_ok.1 taken
  cases taken
  have ended : Adds l left.endImplicitMapping :=
    ((adds_removeKey remove).to closed).trans (adds_endImplicitMapping left)
  have past := ended.to ((queue_skipToLineEnd blanks).trans rfl)
  refine Adds.push ?_ _ quiet
  split
  · exact past.to rfl
  · exact past

theorem adds_takeFlowEntry (taken : l.takeFlowEntry = .ok l') : Adds l l' := by
  obtain ⟨removed, remove, taken⟩ := bind_eq_ok.1 taken
  obtain ⟨after, blanks, taken⟩ := bind_eq_ok.1 taken
  cases taken
  have ended : Adds l ({ removed with keyAllowed := true } : Layout).endImplicitMapping :=
    ((adds_removeKey remove).to rfl).trans (adds_endImplicitMapping _)
  exact (ended.to ((queue_skipToLineEnd blanks).trans rfl)).push _ rfl

theorem adds_takeBlockEntry (taken : l.takeBlockEntry = .ok l') : Adds l l' := by
  rw [takeBlockEntry] at taken
  obtain ⟨_, taken⟩ := refuse_eq_ok.1 taken
  obtain ⟨_, taken⟩ := refuse_eq_ok.1 taken
  split at taken
  · cases taken
  · obtain ⟨⟨cursor, gap⟩, blanks, taken⟩ := bind_eq_ok.1 taken
    obtain ⟨_, taken⟩ := refuse_eq_ok.1 taken
    obtain ⟨removed, remove, taken⟩ := bind_eq_ok.1 taken
    cases taken
    have entered : Adds l ({ l with cursor := l.cursor.skip 1 }.enterBlock l.mark.column none l.mark
        .blockSequenceStart) :=
      (adds_of_eq rfl : Adds l { l with cursor := l.cursor.skip 1 }).trans
        (adds_enterBlock _ _ _ _ rfl)
    have inline : Adds l removed := by
      refine Adds.trans ?_ (adds_removeKey remove)
      split
      · exact (entered.to rfl).trans (adds_enterInline _)
      · exact entered.to rfl
    exact (inline.push removed.mark rfl).to rfl

theorem adds_takeKey (taken : l.takeKey = .ok l') : Adds l l' := by
  rw [takeKey] at taken
  obtain ⟨_, taken⟩ := refuse_eq_ok.1 taken
  obtain ⟨removed, remove, taken⟩ := bind_eq_ok.1 taken
  have entered : Adds l removed := by
    split at remove
    · exact (adds_of_eq rfl : Adds l { l with flowMappingStarted := true }).trans
        (adds_removeKey remove)
    · exact (adds_enterBlock l _ _ _ rfl).trans (adds_removeKey remove)
  obtain ⟨last, allowed, skipped, -⟩ := skipAfterQuestionMark_spec
    ((removed.cursor.skip 1).rest.length + 1)
    { removed with keyAllowed := !removed.inFlow, cursor := removed.cursor.skip 1 }
  simp only [skipped] at taken
  obtain ⟨_, taken⟩ := refuse_eq_ok.1 taken
  obtain ⟨_, taken⟩ := refuse_eq_ok.1 taken
  cases taken
  exact (entered.push l.mark rfl).to rfl

theorem adds_completeKey {key : SimpleKey} {colon : Mark}
    (completed : l.completeKey key colon = .ok l') : Adds l l' := by
  have keyed : Adds l (l.insertAt key.number key.mark .key) := adds_insertAt _ _ _ rfl
  have finish {inner : Layout} (adds : Adds l inner) :
      Adds l (inner.enterBlock key.mark.column (some key.number) colon .blockMappingStart).enterInline :=
    (adds.trans (adds_enterBlock _ _ _ _ rfl)).trans (adds_enterInline _)
  simp only [completeKey, ok_bind, error_bind] at completed
  split at completed
  · cases completed
    exact (finish keyed).to rfl
  · obtain ⟨_, completed⟩ := refuse_eq_ok.1 completed
    cases completed
    exact (finish (keyed.trans (adds_insertAt _ _ _ rfl))).to rfl

theorem adds_beginValue {colon : Mark} (begun : l.beginValue colon = .ok l') : Adds l l' := by
  simp only [beginValue] at begun
  obtain ⟨_, begun⟩ := refuse_eq_ok.1 begun
  cases begun
  have implicit : Adds l (if l.implicitFlowMapping then l.push l.mark .flowMappingStart else l) := by
    split
    · exact (adds_of_eq rfl : Adds l l).push _ rfl
    · exact adds_of_eq rfl
  exact ((implicit.trans (adds_enterBlock _ _ _ _ rfl)).trans (adds_enterInline _)).to rfl

theorem adds_takeValue (taken : l.takeValue = .ok l') : Adds l l' := by
  obtain ⟨tabbed, tabs, taken⟩ := bind_eq_ok.1 taken
  obtain ⟨cursor, rfl, -⟩ := skipTabAfterColon_spec tabs
  simp only at taken
  split at taken
  · obtain ⟨after, completed, taken⟩ := bind_eq_ok.1 taken
    cases taken
    exact Adds.push ((adds_completeKey completed).trans (adds_of_eq rfl)) _ rfl
  · obtain ⟨after, begun, taken⟩ := bind_eq_ok.1 taken
    cases taken
    exact Adds.push ((adds_beginValue begun).trans (adds_of_eq rfl)) _ rfl

theorem adds_takeTag (taken : l.takeTag = .ok l') : Adds l l' := by
  obtain ⟨⟨cursor, handle⟩, read, taken⟩ := bind_eq_ok.1 taken
  cases taken
  exact ((adds_saveKey l).push l.saveKey.mark rfl).to rfl

end Layout

end WorkflowScope.Yaml
