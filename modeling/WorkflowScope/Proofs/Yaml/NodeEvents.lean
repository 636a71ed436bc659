import WorkflowScope.Proofs.Yaml.Readiness
import WorkflowScope.Proofs.Yaml.Yields

/-!
# Events of nodes

The event with which a node begins stands behind the events before it, and so does the event for a
node that is missing and for the end of a collection.
-/

namespace WorkflowScope.Yaml.Grammar

open Composer (opensAt)

/-! ## Nodes -/

/-- A node may begin: the states that wait fit the frames after it. -/
structure NodeAt (text : List Char) (r : Reader) (s : Room) (frames : List Frame) (lo : Nat)
    (bound : Option Nat) (effort : Nat) : Prop where
  stacked : Stacked r.stack (Frame.afterNode frames)
  ahead : Ahead text s r.tokens
  level : lo ≤ s.lo
  under : ∀ b ∈ bound, s.Under b
  less : r.backlog < effort

variable {text : List Char} {r : Reader} {s : Room} {frames outer : List Frame} {lo effort : Nat}
  {bound : Option Nat}

/-- Where a node returns to. -/
theorem Ready.returned {after : Reader} {t : Room} {states : List State} {hi : Nat}
    (stacked : Stacked states frames) (state : after.state = states.headD .streamEnd)
    (stack : after.stack = states.tail) (ahead : Ahead text t after.tokens)
    (level : Level after t hi) (inside : hi ≤ text.length) : Ready text after frames hi none := by
  obtain ⟨top, rest, rfl⟩ := stacked.exists_cons
  simp only [List.headD_cons, List.tail_cons] at state stack
  exact .entry (by rwa [state, stack]) ahead level inside

/-- Returning from a node pays for itself. -/
theorem effort_returned {after : Reader} {states : List State} (stacked : Stacked states frames)
    (state : after.state = states.headD .streamEnd) (stack : after.stack = states.tail) :
    after.effort ≤ 8 * after.tokens.length + 2 * states.length := by
  have weight : after.state.weight (after.tokens.head?.map (·.token)) ≤ 2 := by
    rw [state]
    cases stacked <;> simp only [List.headD_cons, State.weight] <;> first | omega | (split <;> omega)
  obtain ⟨top, rest, rfl⟩ := stacked.exists_cons
  simp only [Reader.effort, Reader.backlog, stack, List.tail_cons, List.length_cons]
  omega

/-- The bound for the first key of a mapping at `mark` that is bounded itself. -/
def innerBound (mark : Nat) (bound : Option Nat) : Nat :=
  min mark (bound.getD mark)

theorem innerBound_le_mark (mark : Nat) (bound : Option Nat) : innerBound mark bound ≤ mark :=
  Nat.min_le_left _ _

theorem innerBound_le {mark b : Nat} {bound : Option Nat} (given : b ∈ bound) :
    innerBound mark bound ≤ b := by
  cases given
  exact Nat.min_le_right _ _

theorem under_innerBound {t : Room} {mark : Nat} (own : t.Under mark)
    (under : ∀ b ∈ bound, t.Under b) : t.Under (innerBound mark bound) := by
  cases bound with
  | none => simpa [innerBound] using own
  | some b => exact own.min (under b rfl)

/-- A mapping that begins with a token that is loose. -/
theorem emits_loose {after : Reader} {mark : Mark} {hi : Nat} {own : Bool} {token : Token}
    {next : ReadToken} {rest : List ReadToken} (node : NodeAt text r s frames lo bound effort)
    (fit : Loose text s (mark.offsetIn text) token hi)
    (ahead : Ahead text
      { lo := hi, touch := s.touch, cap := some (mark.offsetIn text), fresh := true } rest)
    (state : after.state = if own then .flowMappingFirstKey else .blockMappingFirstKey)
    (stack : after.stack = r.stack) (tokens : after.tokens = next :: rest)
    (same : after.tokens = r.tokens) :
    Emits text frames lo bound effort ⟨mark, .mappingStart⟩ after := by
  have inside := ahead.inside
  have behind := fit.behind
  have room := fit.room
  have level := node.level
  refine ⟨by simp, ?_, fun events ready => ?_⟩
  · have less := node.less
    simp only [Reader.backlog, ← same, ← stack] at less
    simp only [Reader.effort, Reader.backlog, state]
    cases own <;> simpa [State.weight] using less
  · refine .loose hi (innerBound (mark.offsetIn text) bound) own (by omega) inside
      (innerBound_le_mark _ _) (by simp only; omega) (fun b given => innerBound_le given) ?_
      (ready _ _ _ ?_)
    · -- A brace can only be the mark of a flow mapping, which touches nothing.
      intro brace b given
      rcases fit.start with ⟨_, other⟩ | ⟨_, apart⟩
      · exact absurd brace (by simpa using other)
      · rcases node.under b given with ⟨touch, _⟩ | ⟨c, cap, le⟩
        · rw [apart] at touch
          cases touch
        · exact Nat.le_trans (fit.capped c cap) le
    · refine .firstKey state tokens (stack ▸ node.stacked) ahead (Nat.le_refl hi) ?_
      rintro b ⟨⟩
      exact ⟨under_innerBound (.inr ⟨_, rfl, Nat.le_refl _⟩)
        fun b given => (node.under b given).loose fit, rfl⟩

/-- An empty scalar at the next token, which stays. -/
theorem emits_empty {after : Reader} {next : ReadToken} {rest : List ReadToken}
    (stacked : Stacked (after.state :: after.stack) (Frame.afterNode frames))
    (tokens : after.tokens = next :: rest) (ahead : Ahead text s (next :: rest))
    (level : lo ≤ s.lo) (bounded : ∀ b ∈ bound, next.mark.offsetIn text ≤ b)
    (start : next.token ≠ .flowMappingStart)
    (block : next.token = .blockMappingStart → after.state.followsInFlow = true)
    (less : after.effort < effort) :
    Emits text frames lo bound effort ⟨next.mark, .empty⟩ after := by
  have inside := next.mark.offsetIn_le text
  obtain ⟨t, takes, _⟩ := ahead.next
  have behind := takes.behind
  refine ⟨by simp [Event.empty], less, fun events ready => ?_⟩
  refine .scalar (next.mark.offsetIn text) (by simp only; omega) (Nat.le_refl _) ?_ inside bounded
    (ready _ _ _ ?_)
  · simp [Extent.shownEnd]
  · by_cases loose : next.token = .blockMappingStart
    · exact .entry stacked (tokens ▸ ahead) (.inr (.inr ⟨block loose, next, rest, tokens, loose⟩))
        inside
    · exact .entry stacked (tokens ▸ ahead.raise loose start) (.inl (Nat.le_refl _)) inside

theorem emits_scalar {after : Reader} {next : ReadToken} {rest : List ReadToken} {style : Style}
    {value : List Char} (node : NodeAt text r s frames lo bound effort)
    (tokens : r.tokens = next :: rest) (kind : next.token = .scalar style value)
    (state : after.state = r.stack.headD .streamEnd) (stack : after.stack = r.stack.tail)
    (left : after.tokens = rest) :
    Emits text frames lo bound effort ⟨next.mark, .scalar style value⟩ after := by
  obtain ⟨stacked, ahead, level, under, less⟩ := node
  rw [tokens] at ahead
  obtain ⟨hi, fit, ahead'⟩ := ahead.solid (by simp [kind, Token.isRead])
  have behind := fit.behind
  have shown := fit.shown
  rw [kind] at shown
  refine ⟨by simp, ?_, fun events ready => ?_⟩
  · have cost := effort_returned stacked state stack
    simp only [Reader.backlog, tokens, List.length_cons, left] at less cost
    omega
  · refine .scalar hi (by simp only; omega) fit.room shown ahead'.inside
      (fun b given => (under b given).mark_le fit) (ready _ _ _ ?_)
    exact .returned stacked state stack (left ▸ ahead') (.inl (Nat.le_refl _)) ahead'.inside

theorem emits_reference {after : Reader} {next : ReadToken} {rest : List ReadToken}
    {name : List Char} (node : NodeAt text r s frames lo bound effort)
    (tokens : r.tokens = next :: rest) (kind : next.token = .reference name)
    (state : after.state = r.stack.headD .streamEnd) (stack : after.stack = r.stack.tail)
    (left : after.tokens = rest) :
    Emits text frames lo bound effort ⟨next.mark, .reference⟩ after := by
  obtain ⟨stacked, ahead, level, under, less⟩ := node
  rw [tokens] at ahead
  obtain ⟨hi, fit, ahead'⟩ := ahead.solid (by simp [kind, Token.isRead])
  have behind := fit.behind
  have shown := fit.shown
  rw [kind] at shown
  refine ⟨by simp, ?_, fun events ready => ?_⟩
  · have cost := effort_returned stacked state stack
    simp only [Reader.backlog, tokens, List.length_cons, left] at less cost
    omega
  · refine .reference hi (by simp only; omega) fit.room shown ahead'.inside
      (fun b given => (under b given).mark_le fit) (ready _ _ _ ?_)
    exact .returned stacked state stack (left ▸ ahead') (.inl (Nat.le_refl _)) ahead'.inside

/-- A sequence that begins with a token of its own, which is still to be read. -/
theorem emits_sequence {after : Reader} {next : ReadToken} {rest : List ReadToken} (own : Bool)
    (node : NodeAt text r s frames lo bound effort) (tokens : r.tokens = next :: rest)
    (kind : next.token = if own then .flowSequenceStart else .blockSequenceStart)
    (state : after.state = if own then .flowSequenceFirstEntry else .blockSequenceFirstEntry)
    (stack : after.stack = r.stack) (same : after.tokens = r.tokens) :
    Emits text frames lo bound effort ⟨next.mark, .sequenceStart⟩ after := by
  obtain ⟨stacked, ahead, level, under, less⟩ := node
  rw [tokens] at ahead
  obtain ⟨hi, fit, ahead'⟩ := ahead.solid (by cases own <;> simp [kind, Token.isRead])
  have behind := fit.behind
  have shown := fit.shown
  refine ⟨by simp, ?_, fun events ready => ?_⟩
  · simp only [Reader.backlog, ← same, ← stack] at less
    simp only [Reader.effort, Reader.backlog, state]
    cases own <;> simpa [State.weight] using less
  · refine .sequence hi none own (by simp only; omega) fit.room ahead'.inside
      (fun b given => (under b given).mark_le fit) (fun bracket => .inl ?_) (ready _ _ _ ?_)
    · cases own with
      | true => exact ⟨rfl, by simp only [kind, Token.shownEnd, if_true] at shown ⊢; omega⟩
      | false => exact absurd (fit.sequence (by simp [kind])) (by simp [bracket])
    · exact .firstItem state (same.trans tokens) (stack ▸ stacked) ahead' (Nat.le_refl _)

/-- A mapping that begins with a token of its own, which is still to be read. -/
theorem emits_mapping {after : Reader} {next : ReadToken} {rest : List ReadToken} (own : Bool)
    (node : NodeAt text r s frames lo bound effort) (tokens : r.tokens = next :: rest)
    (kind : next.token = if own then .flowMappingStart else .blockMappingStart)
    (state : after.state = if own then .flowMappingFirstKey else .blockMappingFirstKey)
    (stack : after.stack = r.stack) (same : after.tokens = r.tokens) :
    Emits text frames lo bound effort ⟨next.mark, .mappingStart⟩ after := by
  have whole := node
  obtain ⟨stacked, ahead, level, under, less⟩ := node
  rw [tokens] at ahead
  obtain ⟨t, takes, ahead'⟩ := ahead.next
  generalize found : next.token = token at takes
  rw [found] at kind
  cases takes with
  | @solid _ hi fit =>
      have behind := fit.behind
      have shown := fit.shown
      refine ⟨by simp, ?_, fun events ready => ?_⟩
      · simp only [Reader.backlog, ← same, ← stack] at less
        simp only [Reader.effort, Reader.backlog, state]
        cases own <;> simpa [State.weight] using less
      · refine .mapping hi own (by simp only; omega) fit.room ahead'.inside
          (fun b given => (under b given).mark_le fit) (fun brace => ?_) (ready _ _ _ ?_)
        · cases own with
          | true => exact ⟨rfl, by simp only [kind, Token.shownEnd, if_true] at shown ⊢; omega⟩
          | false => exact absurd (fit.mapping (by simp [kind])) (by simp [brace])
        · exact .firstKey state (same.trans tokens) (stack ▸ stacked) ahead' (Nat.le_refl _)
            (by simp)
  | loose fit => exact emits_loose whole fit ahead' state stack (same.trans tokens) same
  | implicitEnd => cases own <;> cases kind

/-- A sequence that begins with a dash, no further in than the key before it. -/
theorem emits_indentless {after : Reader} {next : ReadToken} {rest : List ReadToken}
    (node : NodeAt text r s frames lo bound effort) (tokens : r.tokens = next :: rest)
    (kind : next.token = .blockEntry) (state : after.state = .indentlessSequenceEntry)
    (stack : after.stack = r.stack) (same : after.tokens = r.tokens) :
    Emits text frames lo bound effort ⟨next.mark, .sequenceStart⟩ after := by
  obtain ⟨stacked, ahead, level, under, less⟩ := node
  have ahead' := ahead
  rw [tokens] at ahead
  obtain ⟨hi, fit, _⟩ := ahead.solid (by simp [kind, Token.isRead])
  have behind := fit.behind
  refine ⟨by simp, ?_, fun events ready => ?_⟩
  · simp only [Reader.backlog, ← same, ← stack] at less
    simp only [Reader.effort, Reader.backlog, state, same, tokens]
    simpa [State.weight, kind, same, tokens] using less
  · refine .sequence (next.mark.offsetIn text) _ false (by simp only; omega) (Nat.le_refl _)
      (next.mark.offsetIn_le text) (fun b given => (under b given).mark_le fit)
      (fun bracket => .inr ?_)
      (ready _ _ _ (.dash state (same.trans tokens) kind (stack ▸ stacked) (same ▸ ahead')))
    exact if_pos bracket

theorem yields_content {block indentless decorated : Bool}
    (node : NodeAt text r s frames lo bound effort)
    (flow : block = false → ∀ state ∈ r.stack.head?, state.followsInFlow = true)
    (read : decorated = true → s.touch = false ∧ r.backlog + 8 < effort) :
    Yields (content block indentless decorated) r (Emits text frames lo bound effort) := by
  refine .bind (.peek fun next rest tokens => ?_)
  split
  · rename_i style value kind
    exact .bind (.leave (.bind (.advance tokens (.pure
      (emits_scalar node tokens kind rfl rfl rfl)))))
  · rename_i kind
    exact .bind (.goTo (.pure (emits_sequence true node tokens kind rfl rfl rfl)))
  · rename_i kind
    exact .bind (.goTo (.pure (emits_mapping true node tokens kind rfl rfl rfl)))
  · rename_i noScalar noSequence noMapping
    split
    · rename_i entry
      simp only [Bool.and_eq_true, decide_eq_true_eq] at entry
      exact .bind (.goTo (.pure (emits_indentless node tokens entry.1 rfl rfl rfl)))
    · split
      · rename_i start
        simp only [Bool.and_eq_true, decide_eq_true_eq] at start
        exact .bind (.goTo (.pure (emits_sequence false node tokens start.1 rfl rfl rfl)))
      · split
        · rename_i start
          simp only [Bool.and_eq_true, decide_eq_true_eq] at start
          exact .bind (.goTo (.pure (emits_mapping false node tokens start.1 rfl rfl rfl)))
        · rename_i noBlock
          split
          · rename_i kept
            obtain ⟨stacked, ahead, level, under, less⟩ := node
            obtain ⟨apart, less⟩ := read kept
            obtain ⟨top, states, stack⟩ := stacked.exists_cons
            rw [tokens] at ahead
            refine .bind (.leave (.pure ?_))
            refine emits_empty ?_ tokens ahead level (fun b given => ?_) noMapping ?_
              (Nat.lt_of_le_of_lt (effort_returned stacked rfl rfl) ?_)
            · simpa [stack] using stacked
            · -- Behind a property only a cap bounds the next token.
              obtain ⟨t, takes, _⟩ := ahead.next
              rcases under b given with ⟨touch, _⟩ | ⟨c, cap, le⟩
              · rw [apart] at touch
                cases touch
              · exact Nat.le_trans (takes.capped c cap) le
            · intro loose
              have inline : block = false := by simpa [loose] using noBlock
              simpa [stack] using flow inline top (by simp [stack])
            · simp only [Reader.backlog] at less ⊢
              omega
          · exact .refuse

/-- What has been read of an anchor or a tag keeps the bounds of the node behind it. -/
structure Passed (s t : Room) : Prop where
  lo_le : s.lo ≤ t.lo
  under : ∀ b, s.Under b → t.Under b
  apart : t.touch = false

theorem Passed.trans {t u : Room} (first : Passed s t) (second : Passed t u) : Passed s u where
  lo_le := Nat.le_trans first.lo_le second.lo_le
  under b under := second.under b (first.under b under)
  apart := second.apart

theorem passed_property {next : ReadToken} {rest : List ReadToken}
    (ahead : Ahead text s (next :: rest)) (property : next.token.isProperty = true) :
    ∃ t, Ahead text t rest ∧ Passed s t := by
  have read : next.token.isRead = true := by
    cases kind : next.token <;> simp_all [Token.isProperty, Token.isRead]
  obtain ⟨hi, fit, ahead⟩ := ahead.solid read
  refine ⟨_, ahead, Nat.le_trans fit.behind fit.room, fun b under => under.property fit property, ?_⟩
  cases kind : next.token <;> simp_all [Token.isProperty, Room.after, Room.touches]

/-- Reading properties leaves the states alone. -/
theorem yields_properties (ahead : Ahead text s r.tokens) :
    Yields properties r fun decorated after => after.stack = r.stack ∧
      (decorated = false → after.tokens = r.tokens) ∧
      (decorated = true → after.tokens.length < r.tokens.length ∧
        ∃ t, Ahead text t after.tokens ∧ Passed s t) := by
  refine .bind (.peek fun first rest tokens => ?_)
  rw [tokens] at ahead ⊢
  split
  · rename_i name kind
    obtain ⟨t, ahead, passed⟩ := passed_property ahead (by simp [kind, Token.isProperty])
    refine .bind (.advance rfl (.bind (.declareAnchor (.bind (.peek fun second rest' left => ?_)))))
    obtain rfl : rest = second :: rest' := left
    split
    · rename_i handle kind
      obtain ⟨u, ahead, passed'⟩ := passed_property ahead (by simp [kind, Token.isProperty])
      refine .bind (.advance rfl (.bind (.checkHandle (.pure ⟨rfl, by simp, fun _ => ?_⟩))))
      exact ⟨by simp only [List.length_cons]; omega, u, ahead, passed.trans passed'⟩
    · exact .bind (.pure (.pure ⟨rfl, by simp, fun _ => ⟨by simp, t, ahead, passed⟩⟩))
  · rename_i handle kind
    obtain ⟨t, ahead, passed⟩ := passed_property ahead (by simp [kind, Token.isProperty])
    refine .bind (.advance rfl (.bind (.checkHandle (.bind (.peek fun second rest' left => ?_)))))
    obtain rfl : rest = second :: rest' := left
    split
    · rename_i name kind
      obtain ⟨u, ahead, passed'⟩ := passed_property ahead (by simp [kind, Token.isProperty])
      refine .bind (.advance rfl (.bind (.declareAnchor (.pure ⟨rfl, by simp, fun _ => ?_⟩))))
      exact ⟨by simp only [List.length_cons]; omega, u, ahead, passed.trans passed'⟩
    · exact .bind (.pure (.pure ⟨rfl, by simp, fun _ => ⟨by simp, t, ahead, passed⟩⟩))
  · exact .pure ⟨rfl, fun _ => rfl, by simp⟩

theorem yields_node {block indentless : Bool} (node : NodeAt text r s frames lo bound effort)
    (flow : block = false → ∀ state ∈ r.stack.head?, state.followsInFlow = true) :
    Yields (Grammar.node block indentless) r (Emits text frames lo bound effort) := by
  refine .bind (.peek fun first rest tokens => ?_)
  split
  · rename_i name kind
    refine .bind (.leave (.bind (.advance tokens (.bind (.reading ?_)))))
    split
    · exact .pure (emits_reference node tokens kind rfl rfl rfl)
    · exact .refuse
  · refine .bind fun decorated after run => ?_
    have ahead : Ahead text s { r with reached := first.reached }.tokens := node.ahead
    obtain ⟨stack, plain, kept⟩ := yields_properties ahead decorated after run
    simp only at stack plain kept
    cases decorated with
    | false =>
        have same := plain rfl
        refine yields_content ⟨stack ▸ node.stacked, same ▸ node.ahead, node.level, node.under, ?_⟩
          (by simpa [stack] using flow) (by simp)
        simpa [Reader.backlog, stack, same] using node.less
    | true =>
        obtain ⟨shorter, t, ahead, passed⟩ := kept rfl
        have less := node.less
        simp only [Reader.backlog] at less
        refine yields_content ⟨stack ▸ node.stacked, ahead, Nat.le_trans node.level passed.lo_le,
          fun b given => passed.under b (node.under b given), ?_⟩ (by simpa [stack] using flow)
          fun _ => ⟨passed.apart, ?_⟩
        · simp only [Reader.backlog, stack]
          omega
        · simp only [Reader.backlog, stack]
          omega

/-- A node after which a state is entered. -/
theorem yields_nodeThen {state : State} {block indentless : Bool}
    (stacked : Stacked (state :: r.stack) (Frame.afterNode frames)) (ahead : Ahead text s r.tokens)
    (level : lo ≤ s.lo) (under : ∀ b ∈ bound, s.Under b) (less : r.backlog + 2 < effort)
    (flow : block = false → state.followsInFlow = true) :
    Yields (nodeThen state block indentless) r (Emits text frames lo bound effort) := by
  refine .bind (.returnTo (yields_node ⟨stacked, ahead, level, under, ?_⟩ fun inline => ?_))
  · simp only [Reader.backlog, List.length_cons] at less ⊢
    omega
  · simpa using flow inline

/-! ## Ends and missing values -/

/-- The next event may stand from `lo` on, in a block or where nothing is refused. -/
def Near (s : Room) (lo : Nat) : Prop :=
  lo ≤ s.lo ∨ (s.closing = true ∧ lo ≤ s.lo + 1)

theorem Level.near (level : Level r s lo) (block : r.state.followsInFlow = false) : Near s lo := by
  rcases level with behind | closing | ⟨flow, _⟩
  · exact .inl behind
  · exact .inr closing
  · rw [block] at flow
    cases flow

/-- A token that is read from the text lies behind. -/
theorem Near.le_after {token : Token} {mark hi : Nat} (near : Near s lo)
    (fit : Solid text s mark token hi) : lo ≤ hi := by
  have behind := fit.behind
  have room := fit.room
  rcases near with near | ⟨closing, near⟩
  · omega
  · have ends := fit.closing closing
    have shown := fit.shown
    cases token <;> simp_all [Token.closes, Token.shownEnd]
    all_goals omega

theorem Near.le_of_takes {token : Token} {mark : Nat} {t : Room} (near : Near s lo)
    (takes : Takes text s mark token t) (running : token.closes = false) : lo ≤ s.lo := by
  rcases near with near | ⟨closing, _⟩
  · exact near
  · cases takes with
    | solid fit =>
        rw [fit.closing closing] at running
        cases running
    | loose fit =>
        rw [fit.closing] at closing
        cases closing
    | implicitEnd => cases running

theorem Near.le_mark {mark : Nat} {token : Token} {t : Room} (near : Near s lo)
    (takes : Takes text s mark token t) : lo ≤ mark + 1 := by
  have behind := takes.behind
  rcases near with near | ⟨_, near⟩ <;> omega

theorem emits_missing {own : Bool} {mark : Mark} {after : Reader}
    (stacked : Stacked (after.state :: after.stack) (.key own :: outer))
    (ahead : Ahead text s after.tokens) (level : Level after s lo) (inside : lo ≤ text.length)
    (less : after.effort < effort) :
    Emits text (.value own :: outer) lo bound effort ⟨mark, .empty⟩ after :=
  ⟨by simp [Event.empty], less, fun _ ready => .missing (ready _ _ _ (.entry stacked ahead level
    inside))⟩

theorem emits_sequenceEnd {own : Bool} {mark : Mark} {after : Reader} {t : Room} {hi : Nat}
    {states : List State} (stacked : Stacked states outer)
    (state : after.state = states.headD .streamEnd) (stack : after.stack = states.tail)
    (ahead : Ahead text t after.tokens) (behind : lo ≤ hi) (inside : hi ≤ text.length)
    (closing : own = true → lo ≤ mark.offsetIn text + 1 ∧ mark.offsetIn text + 1 ≤ hi)
    (level : Level after t hi)
    (less : 8 * after.tokens.length + 2 * states.length < effort) :
    Emits text (.item own :: outer) lo none effort ⟨mark, .sequenceEnd⟩ after :=
  ⟨by simp, Nat.lt_of_le_of_lt (effort_returned stacked state stack) less, fun _ ready => .sequenceEnd hi behind inside closing
    (ready _ _ _ (.returned stacked state stack ahead level inside))⟩

theorem emits_mappingEnd {own : Bool} {mark : Mark} {after : Reader} {t : Room} {hi : Nat}
    {states : List State} (stacked : Stacked states outer)
    (state : after.state = states.headD .streamEnd) (stack : after.stack = states.tail)
    (ahead : Ahead text t after.tokens) (behind : lo ≤ hi) (inside : hi ≤ text.length)
    (closing : own = true → lo ≤ mark.offsetIn text + 1 ∧ mark.offsetIn text + 1 ≤ hi)
    (level : Level after t hi)
    (less : 8 * after.tokens.length + 2 * states.length < effort) :
    Emits text (.key own :: outer) lo none effort ⟨mark, .mappingEnd⟩ after :=
  ⟨by simp, Nat.lt_of_le_of_lt (effort_returned stacked state stack) less, fun _ ready => .mappingEnd hi behind inside closing
    (ready _ _ _ (.returned stacked state stack ahead level inside))⟩
end WorkflowScope.Yaml.Grammar
