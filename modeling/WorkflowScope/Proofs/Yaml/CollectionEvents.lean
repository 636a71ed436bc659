import WorkflowScope.Proofs.Yaml.NodeEvents

/-!
# Events of collections

One lemma for each state of the grammar: the next event continues the chain of events, whether it is
an item, a key, a value or the end of the collection.
-/

namespace WorkflowScope.Yaml.Grammar

open Composer (opensAt)

variable {text : List Char} {r : Reader} {s : Room} {frames outer : List Frame} {lo effort : Nat}
  {bound : Option Nat}

/-! ## Block collections -/

/-- An empty key or item at the next token, after a token has been read. -/
theorem yields_emptyThen {state : State} {next : ReadToken} {rest : List ReadToken}
    (stacked : Stacked (state :: r.stack) (Frame.afterNode frames)) (tokens : r.tokens = next :: rest)
    (ahead : Ahead text s r.tokens) (level : lo ≤ s.lo) (under : ∀ b ∈ bound, s.Under b)
    (block : next.token ≠ .blockMappingStart) (start : next.token ≠ .flowMappingStart)
    (less : r.backlog + 3 < effort) :
    Yields (emptyThen state next.mark) r (Emits text frames lo bound effort) := by
  rw [tokens] at ahead
  obtain ⟨t, takes, _⟩ := ahead.next
  refine .emptyThen (emits_empty stacked tokens ahead level
    (fun b given => (under b given).le_of_takes takes block start) start (fun loose => absurd loose block)
    (Nat.lt_of_le_of_lt (Reader.effort_le _) less))

theorem yields_blockSequenceEntry (stacked : Stacked r.stack outer) (ahead : Ahead text s r.tokens)
    (near : Near s lo) (less : r.backlog ≤ effort) :
    Yields blockSequenceEntry r (Emits text (.item false :: outer) lo none effort) := by
  refine .bind (.peek fun next rest tokens => ?_)
  rw [tokens] at ahead
  simp only [Reader.backlog, tokens, List.length_cons] at less
  split
  · rename_i kind
    obtain ⟨hi, fit, ahead⟩ := ahead.solid (by simp [kind, Token.isRead])
    exact .close tokens (emits_sequenceEnd stacked rfl rfl ahead (near.le_after fit) ahead.inside
      (by simp) (.inl (Nat.le_refl _)) (by simp only; omega))
  · rename_i kind
    obtain ⟨hi, fit, ahead⟩ := ahead.solid (by simp [kind, Token.isRead])
    have behind := near.le_after fit
    have entered : Stacked (.blockSequenceEntry :: r.stack) (Frame.afterNode (.item false :: outer)) :=
      .blockSequence stacked
    refine .bind (.advance tokens (.bind (.peek fun entry rest' left => ?_)))
    split
    · rename_i kind
      exact yields_emptyThen entered left ahead behind (by simp) (by simp [kind]) (by simp [kind])
        (by simp only [Reader.backlog]; omega)
    · rename_i kind
      exact yields_emptyThen entered left ahead behind (by simp) (by simp [kind]) (by simp [kind])
        (by simp only [Reader.backlog]; omega)
    · exact yields_nodeThen entered ahead behind (by simp) (by simp only [Reader.backlog]; omega)
        (by simp)
  · exact .refuse

/-- What follows a dash no further in than the key before it. -/
theorem yields_indentlessEntry (stacked : Stacked r.stack outer) (ahead : Ahead text s r.tokens)
    (level : lo ≤ s.lo) (under : ∀ b ∈ bound, s.Under b) (less : r.backlog + 8 ≤ effort) :
    Yields (do
      let entry ← peek
      match entry.token with
      | .blockEntry | .key | .value | .blockEnd => emptyThen .indentlessSequenceEntry entry.mark
      | _ => nodeThen .indentlessSequenceEntry true false) r
      (Emits text (.item false :: outer) lo bound effort) := by
  have entered :
      Stacked (.indentlessSequenceEntry :: r.stack) (Frame.afterNode (.item false :: outer)) :=
    .indentlessSequence stacked
  have room : r.backlog + 3 < effort := by omega
  refine .bind (.peek fun entry rest tokens => ?_)
  split
  · rename_i kind
    exact yields_emptyThen entered tokens ahead level under (by simp [kind]) (by simp [kind]) room
  · rename_i kind
    exact yields_emptyThen entered tokens ahead level under (by simp [kind]) (by simp [kind]) room
  · rename_i kind
    exact yields_emptyThen entered tokens ahead level under (by simp [kind]) (by simp [kind]) room
  · rename_i kind
    exact yields_emptyThen entered tokens ahead level under (by simp [kind]) (by simp [kind]) room
  · exact yields_nodeThen entered ahead level under (by simp only [Reader.backlog] at less ⊢; omega)
      (by simp)

theorem yields_indentlessSequenceEntry (stacked : Stacked r.stack outer)
    (ahead : Ahead text s r.tokens) (near : Near s lo) (inside : lo ≤ text.length)
    (state : r.state = .indentlessSequenceEntry) (less : r.effort ≤ effort) :
    Yields indentlessSequenceEntry r (Emits text (.item false :: outer) lo none effort) := by
  refine .bind (.peek fun next rest tokens => ?_)
  simp only [Reader.effort, Reader.backlog, state, tokens, List.length_cons] at less
  split
  · rename_i kind
    rw [tokens] at ahead
    obtain ⟨hi, fit, ahead⟩ := ahead.solid (by simp [kind, Token.isRead])
    exact .bind (.advance tokens (yields_indentlessEntry stacked ahead (near.le_after fit)
      (by simp) (by simp only [Reader.backlog]; omega)))
  · rename_i other
    refine .bind (.leave (.pure (emits_sequenceEnd stacked rfl rfl ahead (Nat.le_refl _) inside
      (by simp) ?_ ?_)))
    · exact near.imp_right .inl
    · simp only [State.weight, List.head?_cons, Option.map_some, Option.some.injEq,
        if_neg other] at less
      simp only [tokens, List.length_cons]
      omega

/-- The first dash stands at the mark of its sequence, which bounds the first item. -/
theorem yields_firstDash {next : ReadToken} {rest : List ReadToken} (stacked : Stacked r.stack outer)
    (ahead : Ahead text s r.tokens) (tokens : r.tokens = next :: rest)
    (kind : next.token = .blockEntry) (less : r.backlog ≤ effort) :
    Yields indentlessSequenceEntry r (Emits text (.item false :: outer) (next.mark.offsetIn text)
      (if opensAt text (next.mark.offsetIn text) '[' then some (next.mark.offsetIn text) else none)
      effort) := by
  simp only [Reader.backlog, tokens, List.length_cons] at less
  refine .bind (.peek fun next' rest' tokens' => ?_)
  obtain ⟨rfl, rfl⟩ : next = next' ∧ rest = rest' := by simpa [tokens] using tokens'
  rw [tokens] at ahead
  obtain ⟨hi, fit, ahead⟩ := ahead.solid (by simp [kind, Token.isRead])
  split
  · refine .bind (.advance tokens (yields_indentlessEntry stacked ahead fit.room ?_
      (by simp only [Reader.backlog]; omega)))
    intro b given
    split at given
    · rename_i bracket
      cases given
      have touches : s.touches text (next.mark.offsetIn text) next.token = true := by
        simpa [Room.touches, kind] using bracket
      refine .inl ⟨touches, ?_⟩
      exact Nat.le_of_eq (fit.next touches)
    · cases given
  · rename_i other
    exact absurd kind other

/-- A key or a value of a block mapping, after its indicator has been read. -/
theorem yields_blockMappingNode {state : State}
    (stacked : Stacked (state :: r.stack) (Frame.afterNode frames)) (ahead : Ahead text s r.tokens)
    (level : lo ≤ s.lo) (under : ∀ b ∈ bound, s.Under b) (less : r.backlog + 8 ≤ effort) :
    Yields (blockMappingNode state) r (Emits text frames lo bound effort) := by
  have room : r.backlog + 3 < effort := by omega
  refine .bind (.peek fun next rest tokens => ?_)
  split
  · rename_i kind
    exact yields_emptyThen stacked tokens ahead level under (by simp [kind]) (by simp [kind]) room
  · rename_i kind
    exact yields_emptyThen stacked tokens ahead level under (by simp [kind]) (by simp [kind]) room
  · rename_i kind
    exact yields_emptyThen stacked tokens ahead level under (by simp [kind]) (by simp [kind]) room
  · exact yields_nodeThen stacked ahead level under (by simp only [Reader.backlog] at less ⊢; omega)
      (by simp)

/-- A bound that is still in force is one for the next key. -/
theorem yields_blockMappingKey (stacked : Stacked r.stack outer) (ahead : Ahead text s r.tokens)
    (near : Near s lo) (under : ∀ b ∈ bound, s.Under b ∧ s.fresh = true)
    (less : r.backlog + State.weight (r.tokens.head?.map (·.token)) .blockMappingKey ≤ effort) :
    Yields blockMappingKey r (Emits text (.key false :: outer) lo bound effort) := by
  refine .bind (.peek fun next rest tokens => ?_)
  simp only [Reader.backlog, tokens, List.length_cons] at less
  have ahead' := ahead
  rw [tokens] at ahead
  split
  · rename_i kind
    obtain ⟨hi, fit, ahead⟩ := ahead.solid (by simp [kind, Token.isRead])
    rw [kind] at fit ahead
    exact .bind (.advance tokens (yields_blockMappingNode (.blockValue stacked) ahead
      (near.le_after fit) (fun b given => (under b given).1.key fit)
      (by simp only [Reader.backlog]; omega)))
  · rename_i kind
    obtain ⟨t, takes, _⟩ := ahead.next
    have level := near.le_of_takes takes (by simp [kind, Token.closes])
    refine .emptyThen (emits_empty (.blockValue stacked) tokens ahead level
      (fun b given => (under b given).1.le_of_takes takes (by simp [kind]) (by simp [kind]))
      (by simp [kind]) (by simp [kind]) ?_)
    simp [Reader.effort, Reader.backlog, State.weight, tokens, kind] at less ⊢
    omega
  · rename_i kind
    obtain ⟨hi, fit, ahead⟩ := ahead.solid (by simp [kind, Token.isRead])
    cases bound with
    | none =>
        exact .close tokens (emits_mappingEnd stacked rfl rfl ahead (near.le_after fit) ahead.inside
          (by simp) (.inl (Nat.le_refl _)) (by simp only; omega))
    | some b =>
        have due := fit.due (under b rfl).2
        simp [kind] at due
  · exact .refuse

theorem yields_blockMappingValue (stacked : Stacked r.stack outer) (ahead : Ahead text s r.tokens)
    (near : Near s lo) (inside : lo ≤ text.length) (state : r.state = .blockMappingValue)
    (less : r.effort ≤ effort) :
    Yields blockMappingValue r (Emits text (.value false :: outer) lo none effort) := by
  refine .bind (.peek fun next rest tokens => ?_)
  simp only [Reader.effort, Reader.backlog, state, tokens, List.length_cons] at less
  split
  · rename_i kind
    rw [tokens] at ahead
    obtain ⟨hi, fit, ahead⟩ := ahead.solid (by simp [kind, Token.isRead])
    exact .bind (.advance tokens (yields_blockMappingNode (.blockKey stacked) ahead
      (near.le_after fit) (by simp) (by simp only [Reader.backlog]; omega)))
  · rename_i other
    refine .emptyThen (emits_missing (.blockKey stacked) ahead (near.imp_right .inl) inside ?_)
    simp [Reader.effort, Reader.backlog, State.weight, tokens, if_neg other] at less ⊢
    omega

/-! ## Flow collections -/

theorem Level.near_of_next {next : ReadToken} {rest : List ReadToken} (level : Level r s lo)
    (tokens : r.tokens = next :: rest) (other : next.token ≠ .blockMappingStart) : Near s lo := by
  rcases level with behind | closing | ⟨_, token, rest', tokens', kind⟩
  · exact .inl behind
  · exact .inr closing
  · obtain ⟨rfl, rfl⟩ : next = token ∧ rest = rest' := by simpa [tokens] using tokens'
    exact absurd kind other

theorem Level.moved {after : Reader} (level : Level r s lo) (tokens : after.tokens = r.tokens)
    (flow : after.state.followsInFlow = true) : Level after s lo := by
  rcases level with behind | closing | ⟨_, stuck⟩
  · exact .inl behind
  · exact .inr (.inl closing)
  · exact .inr (.inr ⟨flow, tokens ▸ stuck⟩)

theorem yields_closeSequence {next : ReadToken} {rest : List ReadToken}
    (stacked : Stacked r.stack outer) (ahead : Ahead text s r.tokens) (near : Near s lo)
    (tokens : r.tokens = next :: rest) (kind : next.token = .flowSequenceEnd)
    (less : r.backlog ≤ effort) :
    Yields (close .sequenceEnd next.mark) r (Emits text (.item true :: outer) lo none effort) := by
  rw [tokens] at ahead
  simp only [Reader.backlog, tokens, List.length_cons] at less
  obtain ⟨hi, fit, ahead⟩ := ahead.solid (by simp [kind, Token.isRead])
  have shown := fit.shown
  rw [kind] at shown
  exact .close tokens (emits_sequenceEnd stacked rfl rfl ahead (near.le_after fit) ahead.inside
    (fun _ => ⟨near.le_mark (.solid fit), shown⟩) (.inl (Nat.le_refl _)) (by simp only; omega))

/-- A pair in a flow sequence begins at its key. -/
theorem emits_pair {after : Reader} {next : ReadToken} {rest : List ReadToken}
    (stacked : Stacked r.stack outer) (ahead : Ahead text s r.tokens) (level : lo ≤ s.lo)
    (tokens : r.tokens = next :: rest) (kind : next.token = .key)
    (state : after.state = .flowPairKey) (stack : after.stack = r.stack)
    (left : after.tokens = rest) (less : r.backlog ≤ effort) :
    Emits text (.item true :: outer) lo none effort ⟨next.mark, .mappingStart⟩ after := by
  rw [tokens] at ahead
  obtain ⟨hi, fit, ahead⟩ := ahead.solid (by simp [kind, Token.isRead])
  rw [kind] at fit ahead
  have behind := fit.behind
  refine ⟨by simp, ?_, fun events ready => ?_⟩
  · simp only [Reader.backlog, tokens, List.length_cons] at less
    simp only [Reader.effort, Reader.backlog, state, stack, left, State.weight]
    omega
  · by_cases brace : opensAt text (next.mark.offsetIn text) '\x7b' = true
    · have touches : s.touches text (next.mark.offsetIn text) .key = true := by
        simp [Room.touches, brace]
      have same := fit.next touches
      refine .loose hi (next.mark.offsetIn text) false (by omega) ahead.inside (Nat.le_refl _)
        (by simp only; omega) (by simp) (by simp) (ready _ _ _ ?_)
      refine .pairKey state (stack ▸ stacked) (left ▸ ahead) (Nat.le_refl hi) ?_
      rintro b ⟨⟩
      exact .inl ⟨touches, Nat.le_of_eq same⟩
    · refine .mapping hi false (by simp only; omega) fit.room ahead.inside (by simp)
        (fun opens => absurd opens brace) (ready _ _ _ ?_)
      exact .pairKey state (stack ▸ stacked) (left ▸ ahead) (Nat.le_refl _) (by simp)

theorem yields_flowSequenceItem (stacked : Stacked r.stack outer) (ahead : Ahead text s r.tokens)
    (level : lo ≤ s.lo) (less : r.backlog + 8 ≤ effort) :
    Yields flowSequenceItem r (Emits text (.item true :: outer) lo none effort) := by
  refine .bind (.peek fun next rest tokens => ?_)
  split
  · rename_i kind
    exact yields_closeSequence stacked ahead (.inl level) tokens kind
      (by simp only [Reader.backlog] at less ⊢; omega)
  · rename_i kind
    exact .bind (.goTo (.bind (.advance tokens (.pure (emits_pair stacked ahead level tokens kind rfl
      rfl rfl (by omega))))))
  · exact yields_nodeThen (.flowSequence stacked) ahead level (by simp)
      (by simp only [Reader.backlog] at less ⊢; omega) (by simp [State.followsInFlow])

theorem yields_flowSequenceEntry (stacked : Stacked r.stack outer) (ahead : Ahead text s r.tokens)
    (level : Level r s lo) (less : r.backlog ≤ effort) :
    Yields flowSequenceEntry r (Emits text (.item true :: outer) lo none effort) := by
  refine .bind (.peek fun next rest tokens => ?_)
  split
  · rename_i kind
    exact yields_closeSequence stacked ahead (level.near_of_next tokens (by simp [kind])) tokens kind
      (by simpa only [Reader.backlog] using less)
  · rename_i kind
    have near := level.near_of_next tokens (by simp [kind])
    rw [tokens] at ahead
    obtain ⟨hi, fit, ahead⟩ := ahead.solid (by simp [kind, Token.isRead])
    simp only [Reader.backlog, tokens, List.length_cons] at less
    exact .bind (.advance tokens (yields_flowSequenceItem stacked ahead (near.le_after fit)
      (by simp only [Reader.backlog]; omega)))
  · exact .refuse

/-- A token in the place of a key is read, but does not make one. -/
theorem yields_skippedKey {next : ReadToken} {rest : List ReadToken} (stacked : Stacked r.stack outer)
    (ahead : Ahead text s r.tokens) (level : lo ≤ s.lo) (under : ∀ b ∈ bound, s.Under b)
    (tokens : r.tokens = next :: rest) (read : next.token.isRead = true)
    (less : r.backlog ≤ effort) :
    Yields (do advance; emptyThen .flowPairValue next.mark) r
      (Emits text (.key false :: .item true :: outer) lo bound effort) := by
  rw [tokens] at ahead
  obtain ⟨hi, fit, ahead⟩ := ahead.solid read
  have behind := fit.behind
  simp only [Reader.backlog, tokens, List.length_cons] at less
  refine .bind (.advance tokens (.emptyThen ⟨by simp [Event.empty], ?_, fun events ready => ?_⟩))
  · simp only [Reader.effort, Reader.backlog, State.weight]
    omega
  · refine .scalar hi (by simp only; omega) fit.room (by simpa [Extent.shownEnd] using fit.room)
      ahead.inside (fun b given => (under b given).mark_le fit) (ready _ _ _ ?_)
    exact .entry (.pairValue stacked) ahead (.inl (Nat.le_refl _)) ahead.inside

theorem yields_flowPairKey (stacked : Stacked r.stack outer) (ahead : Ahead text s r.tokens)
    (level : lo ≤ s.lo) (under : ∀ b ∈ bound, s.Under b) (less : r.backlog + 3 ≤ effort) :
    Yields flowPairKey r (Emits text (.key false :: .item true :: outer) lo bound effort) := by
  have room : r.backlog ≤ effort := by omega
  refine .bind (.peek fun next rest tokens => ?_)
  split
  · rename_i kind
    exact yields_skippedKey stacked ahead level under tokens (by simp [kind, Token.isRead]) room
  · rename_i kind
    exact yields_skippedKey stacked ahead level under tokens (by simp [kind, Token.isRead]) room
  · rename_i kind
    exact yields_skippedKey stacked ahead level under tokens (by simp [kind, Token.isRead]) room
  · exact yields_nodeThen (.pairValue stacked) ahead level under
      (by simp only [Reader.backlog] at less ⊢; omega) (by simp [State.followsInFlow])

/-- A missing value in a flow collection, after which a state is entered. -/
theorem yields_missing {state : State} {mark : Mark} {own : Bool}
    (stacked : Stacked (state :: r.stack) (.key own :: outer)) (ahead : Ahead text s r.tokens)
    (level : Level r s lo) (inside : lo ≤ text.length) (flow : state.followsInFlow = true)
    (less : r.backlog + State.weight (r.tokens.head?.map (·.token)) state < effort) :
    Yields (emptyThen state mark) r (Emits text (.value own :: outer) lo bound effort) :=
  .emptyThen (emits_missing stacked ahead (level.moved rfl flow) inside less)

theorem yields_flowPairValue (stacked : Stacked r.stack outer) (ahead : Ahead text s r.tokens)
    (level : Level r s lo) (inside : lo ≤ text.length) (less : r.backlog + 2 ≤ effort) :
    Yields flowPairValue r (Emits text (.value false :: .item true :: outer) lo none effort) := by
  refine .bind (.peek fun next rest tokens => ?_)
  split
  · rename_i kind
    have near := level.near_of_next tokens (by simp [kind])
    rw [tokens] at ahead
    obtain ⟨hi, fit, ahead⟩ := ahead.solid (by simp [kind, Token.isRead])
    have behind := near.le_after fit
    simp only [Reader.backlog, tokens, List.length_cons] at less
    refine .bind (.advance tokens (.bind (.peek fun value rest' left => ?_)))
    split
    · exact yields_missing (.pairEnd stacked) ahead (.inl behind) inside rfl
        (by simp only [Reader.backlog, State.weight]; omega)
    · exact yields_missing (.pairEnd stacked) ahead (.inl behind) inside rfl
        (by simp only [Reader.backlog, State.weight]; omega)
    · exact yields_nodeThen (.pairEnd stacked) ahead behind (by simp)
        (by simp only [Reader.backlog]; omega) (by simp [State.followsInFlow])
  · exact yields_missing (.pairEnd stacked) ahead level inside rfl
      (by simp only [Reader.backlog, State.weight] at less ⊢; omega)

theorem yields_flowPairEnd (stacked : Stacked r.stack outer) (ahead : Ahead text s r.tokens)
    (level : Level r s lo) (inside : lo ≤ text.length) (less : r.backlog + 1 ≤ effort) :
    Yields flowPairEnd r (Emits text (.key false :: .item true :: outer) lo none effort) := by
  refine .bind (.goTo (.bind (.reading (.pure ⟨by simp, ?_, fun events ready => ?_⟩))))
  · simp only [Reader.effort, Reader.backlog, State.weight] at less ⊢
    omega
  · refine .mappingEnd lo (Nat.le_refl _) inside (by simp) (ready _ _ _ ?_)
    exact .entry (.flowSequence stacked) ahead (level.moved rfl rfl) inside

/-- The end of a flow mapping stands at its token or at the comma before that. -/
theorem yields_closeMapping {next : ReadToken} {rest : List ReadToken} {before : Mark}
    (stacked : Stacked r.stack outer) (ahead : Ahead text s r.tokens) (near : Near s lo)
    (under : ∀ b ∈ bound, s.fresh = true) (tokens : r.tokens = next :: rest)
    (kind : next.token = .flowMappingEnd)
    (place : before = next.mark ∨
      (lo ≤ before.offsetIn text + 1 ∧ before.offsetIn text + 1 ≤ s.lo))
    (less : r.backlog ≤ effort) :
    Yields (close .mappingEnd before) r (Emits text (.key true :: outer) lo bound effort) := by
  rw [tokens] at ahead
  simp only [Reader.backlog, tokens, List.length_cons] at less
  obtain ⟨t, takes, ahead⟩ := ahead.next
  have marked := near.le_mark takes
  generalize found : next.token = token at takes
  cases takes with
  | @solid _ hi fit =>
      obtain rfl : bound = none := by
        cases bound with
        | none => rfl
        | some b =>
            have due := fit.due (under b rfl)
            simp [← found, kind] at due
      have shown := fit.shown
      have behind := fit.behind
      rw [← found, kind] at shown
      simp only [Token.shownEnd] at shown
      refine .close tokens (emits_mappingEnd stacked rfl rfl ahead (near.le_after fit) ahead.inside
        (fun _ => ?_) (.inl (Nat.le_refl _)) (by simp only; omega))
      rcases place with rfl | ⟨early, late⟩
      · exact ⟨marked, shown⟩
      · refine ⟨early, ?_⟩
        show before.offsetIn text + 1 ≤ hi
        omega
  | loose fit => rcases fit.start with ⟨start, _⟩ | ⟨start, _⟩ <;> simp [← found, kind] at start
  | @implicitEnd hi fit =>
      -- The token that ends the entry comes next, and a character further.
      obtain rfl : bound = none := by
        cases bound with
        | none => rfl
        | some b =>
            have due := fit.due
            rw [under b rfl] at due
            cases due
      have behind := fit.behind
      have room := fit.room
      have inside := fit.inside
      refine .close tokens (@emits_mappingEnd _ _ _ _ _ _ _ _ (next.mark.offsetIn text + 1) _ stacked
        rfl rfl ahead marked (by omega) (fun _ => ?_) (.inr (.inl ⟨rfl, by simp only; omega⟩))
        (by simp only; omega))
      rcases place with rfl | ⟨early, late⟩
      · exact ⟨marked, Nat.le_refl _⟩
      · exact ⟨early, by omega⟩

theorem yields_flowMappingItem {before : Mark} (stacked : Stacked r.stack outer)
    (ahead : Ahead text s r.tokens) (level : lo ≤ s.lo)
    (under : ∀ b ∈ bound, s.Under b ∧ s.fresh = true)
    (place : (∀ next rest, r.tokens = next :: rest → before = next.mark) ∨
      (lo ≤ before.offsetIn text + 1 ∧ before.offsetIn text + 1 ≤ s.lo))
    (less : r.backlog + 8 ≤ effort) :
    Yields (flowMappingItem before) r (Emits text (.key true :: outer) lo bound effort) := by
  have entered : Stacked (.flowMappingValue :: r.stack) (Frame.afterNode (.key true :: outer)) :=
    .flowValue stacked
  refine .bind (.peek fun next rest tokens => ?_)
  split
  · rename_i kind
    rw [tokens] at ahead
    obtain ⟨hi, fit, ahead⟩ := ahead.solid (by simp [kind, Token.isRead])
    rw [kind] at fit ahead
    have behind : lo ≤ hi := Near.le_after (.inl level) fit
    have under' : ∀ b ∈ bound, (s.after text (next.mark.offsetIn text) .key hi).Under b :=
      fun b given => (under b given).1.key fit
    simp only [Reader.backlog, tokens, List.length_cons] at less
    refine .bind (.advance tokens (.bind (.peek fun key rest' left => ?_)))
    split
    · rename_i kind
      exact yields_emptyThen entered left ahead behind under' (by simp [kind]) (by simp [kind])
        (by simp only [Reader.backlog]; omega)
    · rename_i kind
      exact yields_emptyThen entered left ahead behind under' (by simp [kind]) (by simp [kind])
        (by simp only [Reader.backlog]; omega)
    · rename_i kind
      exact yields_emptyThen entered left ahead behind under' (by simp [kind]) (by simp [kind])
        (by simp only [Reader.backlog]; omega)
    · exact yields_nodeThen entered ahead behind under' (by simp only [Reader.backlog]; omega)
        (by simp [State.followsInFlow])
  · rename_i kind
    exact yields_emptyThen entered tokens ahead level (fun b given => (under b given).1)
      (by simp [kind]) (by simp [kind]) (by simp only [Reader.backlog] at less ⊢; omega)
  · rename_i kind
    exact yields_closeMapping stacked ahead (.inl level) (fun b given => (under b given).2) tokens kind
      (place.imp_left fun same => same next rest tokens)
      (by simp only [Reader.backlog] at less ⊢; omega)
  · exact yields_nodeThen (.flowEmptyValue stacked) ahead level (fun b given => (under b given).1)
      (by simp only [Reader.backlog] at less ⊢; omega) (by simp [State.followsInFlow])

theorem yields_flowMappingKey (stacked : Stacked r.stack outer) (ahead : Ahead text s r.tokens)
    (level : Level r s lo) (less : r.backlog ≤ effort) :
    Yields flowMappingKey r (Emits text (.key true :: outer) lo none effort) := by
  refine .bind (.peek fun next rest tokens => ?_)
  split
  · rename_i kind
    exact yields_closeMapping stacked ahead (level.near_of_next tokens (by simp [kind])) (by simp)
      tokens kind (.inl rfl) (by simpa only [Reader.backlog] using less)
  · rename_i kind
    have near := level.near_of_next tokens (by simp [kind])
    rw [tokens] at ahead
    obtain ⟨hi, fit, ahead⟩ := ahead.solid (by simp [kind, Token.isRead])
    have shown := fit.shown
    rw [kind] at shown
    simp only [Reader.backlog, tokens, List.length_cons] at less
    exact .bind (.advance tokens (yields_flowMappingItem stacked ahead (near.le_after fit) (by simp)
      (.inr ⟨near.le_mark (.solid fit), shown⟩) (by simp only [Reader.backlog]; omega)))
  · exact .refuse

theorem yields_flowMappingValue (stacked : Stacked r.stack outer) (ahead : Ahead text s r.tokens)
    (level : Level r s lo) (inside : lo ≤ text.length) (less : r.backlog + 1 ≤ effort) :
    Yields flowMappingValue r (Emits text (.value true :: outer) lo none effort) := by
  refine .bind (.peek fun next rest tokens => ?_)
  split
  · rename_i kind
    have near := level.near_of_next tokens (by simp [kind])
    rw [tokens] at ahead
    obtain ⟨hi, fit, ahead⟩ := ahead.solid (by simp [kind, Token.isRead])
    have behind := near.le_after fit
    simp only [Reader.backlog, tokens, List.length_cons] at less
    refine .bind (.advance tokens (.bind (.peek fun value rest' left => ?_)))
    split
    · exact yields_missing (.flowKey stacked) ahead (.inl behind) inside rfl
        (by simp only [Reader.backlog, State.weight]; omega)
    · exact yields_missing (.flowKey stacked) ahead (.inl behind) inside rfl
        (by simp only [Reader.backlog, State.weight]; omega)
    · exact yields_nodeThen (.flowKey stacked) ahead behind (by simp)
        (by simp only [Reader.backlog]; omega) (by simp [State.followsInFlow])
  · exact yields_missing (.flowKey stacked) ahead level inside rfl
      (by simp only [Reader.backlog, State.weight] at less ⊢; omega)
end WorkflowScope.Yaml.Grammar
