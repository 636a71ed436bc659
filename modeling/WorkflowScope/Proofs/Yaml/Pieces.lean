import WorkflowScope.Proofs.Yaml.BlockScalars
import WorkflowScope.Proofs.Yaml.Layout

/-!
# The pieces of a text

Each piece of a text that is read puts its tokens where the cursor stood or further on, so the
waiting tokens take their places up to where the cursor stands afterwards.
-/

namespace WorkflowScope.Yaml

open Composer (opensAt)

namespace Layout

variable {text : List Char} {s e : Room} {n : Nat} {l l' : Layout}

/-- The waiting tokens stand before the cursor, whose mark tells the offset. -/
structure Poised (text : List Char) (s e : Room) (n : Nat) (l : Layout) : Prop where
  stands : Stands text s e n l
  idle : e.Idle text n l.keys
  here : l.cursor.At text n

/-- The same, or the text has ended and nothing is left before the stream ends. -/
def Steady (text : List Char) (s : Room) (l : Layout) : Prop :=
  ∃ n e, Stands text s e n l ∧ e.Idle text n l.keys ∧ l.cursor.OnLine text n ∧
    (l.cursor.At text n ∨ (isEnd l.cursor.peek = true ∧ l.indent ≤ l.cursor.column))

theorem Poised.steady (poised : Poised text s e n l) : Steady text s l :=
  ⟨n, e, poised.stands, poised.idle, poised.here.toOnLine, .inl poised.here⟩

/-- Behind a token that has been read. -/
theorem steady_of_stands (stands : Stands text s { lo := n } n l) (here : l.cursor.At text n) :
    Steady text s l :=
  ⟨n, _, stands, Room.idle_of_lo_le (Nat.le_refl _), here.toOnLine, .inl here⟩

@[simp] theorem cursor_saveKey (l : Layout) : l.saveKey.cursor = l.cursor := by
  unfold saveKey
  split <;> rfl

@[simp] theorem flowDepth_saveKey (l : Layout) : l.saveKey.flowDepth = l.flowDepth := by
  unfold saveKey
  split <;> rfl

/-! ## Tokens that begin a node -/

/-- A token that begins a node and has been read up to `m`. -/
theorem Poised.begin {token : Token} {mark : Mark} {m : Nat} (poised : Poised text s e n l)
    (begins : token.begins = true) (behind : n ≤ mark.offsetIn text)
    (le : mark.offsetIn text ≤ m) (shown : token.shownEnd text (mark.offsetIn text) ≤ m)
    (special : opensAt text n '[' = true ∨ opensAt text n '\x7b' = true →
      mark.offsetIn text = n ∧ token.isProperty = false) :
    Stands text s { lo := m } m (l.saveKey.push mark token) := by
  have fit : Solid text { e with lo := n } (mark.offsetIn text) token m := by
    refine poised.idle.raise.solid behind le shown (fun touch => ?_) ?_ ?_ ?_ ?_
    · exact special (.inl (poised.idle.bracket touch).1)
    · simp [poised.idle.closing_eq]
    · rintro rfl
      cases begins
    · rintro rfl
      cases begins
    · intro touches
      cases token with
      | blockEntry => cases begins
      | key => cases begins
      | _ => cases touches
  have room : Room.after text { e with lo := n } (mark.offsetIn text) token m = { lo := m } := by
    cases token with
    | blockEntry => cases begins
    | key => cases begins
    | _ => simp [Room.after, Room.touches, poised.idle.cap_eq]
  rw [← room]
  refine poised.stands.save poised.idle poised.here.offset_eq fit (fun brace => special (.inr brace))
    ?_ (Nat.le_trans behind le) le
  rintro rfl
  cases begins

/-- At a character that opens no flow collection. -/
theorem Poised.plain {P : Prop} (poised : Poised text s e n l) (square : l.cursor.peek ≠ '[')
    (curly : l.cursor.peek ≠ '\x7b') (opened : opensAt text n '[' = true ∨
      opensAt text n '\x7b' = true) : P := by
  rw [poised.here.opensAt_eq rfl, poised.here.opensAt_eq rfl] at opened
  rcases opened with same | same
  · exact absurd (beq_iff_eq.1 same) square
  · exact absurd (beq_iff_eq.1 same) curly

theorem steady_takeFlowStart {token : Token} {char : Char} (poised : Poised text s e n l)
    (found : l.cursor.peek = char)
    (bracket : (token = .flowSequenceStart ∧ char = '[') ∨
      (token = .flowMappingStart ∧ char = '\x7b'))
    (taken : l.takeFlowStart token = .ok l') : Steady text s l' := by
  obtain ⟨levels, indent, inline⟩ := l.saveKey.enterInline_eq
  simp only [takeFlowStart, inline, Layout.mark, cursor_saveKey] at taken
  obtain ⟨_, taken⟩ := refuse_eq_ok.1 taken
  obtain ⟨after, blanks, taken⟩ := bind_eq_ok.1 taken
  cases taken
  obtain ⟨cursor, rfl, k, leads⟩ := skipToLineEnd_spec blanks
  have plain : isBreakOrEnd l.cursor.peek = false := by
    rw [found]
    rcases bracket with ⟨_, rfl⟩ | ⟨_, rfl⟩ <;> rfl
  have there := ((Cursor.reads_skip_one plain).trans leads).moves text n poised.here
  have mark : l.mark.offsetIn text = n := poised.here.offset_eq
  have stands : Stands text s { lo := n + (1 + k) } (n + (1 + k)) (l.saveKey.push l.mark token) := by
    rcases bracket with ⟨rfl, _⟩ | ⟨rfl, _⟩
    · exact poised.begin rfl (by omega) (by omega) (by simp only [Token.shownEnd]; omega)
        fun _ => ⟨mark, rfl⟩
    · exact poised.begin rfl (by omega) (by omega) (by simp only [Token.shownEnd]; omega)
        fun _ => ⟨mark, rfl⟩
  refine steady_of_stands ⟨.skip rfl stands.waits, stands.marks, ?_⟩ there
  simpa [Layout.push] using stands.depth

/-- An alias that runs over no other character ends with its name. -/
theorem shownAliasEnd_le (star : opensAt text n '*' = true) :
    Extent.shownAliasEnd text n ≤
      n + (((text.drop (n + 1)).takeWhile isAnchorChar).length + 1) := by
  unfold Extent.shownAliasEnd
  split
  · omega
  · rename_i name
    have first : text.drop n = '*' :: text.drop (n + 1) := by
      have inside : text[n]? = some '*' := beq_iff_eq.1 star
      obtain ⟨below, same⟩ := List.getElem?_eq_some_iff.1 inside
      rw [List.drop_eq_getElem_cons below, same]
    have start : (text.drop (n + 1)).takeWhile (!Extent.endsAlias ·) <+: text.drop (n + 1) :=
      List.takeWhile_prefix _
    have raw : Span.slice ⟨n, Extent.aliasEnd text n⟩ text =
        '*' :: (text.drop (n + 1)).takeWhile (!Extent.endsAlias ·) := by
      have width : n + 1 + ((text.drop (n + 1)).takeWhile (!Extent.endsAlias ·)).length - n =
          ((text.drop (n + 1)).takeWhile (!Extent.endsAlias ·)).length + 1 := by omega
      simp only [Span.slice, Span.length, Extent.aliasEnd, first, width, List.take_succ_cons]
      rw [← List.prefix_iff_eq_take.1 start]
    simp only [raw, Scalar.overrunsName, List.head?_cons, beq_self_eq_true, List.tail_cons,
      Bool.true_and, Bool.not_eq_true', Bool.not_eq_false] at name
    obtain ⟨rest, parts⟩ := start
    have longer : ((text.drop (n + 1)).takeWhile (!Extent.endsAlias ·)).length ≤
        ((text.drop (n + 1)).takeWhile isAnchorChar).length := by
      conv_rhs => rw [← parts, List.takeWhile_append_of_pos (List.all_eq_true.1 name)]
      simp
    simp only [Extent.aliasEnd]
    omega

theorem reads_name (c : Cursor) (plain : isBreakOrEnd c.peek = false) :
    Cursor.Reads (((c.skip 1).upcoming isAnchorChar).length + 1) c
      (c.skip (((c.skip 1).upcoming isAnchorChar).length + 1)) := by
  obtain ⟨later, inside⟩ := Cursor.upcoming_plain (p := isAnchorChar)
    (fun _ => plain_of_class (by decide) (by decide) (by decide)) (c.skip 1)
  obtain ⟨rest, found⟩ := Cursor.exists_cons_of_peek (Bool.or_eq_false_iff.1 plain).2
  rw [Cursor.rest_skip, found, List.drop_succ_cons, List.drop_zero] at later inside
  refine Cursor.reads_skip (fun char member => ?_) ?_
  · rw [found, List.take_succ_cons, List.mem_cons] at member
    rcases member with rfl | member
    · exact plain
    · exact later char member
  · rw [found, List.length_cons]
    omega

theorem steady_takeName {token : List Char → Token} (poised : Poised text s e n l)
    (found : (l.cursor.peek = '*' ∧ token = .reference) ∨ (l.cursor.peek = '&' ∧ token = .anchor))
    (taken : l.takeName token = .ok l') : Steady text s l' := by
  simp only [takeName, Layout.mark, cursor_saveKey] at taken
  obtain ⟨_, taken⟩ := refuse_eq_ok.1 taken
  cases taken
  have plain : isBreakOrEnd l.cursor.peek = false := by
    rcases found with ⟨same, _⟩ | ⟨same, _⟩ <;> rw [same] <;> rfl
  have mark : l.mark.offsetIn text = n := poised.here.offset_eq
  have reads := reads_name l.cursor plain
  generalize given : (l.cursor.skip 1).upcoming isAnchorChar = name at reads
  have stands : Stands text s { lo := n + (name.length + 1) } (n + (name.length + 1))
      (l.saveKey.push l.mark (token name)) := by
    rcases found with ⟨star, rfl⟩ | ⟨ampersand, rfl⟩
    · refine poised.begin rfl (by omega) (by omega) ?_
        (poised.plain (by simp [star]) (by simp [star]))
      have opened : opensAt text n '*' = true := by
        rw [poised.here.opensAt_eq rfl, star]
        rfl
      have name_eq : name = (text.drop (n + 1)).takeWhile isAnchorChar := by
        rw [← given, Cursor.upcoming, Cursor.rest_skip, poised.here.rest_eq, List.drop_drop]
      rw [mark, name_eq]
      exact shownAliasEnd_le opened
    · refine poised.begin rfl (by omega) (by omega) ?_
        (poised.plain (by simp [ampersand]) (by simp [ampersand]))
      rw [mark]
      exact Nat.le_add_right _ _
  exact steady_of_stands (stands.of_eq rfl rfl rfl rfl) (reads.moves text n poised.here)

theorem steady_takeTag (poised : Poised text s e n l) (found : l.cursor.peek = '!')
    (taken : l.takeTag = .ok l') : Steady text s l' := by
  obtain ⟨⟨cursor, handle⟩, read, taken⟩ := bind_eq_ok.1 taken
  cases taken
  simp only [cursor_saveKey] at read
  obtain ⟨k, reads⟩ := Tag.leads_read found read
  have mark : l.mark.offsetIn text = n := poised.here.offset_eq
  have stands : Stands text s { lo := n + k } (n + k) (l.saveKey.push l.mark (.tag handle)) :=
    poised.begin rfl (by omega) (by omega) (by rw [mark]; exact Nat.le_add_right _ _)
      (poised.plain (by simp [found]) (by simp [found]))
  refine steady_of_stands (stands.of_eq rfl rfl ?_ rfl) (reads.moves text n poised.here)
  simp [Layout.push, Layout.mark]

theorem steady_takeBlockScalar {style : Style} (poised : Poised text s e n l)
    (found : l.cursor.peek = '|' ∨ l.cursor.peek = '>') (kind : style = .literal ∨ style = .folded)
    (taken : l.takeBlockScalar style = .ok l') : Steady text s l' := by
  obtain ⟨⟨cursor, value, mark⟩, read, taken⟩ := bind_eq_ok.1 taken
  cases taken
  simp only [leaveInlineLevels, cursor_saveKey] at read
  have plain : isBreakOrEnd l.cursor.peek = false := by
    rcases found with same | same <;> rw [same] <;> rfl
  obtain ⟨j, k, le, offset, onLine, settled⟩ := Block.onLine_read poised.here plain read
  have stands : Stands text s { lo := n + k } (n + k)
      (l.saveKey.push mark (.scalar style value)) := by
    refine poised.begin rfl (by omega) (by omega) ?_ (poised.plain ?_ ?_)
    · rcases kind with rfl | rfl <;> simp only [Token.shownEnd, Extent.shownEnd] <;> omega
    · rcases found with same | same <;> simp [same]
    · rcases found with same | same <;> simp [same]
  refine ⟨n + k, _, stands.of_eq rfl rfl rfl rfl, Room.idle_of_lo_le (Nat.le_refl _), onLine, ?_⟩
  exact settled.imp_right fun ended => ⟨ended.1, Int.le_of_lt ended.2⟩

theorem steady_takeQuotedScalar {quote : Quoted.Quote} {style : Style}
    (poised : Poised text s e n l) (taken : l.takeQuotedScalar quote style = .ok l')
    (found : l.cursor.peek = quote.char)
    (kind : (quote = .single ∧ style = .singleQuoted) ∨ (quote = .double ∧ style = .doubleQuoted)) :
    Steady text s l' := by
  obtain ⟨⟨cursor, value⟩, read, taken⟩ := bind_eq_ok.1 taken
  obtain ⟨after, blanks, taken⟩ := bind_eq_ok.1 taken
  cases taken
  simp only [cursor_saveKey] at read
  obtain ⟨last, allowed, rfl, j, leads⟩ := skipToToken_spec blanks
  obtain ⟨k, reads, long⟩ := Quoted.reads_read found read
  have path := reads.trans leads
  have mark : l.mark.offsetIn text = n := poised.here.offset_eq
  have stands : Stands text s { lo := n + (k + j) } (n + (k + j))
      (l.saveKey.push l.mark (.scalar style value)) := by
    refine poised.begin rfl (by omega) (by omega) ?_ (poised.plain ?_ ?_)
    · rw [poised.here.rest_eq, List.drop_drop] at long
      rw [mark]
      rcases kind with ⟨rfl, rfl⟩ | ⟨rfl, rfl⟩
      · simp only [Token.shownEnd, Extent.shownEnd, Extent.singleQuotedEnd]
        simp only [Quoted.restLength] at long
        omega
      · simp only [Token.shownEnd, Extent.shownEnd, Extent.doubleQuotedEnd]
        simp only [Quoted.restLength] at long
        omega
    · rw [found]
      cases quote <;> decide
    · rw [found]
      cases quote <;> decide
  refine steady_of_stands (stands.of_eq rfl rfl ?_ rfl) (path.moves text n poised.here)
  simp [Layout.push, Layout.mark]

theorem steady_takePlainScalar (poised : Poised text s e n l) (square : l.cursor.peek ≠ '[')
    (curly : l.cursor.peek ≠ '\x7b') (taken : l.takePlainScalar = .ok l') : Steady text s l' := by
  obtain ⟨⟨cursor, value⟩, read, taken⟩ := bind_eq_ok.1 taken
  cases taken
  simp only [leaveInlineLevels, cursor_saveKey] at read
  obtain ⟨k, reads, long⟩ := Plain.reads_read read
  have mark : l.mark.offsetIn text = n := poised.here.offset_eq
  have stands : Stands text s { lo := n + k } (n + k)
      (l.saveKey.push l.mark (.scalar .plain value)) := by
    refine poised.begin rfl (by omega) (by omega) ?_ (poised.plain square curly)
    simp only [Token.shownEnd, Extent.shownEnd]
    split <;> omega
  refine steady_of_stands (stands.of_eq rfl rfl ?_ rfl) (reads.moves text n poised.here)
  simp [Layout.push, Layout.mark, leaveInlineLevels]

end Layout

end WorkflowScope.Yaml
