import WorkflowScope.Proofs.Yaml.Headings
import WorkflowScope.Proofs.Yaml.Quiet

/-!
# Where scalars and aliases are read

The text at the mark of an alias or a quoted scalar shows what it is, and so does the header above a
block scalar. A plain scalar begins with the indicator of literal ones only if it is read inside of a
flow collection.
-/

namespace WorkflowScope.Yaml

open Composer (opensAt)
open Extent (Heads Bare)

/-- A block scalar is marked below a header with its indicator. One without content, which is read
`alone` up to the end of the text, is marked at its header. -/
def Headed (text : List Char) (indicator : Char) (alone : Prop) (mark : Nat) : Prop :=
  ∃ header, opensAt text header indicator = true ∧
    (Heads text header mark ∨ (mark = header ∧ (∃ stop, Bare text header stop) ∧ alone))

/-- What the text shows of a leaf that is read at its mark, inside of a flow collection or not. -/
def Seated (text : List Char) (flow alone : Prop) (token : MarkedToken) : Prop :=
  match token.token with
  | .reference _ => opensAt text (token.mark.offsetIn text) '*' = true
  | .scalar .plain _ => opensAt text (token.mark.offsetIn text) '|' = true → flow
  | .scalar .singleQuoted _ => opensAt text (token.mark.offsetIn text) '\'' = true
  | .scalar .doubleQuoted _ => opensAt text (token.mark.offsetIn text) '"' = true
  | .scalar .literal _ => Headed text '|' alone (token.mark.offsetIn text)
  | .scalar .folded _ => Headed text '>' alone (token.mark.offsetIn text)
  | _ => True

theorem Headed.imp {text : List Char} {indicator : Char} {alone alone' : Prop} {mark : Nat}
    (weaker : alone → alone') (headed : Headed text indicator alone mark) :
    Headed text indicator alone' mark := by
  obtain ⟨header, opens, place⟩ := headed
  exact ⟨header, opens, place.imp_right (And.imp_right (And.imp_right weaker))⟩

theorem Seated.imp {text : List Char} {flow flow' alone alone' : Prop} {token : MarkedToken}
    (flows : flow → flow') (stays : alone → alone') (seated : Seated text flow alone token) :
    Seated text flow' alone' token := by
  obtain ⟨mark, kind⟩ := token
  cases kind with
  | scalar style value =>
      cases style with
      | plain => exact fun bar => flows (seated bar)
      | singleQuoted => exact seated
      | doubleQuoted => exact seated
      | literal => exact Headed.imp stays seated
      | folded => exact Headed.imp stays seated
  | reference name => exact seated
  | _ => trivial

theorem seated_of_quiet {text : List Char} {flow alone : Prop} {token : MarkedToken}
    (quiet : token.token.isLeaf = false) : Seated text flow alone token := by
  obtain ⟨mark, kind⟩ := token
  cases kind with
  | scalar style value => cases quiet
  | reference name => cases quiet
  | _ => trivial

namespace Layout

variable {text : List Char} {s r : Room} {n : Nat} {l l' : Layout}

/-! ## Leaves -/

/-- The text has ended behind a mark. -/
def EndsBehind (text : List Char) (mark : Nat) (l : Layout) : Prop :=
  isEnd l.cursor.peek = true ∧ ∃ n, mark < n ∧ l.cursor.OnLine text n

/-- A piece puts a leaf behind the waiting tokens, or it is quiet. -/
inductive Puts (text : List Char) (l l' : Layout) : Prop where
  | quiet (adds : Adds l l')
  | leaf (token : MarkedToken) (queue : l'.queue = l.queue ++ [token])
      (seated : Seated text (l.inFlow = true) (EndsBehind text (token.mark.offsetIn text) l') token)

@[simp] theorem queue_saveKey (l : Layout) : l.saveKey.queue = l.queue := by
  unfold saveKey
  split <;> rfl

theorem takeName_eq {token : List Char → Token} (taken : l.takeName token = .ok l') :
    ∃ name, l'.queue = l.queue ++ [⟨l.mark, token name⟩] := by
  simp only [takeName, Layout.mark, cursor_saveKey] at taken
  obtain ⟨_, taken⟩ := refuse_eq_ok.1 taken
  cases taken
  exact ⟨(l.cursor.skip 1).upcoming isAnchorChar, by simp [Layout.push, Layout.mark]⟩

/-- The next character is the one at the mark of the cursor. -/
theorem opensAt_mark_iff {char : Char} (here : l.cursor.At text n) (shown : isEnd char = false) :
    opensAt text (l.mark.offsetIn text) char = true ↔ l.cursor.peek = char := by
  rw [Layout.mark, here.offset_eq, here.opensAt_eq shown, beq_iff_eq]

theorem puts_reference (here : l.cursor.At text n) (found : l.cursor.peek = '*')
    (taken : l.takeName .reference = .ok l') : Puts text l l' := by
  obtain ⟨name, queue⟩ := takeName_eq taken
  exact .leaf _ queue ((opensAt_mark_iff here rfl).2 found)

theorem puts_anchor (taken : l.takeName .anchor = .ok l') : Puts text l l' := by
  obtain ⟨name, queue⟩ := takeName_eq taken
  refine .quiet ?_
  intro token member
  rw [queue] at member
  rcases List.mem_append.1 member with old | new
  · exact .inl old
  · rw [List.mem_singleton.1 new]
    exact .inr rfl

theorem puts_quoted {quote : Quoted.Quote} {style : Style} (here : l.cursor.At text n)
    (taken : l.takeQuotedScalar quote style = .ok l') (found : l.cursor.peek = quote.char)
    (kind : (quote = .single ∧ style = .singleQuoted) ∨ (quote = .double ∧ style = .doubleQuoted)) :
    Puts text l l' := by
  obtain ⟨⟨cursor, value⟩, read, taken⟩ := bind_eq_ok.1 taken
  obtain ⟨after, blanks, taken⟩ := bind_eq_ok.1 taken
  cases taken
  obtain ⟨last, allowed, rfl, -⟩ := skipToToken_spec blanks
  refine .leaf ⟨l.mark, .scalar style value⟩ (by simp [Layout.push, Layout.mark]) ?_
  rcases kind with ⟨rfl, rfl⟩ | ⟨rfl, rfl⟩
  · exact (opensAt_mark_iff here rfl).2 found
  · exact (opensAt_mark_iff here rfl).2 found

theorem puts_plain (here : l.cursor.At text n) (flow : l.cursor.peek = '|' → l.inFlow = true)
    (taken : l.takePlainScalar = .ok l') : Puts text l l' := by
  obtain ⟨⟨cursor, value⟩, read, taken⟩ := bind_eq_ok.1 taken
  cases taken
  refine .leaf ⟨l.mark, .scalar .plain value⟩
    (by simp [Layout.push, Layout.mark, leaveInlineLevels]) ?_
  exact fun bar => flow ((opensAt_mark_iff here rfl).1 bar)

theorem puts_block {style : Style} (here : l.cursor.At text n)
    (kind : (l.cursor.peek = '|' ∧ style = .literal) ∨ (l.cursor.peek = '>' ∧ style = .folded))
    (taken : l.takeBlockScalar style = .ok l') : Puts text l l' := by
  obtain ⟨⟨cursor, value, mark⟩, read, taken⟩ := bind_eq_ok.1 taken
  cases taken
  simp only [leaveInlineLevels, cursor_saveKey] at read
  have opens : l.cursor.peek = '|' ∨ l.cursor.peek = '>' := kind.imp And.left And.left
  have headed {indicator : Char} (found : l.cursor.peek = indicator)
      (shown : isEnd indicator = false) :
      Headed text indicator (EndsBehind text (mark.offsetIn text) { l with cursor })
        (mark.offsetIn text) := by
    refine ⟨n, by simp [here.opensAt_eq shown, found], ?_⟩
    rcases Block.marks_read here opens read with heads | ⟨same, ended, stop, bare, there⟩
    · exact .inl heads
    · exact .inr ⟨same, ⟨stop, bare⟩, ended, stop, same.symm ▸ bare.after, there.toOnLine⟩
  refine .leaf ⟨mark, .scalar style value⟩ (by simp [Layout.push, leaveInlineLevels]) ?_
  rcases kind with ⟨found, rfl⟩ | ⟨found, rfl⟩
  · exact headed found rfl
  · exact headed found rfl

/-- The next character tells which piece is read. -/
theorem puts_takeContent (here : l.cursor.At text n) (taken : l.takeContent = .ok l') :
    Puts text l l' := by
  have word (found : l.cursor.peek ≠ '|') (taken : l.takePlainScalar = .ok l') : Puts text l l' :=
    puts_plain here (fun bar => absurd bar found) taken
  simp only [takeContent] at taken
  split at taken
  · exact .quiet (adds_takeFlowStart rfl taken)
  · exact .quiet (adds_takeFlowStart rfl taken)
  · exact .quiet (adds_takeFlowEnd rfl taken)
  · exact .quiet (adds_takeFlowEnd rfl taken)
  · exact .quiet (adds_takeFlowEntry taken)
  · rename_i found
    split at taken
    · exact .quiet (adds_takeBlockEntry taken)
    · exact word (by simp [found]) taken
  · rename_i found
    split at taken
    · exact .quiet (adds_takeKey taken)
    · exact word (by simp [found]) taken
  · rename_i found
    split at taken
    · exact .quiet (adds_takeValue taken)
    · exact word (by simp [found]) taken
  · rename_i found
    exact puts_reference here found taken
  · exact puts_anchor taken
  · exact .quiet (adds_takeTag taken)
  · rename_i found
    split at taken
    · rename_i flow
      exact puts_plain here (fun _ => flow) taken
    · exact puts_block here (.inl ⟨found, rfl⟩) taken
  · rename_i found
    split at taken
    · exact word (by simp [found]) taken
    · exact puts_block here (.inr ⟨found, rfl⟩) taken
  · rename_i found
    exact puts_quoted here taken found (.inl ⟨rfl, rfl⟩)
  · rename_i found
    exact puts_quoted here taken found (.inr ⟨rfl, rfl⟩)
  · cases taken
  · cases taken
  · cases taken
  · rename_i bar _ _ _ _ _ _
    exact word bar taken

theorem puts_piece (here : l.cursor.At text n) (piece : Piece l l') : Puts text l l' := by
  cases piece with
  | directive found taken => exact .quiet (adds_takeDirective found taken)
  | documentStart found taken => exact .quiet (adds_takeDocumentStart taken)
  | documentEnd found taken => exact .quiet (adds_takeDocumentEnd taken)
  | content taken => exact puts_takeContent here taken

/-! ## All pieces -/

/-- The states that a reader of the text comes to. -/
inductive Comes (text : List Char) : Layout → Prop where
  | begun : Comes text (Layout.initial text).beginStream
  | dropped {l l' : Layout} (comes : Comes text l) (dropped : l.dropExpiredKeys = .ok l') :
      Comes text l'
  | released {l : Layout} (comes : Comes text l) : Comes text (release l.queue l).2
  | taken {l l' : Layout} (comes : Comes text l) (taken : l.takeNext = .ok l') : Comes text l'

/-- A token is read while a flow collection is open. -/
def ReadInFlow (text : List Char) (token : MarkedToken) : Prop :=
  ∃ l l', Comes text l ∧ l.inFlow = true ∧ l.takeNext = .ok l' ∧ l'.queue.getLast? = some token

/-- The leaves that wait show what they are, and no block scalar without content is one of them. -/
def Settled (text : List Char) (queue : List MarkedToken) : Prop :=
  ∀ token ∈ queue, Seated text (ReadInFlow text token) False token

theorem Settled.adds (settled : Settled text l.queue) (adds : Adds l l') :
    Settled text l'.queue := by
  intro token member
  rcases adds token member with old | quiet
  · exact settled token old
  · exact seated_of_quiet quiet

/-- At the end of the stream all that comes stands where the text ends. -/
theorem queue_endStream (here : l.cursor.OnLine text n) (ended : l.endStream = .ok l') :
    n ≤ l'.mark.offsetIn text ∧ ∃ ends, l'.queue = l.queue ++ ends ∧
      ∀ token ∈ ends, token.token.isLeaf = false ∧ token.mark = l'.mark := by
  rw [endStream] at ended
  obtain ⟨_, ended⟩ := refuse_eq_ok.1 ended
  obtain ⟨closed, ended, queue, mark⟩ : ∃ closed : Layout,
      (do let removed ← (closed.leaveBlocks (-1)).removeKey
          Except.ok ({ removed with keyAllowed := false }.push removed.mark .streamEnd)) = .ok l' ∧
      closed.queue = l.queue ∧ n ≤ closed.mark.offsetIn text := by
    refine ⟨_, ended, ?_, ?_⟩
    · rfl
    · exact le_endMark here
  obtain ⟨levels, indent, ends, left, all⟩ := leaveBlocks_eq (-1) closed
  rw [left] at ended
  obtain ⟨removed, remove, ended⟩ := bind_eq_ok.1 ended
  cases ended
  obtain ⟨_, same⟩ := refuse_eq_ok.1 remove
  cases same
  refine ⟨mark, ends ++ [⟨closed.mark, .streamEnd⟩], ?_, ?_⟩
  · rw [← queue, ← List.append_assoc]
    rfl
  · intro token member
    rcases List.mem_append.1 member with block | last
    · rw [all token block]
      exact ⟨rfl, rfl⟩
    · rw [List.mem_singleton.1 last]
      exact ⟨rfl, rfl⟩

/-- Reading on puts leaves that show what they are into the queue, or at the end of the text a block
scalar without content. -/
theorem settled_takeNext (comes : Comes text l) (steady : Steady text s l)
    (settled : Settled text l.queue) (taken : l.takeNext = .ok l') :
    Settled text l'.queue ∨ (Steady text s l' ∧ ∃ before token, l'.queue = before ++ [token] ∧
      Settled text before ∧ Seated text (ReadInFlow text token) True token ∧
        EndsBehind text (token.mark.offsetIn text) l') := by
  obtain ⟨n, r, ready, arrives, found⟩ := takeNext_cases steady taken
  have waiting : Settled text ready.queue := by
    obtain ⟨ends, queue, all⟩ := arrives.queue
    refine settled.adds ?_
    intro token member
    rw [queue] at member
    refine (List.mem_append.1 member).imp_right fun block => ?_
    rw [(all token block).1]
    rfl
  rcases found with ⟨_, ended⟩ | ⟨_, here, piece⟩
  · obtain ⟨_, ends, queue, all⟩ := queue_endStream arrives.onLine ended
    refine .inl (waiting.adds ?_)
    intro token member
    rw [queue] at member
    exact (List.mem_append.1 member).imp_right fun last => (all token last).1
  · cases puts_piece here piece with
    | quiet adds => exact .inl (waiting.adds adds)
    | leaf token queue seated =>
        have flow : ready.inFlow = true → ReadInFlow text token := by
          intro inside
          refine ⟨l, l', comes, ?_, taken, by simp [queue]⟩
          rwa [inFlow, ← arrives.depth_eq]
        by_cases alone : EndsBehind text (token.mark.offsetIn text) l'
        · exact .inr ⟨steady_piece ⟨arrives.stands, arrives.idle, here⟩ piece, _, _, queue, waiting,
            seated.imp flow fun _ => trivial, alone⟩
        · refine .inl ?_
          intro other member
          rw [queue] at member
          rcases List.mem_append.1 member with old | new
          · exact waiting other old
          · rw [List.mem_singleton.1 new]
            exact seated.imp flow alone

/-! ## The end of the text -/

theorem release_append (queue : List MarkedToken) (l : Layout) :
    (release queue l).1.map ReadToken.marked ++ (release queue l).2.queue = queue := by
  induction queue generalizing l with
  | nil => rfl
  | cons token queue ih =>
      obtain ⟨mark, kind⟩ := token
      rw [release]
      split
      · rfl
      · exact congrArg (List.cons ⟨mark, kind⟩) (ih { l with gone := l.gone + 1 })

theorem cursor_release (queue : List MarkedToken) (l : Layout) :
    (release queue l).2.cursor = l.cursor := by
  induction queue generalizing l with
  | nil => rfl
  | cons token queue ih =>
      obtain ⟨mark, kind⟩ := token
      rw [release]
      split
      · rfl
      · exact ih { l with gone := l.gone + 1 }

/-- Behind an offset at which the text has ended come the waiting tokens and then quiet ones. -/
structure Closing (text : List Char) (n : Nat) (queue : List MarkedToken) (tokens : List ReadToken) :
    Prop where
  read : ∃ ends, tokens.map ReadToken.marked <+: queue ++ ends ∧
    ∀ token ∈ ends, token.token.isLeaf = false ∧ n ≤ token.mark.offsetIn text
  reached : ∀ token ∈ tokens, n ≤ token.reached.offsetIn text

theorem closing_nil (text : List Char) (n : Nat) (queue : List MarkedToken) :
    Closing text n queue [] :=
  ⟨⟨[], List.nil_prefix, nofun⟩, nofun⟩

/-- At the end of the text only the end of the stream is left. -/
theorem ended_takeNext (steady : Steady text s l) (stop : isEnd l.cursor.peek = true)
    (here : l.cursor.OnLine text n) (taken : l.takeNext = .ok l') :
    Ended text s l' ∧ n ≤ l'.mark.offsetIn text ∧ ∃ ends, l'.queue = l.queue ++ ends ∧
      ∀ token ∈ ends, token.token.isLeaf = false ∧ n ≤ token.mark.offsetIn text := by
  obtain ⟨m, r, ready, arrives, found⟩ := takeNext_cases steady taken
  -- A cursor stands at one offset only.
  obtain rfl : m = n := by
    have there := arrives.still stop
    have same := congrArg List.length (there.rest_eq.symm.trans here.rest_eq)
    have inside := there.le_length
    have inside' := here.le_length
    simp only [List.length_drop] at same
    omega
  rcases found with ⟨ended, last⟩ | ⟨running, -, -⟩
  · obtain ⟨later, ends, queue, all⟩ := queue_endStream arrives.onLine last
    obtain ⟨blocks, waiting, closes⟩ := arrives.queue
    refine ⟨ended_endStream arrives.stands arrives.idle arrives.onLine ended last, later,
      blocks ++ ends, by rw [queue, waiting, List.append_assoc], ?_⟩
    intro token member
    rcases List.mem_append.1 member with block | final
    · refine ⟨?_, (closes token block).2⟩
      rw [(closes token block).1]
      rfl
    · obtain ⟨quiet, mark⟩ := all token final
      exact ⟨quiet, mark ▸ later⟩
  · have same : ready.cursor.peek = l.cursor.peek := by
      rw [Cursor.peek, Cursor.peek, arrives.onLine.rest_eq, here.rest_eq]
    rw [same, stop] at running
    cases running

/-- What comes behind the tokens that go now. -/
theorem Closing.append {queue rest : List MarkedToken} {tokens more : List ReadToken}
    (parts : tokens.map ReadToken.marked ++ rest = queue)
    (told : ∀ token ∈ tokens, n ≤ token.reached.offsetIn text) (closing : Closing text n rest more) :
    Closing text n queue (tokens ++ more) := by
  obtain ⟨⟨ends, start, all⟩, reached⟩ := closing
  refine ⟨⟨ends, ?_, all⟩, ?_⟩
  · rw [← parts, List.map_append, List.append_assoc]
    exact (List.prefix_append_right_inj _).2 start
  · intro token member
    exact (List.mem_append.1 member).elim (told token) (reached token)

theorem closing_tokenizeFrom (fuel : Nat) (steady : Steady text s l)
    (stop : isEnd l.cursor.peek = true) (here : l.cursor.OnLine text n) :
    Closing text n l.queue (tokenizeFrom fuel l).tokens := by
  cases fuel with
  | zero => exact closing_nil text n _
  | succ fuel =>
      rw [tokenizeFrom]
      split
      · exact closing_nil text n _
      · rename_i next found
        obtain ⟨-, queue, cursor⟩ := ready_eq found
        have steady := steady_ready steady found
        obtain ⟨t, -, later⟩ := steady_release next.queue (l := next) steady
        have same := (cursor_release next.queue next).trans cursor
        have told : ∀ token ∈ (release next.queue next).1, n ≤ token.reached.offsetIn text := by
          intro token member
          rw [reached_of_mem_release member, Layout.mark, cursor]
          exact here.le_offsetIn
        have first := Closing.append (release_append next.queue next) told (closing_nil text n _)
        rw [List.append_nil] at first
        rw [← queue]
        simp only
        split
        · exact first
        · split
          · exact first
          · rename_i after taken
            refine .append (release_append next.queue next) told ?_
            obtain ⟨ended, reached, ends, all, closes⟩ :=
              ended_takeNext later (same.symm ▸ stop) (same.symm ▸ here) taken
            rcases tokens_of_ended fuel ended with none | ⟨whole, marks⟩
            · rw [none]
              exact closing_nil text n _
            · refine ⟨⟨ends, ⟨[], ?_⟩, closes⟩, fun token member => ?_⟩
              · rw [List.append_nil, whole, all]
              · rw [marks token member]
                exact reached

end Layout

open Layout

/-! ## All tokens -/

/-- The text is read further than a token, and so do all tokens behind it stand. -/
def Alone (text : List Char) (token : ReadToken) (later : List ReadToken) : Prop :=
  token.mark.offsetIn text < token.reached.offsetIn text ∧
    ∀ other ∈ later, token.mark.offsetIn text < other.mark.offsetIn text

def Seats (text : List Char) : List ReadToken → Prop
  | [] => True
  | token :: later =>
      Seated text (ReadInFlow text token.marked) (Alone text token later) token.marked ∧
        Seats text later

variable {text : List Char} {s : Room} {n : Nat} {l : Layout}

theorem seats_append {tokens more : List ReadToken}
    (settled : Settled text (tokens.map ReadToken.marked)) (rest : Seats text more) :
    Seats text (tokens ++ more) := by
  induction tokens with
  | nil => exact rest
  | cons token tokens ih =>
      have first := settled token.marked (by simp)
      exact ⟨first.imp id False.elim, ih fun other member => settled other (by simp [member])⟩

theorem seats_of_settled {tokens : List ReadToken}
    (settled : Settled text (tokens.map ReadToken.marked)) : Seats text tokens := by
  rw [← List.append_nil tokens]
  exact seats_append settled trivial

/-- A block scalar without content is the last leaf. -/
theorem seats_of_closing {before : List MarkedToken} {last : MarkedToken} {tokens : List ReadToken}
    (settled : Settled text before) (seated : Seated text (ReadInFlow text last) True last)
    (behind : last.mark.offsetIn text < n) (closing : Closing text n (before ++ [last]) tokens) :
    Seats text tokens := by
  obtain ⟨⟨ends, start, all⟩, reached⟩ := closing
  induction before generalizing tokens with
  | nil =>
      cases tokens with
      | nil => trivial
      | cons token later =>
          obtain ⟨rfl, rest⟩ := List.cons_prefix_cons.1 start
          refine ⟨seated.imp id fun _ => ⟨?_, ?_⟩, seats_of_settled ?_⟩
          · exact Nat.lt_of_lt_of_le behind (reached token (by simp))
          · intro other member
            exact Nat.lt_of_lt_of_le behind
              (all other.marked (rest.subset (List.mem_map_of_mem member))).2
          · intro other member
            exact seated_of_quiet (all other (rest.subset member)).1
  | cons first before ih =>
      cases tokens with
      | nil => trivial
      | cons token later =>
          obtain ⟨rfl, rest⟩ := List.cons_prefix_cons.1 start
          have here := settled token.marked (by simp)
          refine ⟨here.imp id False.elim, ih (fun other member => ?_) ?_ rest⟩
          · exact settled other (by simp [member])
          · intro other member
            exact reached other (by simp [member])

theorem seats_tokenizeFrom (fuel : Nat) (comes : Comes text l) (steady : Steady text s l)
    (settled : Settled text l.queue) : Seats text (tokenizeFrom fuel l).tokens := by
  induction fuel generalizing s l with
  | zero => trivial
  | succ fuel ih =>
      rw [tokenizeFrom]
      split
      · trivial
      · rename_i next found
        obtain ⟨kept, queue, -⟩ := ready_eq found
        have steady := steady_ready steady found
        have comes : Comes text next := by
          rcases kept with rfl | dropped
          · exact comes
          · exact .dropped comes dropped
        obtain ⟨t, -, later⟩ := steady_release next.queue (l := next) steady
        have parts := release_append next.queue next
        have gone : Settled text ((release next.queue next).1.map ReadToken.marked) := by
          intro token member
          exact settled token (queue ▸ parts ▸ List.mem_append_left _ member)
        have waiting : Settled text (release next.queue next).2.queue := by
          intro token member
          exact settled token (queue ▸ parts ▸ List.mem_append_right _ member)
        simp only
        split
        · exact seats_of_settled gone
        · split
          · exact seats_of_settled gone
          · rename_i after taken
            refine seats_append gone ?_
            have last : Comes text after := .taken (.released comes) taken
            rcases settled_takeNext (.released comes) later waiting taken with
              settled | ⟨steady, before, token, queue, settled, seated, stop, n, behind, here⟩
            · rcases steady_takeNext later taken with steady | ended
              · exact ih last steady settled
              · rcases tokens_of_ended fuel ended with none | ⟨whole, -⟩
                · rw [none]
                  trivial
                · exact seats_of_settled (whole.symm ▸ settled)
            · exact seats_of_closing settled seated behind
                (queue ▸ closing_tokenizeFrom fuel steady stop here)

/-- Every alias and every scalar of a text shows what it is. -/
theorem seats_tokenize (text : List Char) : Seats text (tokenize text).tokens := by
  refine seats_tokenizeFrom _ .begun (steady_beginStream text) ?_
  intro token member
  rw [List.mem_singleton.1 member]
  trivial

/-- What is known of a token among those of a text, and of the tokens behind it. -/
theorem Seats.of_suffix {token : ReadToken} {later tokens : List ReadToken}
    (seats : Seats text tokens) (part : token :: later <:+ tokens) :
    Seated text (ReadInFlow text token.marked) (Alone text token later) token.marked := by
  induction tokens with
  | nil => exact absurd (List.suffix_nil.1 part) (by simp)
  | cons first tokens ih =>
      rcases List.suffix_cons_iff.1 part with whole | inner
      · obtain ⟨rfl, rfl⟩ := List.cons.inj whole
        exact seats.1
      · exact ih seats.2 inner

/-! ## How far the text is read -/

/-- No token stands behind the place up to which the text has been read. -/
theorem mark_le_reached_tokenizeFrom (fuel : Nat) (steady : Steady text s l) :
    ∀ token ∈ (tokenizeFrom fuel l).tokens,
      token.mark.offsetIn text ≤ token.reached.offsetIn text := by
  induction fuel generalizing s l with
  | zero =>
      intro token member
      cases member
  | succ fuel ih =>
      rw [tokenizeFrom]
      split
      · intro token member
        cases member
      · rename_i next found
        have steady := steady_ready steady found
        have gone : ∀ token ∈ (release next.queue next).1,
            token.mark.offsetIn text ≤ token.reached.offsetIn text := by
          obtain ⟨n, e, stands, _, onLine, _⟩ := steady
          intro token member
          rw [reached_of_mem_release member]
          refine Nat.le_trans (stands.marks token.marked ?_) onLine.le_offsetIn
          rw [← release_append next.queue next]
          exact List.mem_append_left _ (List.mem_map_of_mem member)
        obtain ⟨t, -, later⟩ := steady_release next.queue (l := next) steady
        simp only
        split
        · exact gone
        · split
          · exact gone
          · rename_i after taken
            intro token member
            refine (List.mem_append.1 member).elim (gone token) fun more => ?_
            rcases steady_takeNext later taken with steady | ended
            · exact ih steady token more
            · rcases tokens_of_ended fuel ended with none | ⟨whole, marks⟩
              · rw [none] at more
                cases more
              · rw [marks token more]
                exact ended.marks token.marked (whole ▸ List.mem_map_of_mem more)

theorem mark_le_reached {token : ReadToken} (member : token ∈ (tokenize text).tokens) :
    token.mark.offsetIn text ≤ token.reached.offsetIn text :=
  mark_le_reached_tokenizeFrom _ (steady_beginStream text) token member

end WorkflowScope.Yaml
