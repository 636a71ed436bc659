import WorkflowScope.Proofs.Yaml.Cursor

/-!
# Tags and directives in a text

Reading a tag or a directive moves the cursor on through the text.
-/

namespace WorkflowScope.Yaml

open Cursor

theorem isBreakOrEnd_of_eq {char given : Char} (same : char = given)
    (plain : isBreakOrEnd given = false) : isBreakOrEnd char = false := by
  rw [same]
  exact plain

/-- The character of a class that leaves out breaks and the end. -/
theorem plain_of_class {p : Char → Bool} {char : Char} (line : p '\n' = false)
    (feed : p '\r' = false) (stop : p '\x00' = false) (member : p char = true) :
    isBreakOrEnd char = false := by
  by_contra broken
  simp only [isBreakOrEnd, isBreak, isEnd, Bool.not_eq_false, Bool.or_eq_true, beq_iff_eq] at broken
  rcases broken with (rfl | rfl) | rfl
  · rw [line] at member
    cases member
  · rw [feed] at member
    cases member
  · rw [stop] at member
    cases member

theorem plain_of_isWordChar {char : Char} (word : isWordChar char = true) :
    isBreakOrEnd char = false :=
  plain_of_class (by decide) (by decide) (by decide) word

theorem plain_of_isUriChar {char : Char} (uri : isUriChar char = true) :
    isBreakOrEnd char = false :=
  plain_of_class (by decide) (by decide) (by decide) uri

theorem plain_of_isTagChar {char : Char} (tag : isTagChar char = true) :
    isBreakOrEnd char = false :=
  plain_of_class (by decide) (by decide) (by decide) tag

theorem plain_of_hexValue? {char : Char} {value : Nat} (hex : Text.hexValue? char = some value) :
    isBreakOrEnd char = false :=
  plain_of_class (p := fun char => (Text.hexValue? char).isSome) (by decide) (by decide)
    (by decide) (by simp [hex])

/-- The next characters of the text, as far as they are known not to end it. -/
theorem take_eq_of_peekAt {c : Cursor} {k : Nat}
    (running : ∀ i < k, isEnd (c.peekAt i) = false) :
    c.rest.take k = (List.range k).map c.peekAt ∧ k ≤ c.rest.length := by
  have inside : k ≤ c.rest.length := by
    by_contra short
    have last := running c.rest.length (by omega)
    simp [peekAt, isEnd] at last
  refine ⟨?_, inside⟩
  apply List.ext_getElem
  · simp [inside]
  · intro i first second
    have bound : i < c.rest.length := by
      simp at first
      omega
    simp [peekAt, bound]

theorem reads_skip_of_peekAt {c : Cursor} {k : Nat}
    (plain : ∀ i < k, isBreakOrEnd (c.peekAt i) = false) : Reads k c (c.skip k) := by
  obtain ⟨taken, inside⟩ := take_eq_of_peekAt (c := c) (k := k) fun i below => by
    have here := plain i below
    simp only [isBreakOrEnd, Bool.or_eq_false_iff] at here
    exact here.2
  refine reads_skip (fun char member => ?_) inside
  rw [taken] at member
  obtain ⟨i, below, rfl⟩ := List.mem_map.1 member
  exact plain i (List.mem_range.1 below)

theorem peekAt_zero (c : Cursor) : c.peekAt 0 = c.peek := by
  cases found : c.rest <;> simp [peekAt, peek, found]

namespace Tag

theorem reads_octet {start : Mark} {c : Cursor} {octet : Nat} (read : octetAt start c = .ok octet) :
    Leads c ((c.lookAhead 3).skip 3) := by
  unfold octetAt at read
  split at read
  · rename_i percent high low
    refine ⟨3, .of_lookAhead (reads_skip_of_peekAt (c := c.lookAhead 3) fun i below => ?_)⟩
    match i, below with
    | 0, _ =>
        rw [peekAt_zero]
        exact isBreakOrEnd_of_eq percent rfl
    | 1, _ => exact plain_of_hexValue? high
    | 2, _ => exact plain_of_hexValue? low
  · cases read

theorem leads_readTrailing {start : Mark} {n code : Nat} {c d : Cursor} {total : Nat}
    (read : readTrailing start n code c = .ok (d, total)) : Leads c d := by
  induction n generalizing code c with
  | zero =>
      cases read
      exact .refl _
  | succ n ih =>
      obtain ⟨octet, first, more⟩ := bind_eq_ok.1 read
      split at more
      · exact (reads_octet first).trans (ih more)
      · cases more

theorem leads_skipEscape {start : Mark} {c d : Cursor} (read : skipEscape start c = .ok d) :
    Leads c d := by
  obtain ⟨octet, first, more⟩ := bind_eq_ok.1 read
  split at more
  · cases more
  · obtain ⟨⟨after, code⟩, trailing, last⟩ := bind_eq_ok.1 more
    simp only at last
    split at last
    · cases last
      exact (reads_octet first).trans (leads_readTrailing trailing)
    · cases last

theorem leads_skipAddress {p : Char → Bool} {start : Mark} {fuel count : Nat} {c d : Cursor}
    (plain : ∀ char, p char = true → isBreakOrEnd char = false)
    (read : skipAddress p start fuel c = .ok (d, count)) : Leads c d := by
  induction fuel generalizing c count with
  | zero =>
      cases read
      exact .refl _
  | succ fuel ih =>
      rw [skipAddress] at read
      split at read
      · cases read
        exact .refl _
      · rename_i member
        simp only [Bool.not_eq_true', Bool.not_eq_false] at member
        simp only [ok_bind] at read
        split at read
        · obtain ⟨next, one, more⟩ := bind_eq_ok.1 read
          obtain ⟨⟨after, rest⟩, later, last⟩ := bind_eq_ok.1 more
          cases last
          exact (leads_skipEscape one).trans (ih later)
        · obtain ⟨⟨after, rest⟩, later, last⟩ := bind_eq_ok.1 read
          cases last
          exact Leads.trans ⟨1, reads_skip_one (plain _ member)⟩ (ih later)

theorem leads_readHandle {start : Mark} {c d : Cursor} {handle : List Char}
    (read : readHandle start c = .ok (d, handle)) : Leads c d := by
  rw [readHandle] at read
  split at read
  · cases read
  · rename_i bang
    simp only [bne_iff_ne, ne_eq, not_not] at bang
    have first : Leads c (c.skip 1) := ⟨1, reads_skip_one (isBreakOrEnd_of_eq bang rfl)⟩
    have word := first.trans (leads_skip_upcoming (fun _ => plain_of_isWordChar) (c.skip 1))
    simp only at read
    split at read
    · rename_i second
      cases read
      exact word.trans ⟨1, reads_skip_one (isBreakOrEnd_of_eq (beq_iff_eq.1 second) rfl)⟩
    · cases read
      exact word

theorem leads_read {flow : Bool} {c d : Cursor} {handle : List Char} (bang : c.peek = '!')
    (found : read flow c = .ok (d, handle)) : Leads c d := by
  simp only [read, ok_bind, error_bind] at found
  split at found
  · rename_i angle
    obtain ⟨⟨next, count⟩, address, close⟩ := bind_eq_ok.1 found
    simp only at close
    split at close
    · rename_i closing
      cases (ensure_eq_ok.1 close).2
      have opening : Leads c ((c.lookAhead 2).skip 2) :=
        ⟨2, .of_lookAhead (reads_skip_of_peekAt (c := c.lookAhead 2) fun i below => by
          match i, below with
          | 0, _ =>
              rw [peekAt_zero]
              exact isBreakOrEnd_of_eq bang rfl
          | 1, _ => exact isBreakOrEnd_of_eq (beq_iff_eq.1 angle) rfl)⟩
      exact (opening.trans (leads_skipAddress (fun _ => plain_of_isUriChar) address)).trans
        ⟨1, reads_skip_one (isBreakOrEnd_of_eq (beq_iff_eq.1 closing) rfl)⟩
    · cases close
  · obtain ⟨⟨next, name⟩, first, more⟩ := bind_eq_ok.1 found
    obtain ⟨⟨last, suffix⟩, address, close⟩ := bind_eq_ok.1 more
    -- However the handle is told, reading stops behind the suffix.
    have same : last = d := by
      simp only at close
      split at close
      · exact (Prod.mk.inj (ensure_eq_ok.1 (refuse_eq_ok.1 close).2).2).1
      · split at close <;> exact (Prod.mk.inj (ensure_eq_ok.1 close).2).1
    rw [← same]
    exact (leads_readHandle first).trans (leads_skipAddress (fun _ => plain_of_isTagChar) address)

end Tag

namespace Directive

theorem leads_skipNumber {start : Mark} {c d : Cursor} (read : skipNumber start c = .ok d) :
    Leads c d := by
  obtain ⟨_, read⟩ := refuse_eq_ok.1 read
  obtain ⟨_, read⟩ := refuse_eq_ok.1 read
  cases read
  exact leads_skip_upcoming (fun _ => plain_of_class (by decide) (by decide) (by decide)) c

theorem leads_skipBlanks (c : Cursor) : Leads c (skipBlanks c) := by
  obtain ⟨plain, inside⟩ := upcoming_plain (fun _ => isBreakOrEnd_of_isBlank) c
  exact ⟨_, reads_skipBlank plain inside⟩

theorem leads_skipVersion {start : Mark} {c d : Cursor} (read : skipVersion start c = .ok d) :
    Leads c d := by
  obtain ⟨next, first, more⟩ := bind_eq_ok.1 read
  split at more
  · cases more
  · rename_i point
    simp only [bne_iff_ne, ne_eq, not_not] at point
    exact (((leads_skipBlanks c).trans (leads_skipNumber first)).trans
      ⟨1, reads_skip_one (isBreakOrEnd_of_eq point rfl)⟩).trans (leads_skipNumber more)

theorem leads_skipPrefix {start : Mark} {c d : Cursor} (read : skipPrefix start c = .ok d) :
    Leads c d := by
  have address {next : Cursor} (more : (Tag.skipAddress isUriChar start (next.rest.length + 1) next
      >>= fun after => Except.ok after.1) = .ok d) : Leads next d := by
    obtain ⟨⟨after, count⟩, address, last⟩ := bind_eq_ok.1 more
    cases last
    exact Tag.leads_skipAddress (fun _ => plain_of_isUriChar) address
  simp only [skipPrefix, ok_bind, error_bind] at read
  split at read
  · rename_i bang
    exact Leads.trans ⟨1, reads_skip_one (isBreakOrEnd_of_eq (beq_iff_eq.1 bang) rfl)⟩
      (address read)
  · obtain ⟨tag, read⟩ := refuse_eq_ok.1 read
    simp only [Bool.not_eq_true', Bool.not_eq_false] at tag
    split at read
    · obtain ⟨next, escape, more⟩ := bind_eq_ok.1 read
      exact (Tag.leads_skipEscape escape).trans (address more)
    · exact Leads.trans ⟨1, reads_skip_one (plain_of_isTagChar tag)⟩ (address read)

theorem leads_readDeclaration {start : Mark} {c d : Cursor} {handle : List Char}
    (read : readDeclaration start c = .ok (d, handle)) : Leads c d := by
  obtain ⟨⟨next, name⟩, first, more⟩ := bind_eq_ok.1 read
  obtain ⟨_, more⟩ := refuse_eq_ok.1 more
  obtain ⟨after, second, last⟩ := bind_eq_ok.1 more
  cases (ensure_eq_ok.1 last).2
  exact (((leads_skipBlanks c).trans (Tag.leads_readHandle first)).trans
    (leads_skipBlanks next)).trans (leads_skipPrefix second)

theorem leads_readName {c d : Cursor} {name : List Char} (read : readName c = .ok (d, name)) :
    Leads c d := by
  obtain ⟨_, read⟩ := refuse_eq_ok.1 read
  cases (ensure_eq_ok.1 read).2
  exact leads_skip_upcoming (fun _ => plain_of_isWordChar) c

theorem leads_read {c d : Cursor} {token : Token} (percent : c.peek = '%')
    (found : read c = .ok (d, token)) :
    Leads c d ∧ (token = .versionDirective ∨ ∃ handle, token = .tagDirective handle) := by
  have finish {next : Cursor} {kind : Token} (rest : (next.skipToLineEnd >>= fun after =>
      if isBreakOrEnd after.1.peek then Except.ok ((after.1.lookAhead 2).skipBreak, kind)
      else .error ⟨.directiveTrailing, c.mark⟩) = .ok (d, token)) : Leads next d ∧ token = kind := by
    obtain ⟨⟨after, gap⟩, blanks, last⟩ := bind_eq_ok.1 rest
    cases (ensure_eq_ok.1 last).2
    exact ⟨(leads_skipToLineEnd blanks).trans (leads_skipBreak 2 _), rfl⟩
  obtain ⟨⟨named, name⟩, first, more⟩ := bind_eq_ok.1 found
  have opening : Leads c named :=
    Leads.trans ⟨1, reads_skip_one (isBreakOrEnd_of_eq percent rfl)⟩ (leads_readName first)
  simp only [ok_bind] at more
  split at more
  · obtain ⟨next, version, rest⟩ := bind_eq_ok.1 more
    obtain ⟨last, rfl⟩ := finish rest
    exact ⟨(opening.trans (leads_skipVersion version)).trans last, .inl rfl⟩
  · split at more
    · obtain ⟨⟨next, handle⟩, declaration, rest⟩ := bind_eq_ok.1 more
      obtain ⟨last, rfl⟩ := finish rest
      exact ⟨(opening.trans (leads_readDeclaration declaration)).trans last, .inr ⟨_, rfl⟩⟩
    · obtain ⟨last, rfl⟩ := finish more
      exact ⟨(opening.trans (leads_skipComment named)).trans last, .inr ⟨_, rfl⟩⟩

end Directive

end WorkflowScope.Yaml
