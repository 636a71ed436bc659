import WorkflowScope.Proofs.Yaml.BlockScalars

/-!
# Where readings fail

A reading that fails does so at the mark from which it began, or at one that it met on its way
through the text.
-/

namespace WorkflowScope.Yaml

open Cursor

variable {α β : Type} {marks : Mark → Prop}

/-- If the reading fails, it does so at one of the given marks. -/
def FailsAt (marks : Mark → Prop) (reading : Except SyntaxError α) : Prop :=
  ∀ error, reading = .error error → marks error.mark

namespace FailsAt

theorem ok (a : α) : FailsAt marks (.ok a) :=
  nofun

theorem error {fault : Fault} {mark : Mark} (known : marks mark) :
    FailsAt marks (.error ⟨fault, mark⟩ : Except SyntaxError α) := by
  rintro _ ⟨⟩
  exact known

theorem bind {reading : Except SyntaxError α} {more : α → Except SyntaxError β}
    (first : FailsAt marks reading) (later : ∀ a, reading = .ok a → FailsAt marks (more a)) :
    FailsAt marks (reading >>= more) := by
  intro error failed
  rcases bind_eq_error.1 failed with failed | ⟨a, read, failed⟩
  · exact first error failed
  · exact later a read error failed

theorem refuse {p : Prop} [Decidable p] {fault : Fault} {mark : Mark}
    {reading : Except SyntaxError α} (known : marks mark) (rest : FailsAt marks reading) :
    FailsAt marks (if p then .error ⟨fault, mark⟩ else reading) := by
  split
  · exact .error known
  · exact rest

theorem ensure {p : Prop} [Decidable p] {fault : Fault} {mark : Mark} {a : α}
    (known : marks mark) : FailsAt marks (if p then .ok a else .error ⟨fault, mark⟩) := by
  split
  · exact .ok _
  · exact .error known

end FailsAt

/-- A mark that is met when the text is read on from a cursor. -/
def Met (origin : Cursor) (mark : Mark) : Prop :=
  ∃ c, Leads origin c ∧ c.mark = mark

namespace Cursor

variable {origin c : Cursor}

theorem Leads.met (way : Leads origin c) : Met origin c.mark :=
  ⟨c, way, rfl⟩

theorem Leads.one (way : Leads origin c) (plain : isBreakOrEnd c.peek = false) :
    Leads origin (c.skip 1) :=
  way.trans ⟨1, reads_skip_one plain⟩

theorem Leads.ahead (way : Leads origin c) (count : Nat) : Leads origin (c.lookAhead count) :=
  way.trans ⟨0, reads_of_eq rfl rfl⟩

theorem failsAt_skipToLineEnd (way : Leads origin c) : FailsAt (Met origin) c.skipToLineEnd := by
  obtain ⟨plain, inside⟩ := upcoming_plain (p := isBlank) (fun _ => isBreakOrEnd_of_isBlank) c
  simp only [skipToLineEnd]
  split
  · split
    · exact .error (way.trans ⟨_, reads_skipBlank plain inside⟩).met
    · exact .ok _
  · exact .ok _

end Cursor

variable {origin c : Cursor} {start : Mark}

/-! ## Tags -/

namespace Tag

theorem failsAt_octetAt (known : marks start) (c : Cursor) : FailsAt marks (octetAt start c) := by
  unfold octetAt
  split
  · exact .ok _
  · exact .error known

theorem failsAt_readTrailing (known : marks start) (n code : Nat) (c : Cursor) :
    FailsAt marks (readTrailing start n code c) := by
  induction n generalizing code c with
  | zero => exact .ok _
  | succ n ih =>
      refine .bind (failsAt_octetAt known c) fun octet _ => ?_
      split
      · exact ih _ _
      · exact .error known

theorem failsAt_skipEscape (known : marks start) (c : Cursor) :
    FailsAt marks (skipEscape start c) := by
  refine .bind (failsAt_octetAt known c) fun octet _ => ?_
  split
  · exact .error known
  · refine .bind (failsAt_readTrailing known _ _ _) fun read _ => ?_
    simp only
    split
    · exact .ok _
    · exact .error known

theorem failsAt_skipAddress (known : marks start) (p : Char → Bool) (fuel : Nat) (c : Cursor) :
    FailsAt marks (skipAddress p start fuel c) := by
  induction fuel generalizing c with
  | zero => exact .ok _
  | succ fuel ih =>
      rw [skipAddress]
      split
      · exact .ok _
      · simp only [ok_bind]
        split
        · refine .bind (failsAt_skipEscape known c) fun next _ => ?_
          exact .bind (ih next) fun _ _ => .ok _
        · exact .bind (ih _) fun _ _ => .ok _

theorem failsAt_readHandle (known : marks start) (c : Cursor) :
    FailsAt marks (readHandle start c) := by
  rw [readHandle]
  split
  · exact .error known
  · simp only
    split <;> exact .ok _

theorem failsAt_read (flow : Bool) (known : marks c.mark) : FailsAt marks (read flow c) := by
  have follow {next : Cursor} {handle : List Char} :
      FailsAt marks (if (isBlankBreakOrEnd next.peek || flow && isFlow next.peek) = true then
        .ok (next, handle) else .error ⟨.tagFollow, c.mark⟩) :=
    .ensure known
  simp only [read, ok_bind, error_bind]
  split
  · refine .bind (failsAt_skipAddress known _ _ _) fun address _ => ?_
    split
    · exact follow
    · exact .error known
  · refine .bind (failsAt_readHandle known c) fun handle _ => ?_
    refine .bind (failsAt_skipAddress known _ _ _) fun suffix _ => ?_
    split
    · split
      · exact .error known
      · exact follow
    · split <;> exact follow

end Tag

/-! ## Directives -/

namespace Directive

theorem failsAt_skipNumber (known : marks start) (c : Cursor) :
    FailsAt marks (skipNumber start c) := by
  simp only [skipNumber]
  exact .refuse known (.refuse known (.ok _))

theorem failsAt_skipVersion (known : marks start) (c : Cursor) :
    FailsAt marks (skipVersion start c) := by
  refine .bind (failsAt_skipNumber known _) fun next _ => ?_
  exact .refuse known (failsAt_skipNumber known _)

theorem failsAt_skipPrefix (known : marks start) (c : Cursor) :
    FailsAt marks (skipPrefix start c) := by
  have address (next : Cursor) : FailsAt marks
      (Tag.skipAddress isUriChar start (next.rest.length + 1) next >>= fun after => .ok after.1) :=
    .bind (Tag.failsAt_skipAddress known _ _ _) fun _ _ => .ok _
  simp only [skipPrefix, ok_bind, error_bind]
  split
  · exact address _
  · split
    · exact .error known
    · split
      · exact .bind (Tag.failsAt_skipEscape known c) fun next _ => address next
      · exact address _

theorem failsAt_readDeclaration (known : marks start) (c : Cursor) :
    FailsAt marks (readDeclaration start c) := by
  refine .bind (Tag.failsAt_readHandle known _) fun handle _ => ?_
  simp only
  split
  · exact .error known
  · refine .bind (failsAt_skipPrefix known _) fun next _ => ?_
    split
    · exact .ok _
    · exact .error known

theorem failsAt_readName (known : marks c.mark) : FailsAt marks (readName c) := by
  simp only [readName]
  split
  · exact .error known
  · split
    · exact .ok _
    · exact .error known

theorem failsAt_read (percent : c.peek = '%') : FailsAt (Met c) (read c) := by
  have start : Met c c.mark := (Leads.refl c).met
  have opening := (Leads.refl c).one (isBreakOrEnd_of_eq percent rfl)
  refine .bind (failsAt_readName opening.met) fun name named => ?_
  have way := opening.trans (leads_readName named)
  have finish {next : Cursor} {token : Token} (on : Leads c next) :
      FailsAt (Met c) (next.skipToLineEnd >>= fun after =>
        if isBreakOrEnd after.1.peek then .ok ((after.1.lookAhead 2).skipBreak, token)
        else .error ⟨.directiveTrailing, c.mark⟩) := by
    exact .bind (failsAt_skipToLineEnd on) fun after _ => .ensure start
  simp only [ok_bind]
  split
  · refine .bind (failsAt_skipVersion start _) fun next version => ?_
    exact finish (way.trans (leads_skipVersion version))
  · split
    · refine .bind (failsAt_readDeclaration start _) fun next declaration => ?_
      exact finish (way.trans (leads_readDeclaration declaration))
    · exact finish (way.trans (leads_skipComment _))

end Directive

/-! ## Plain scalars -/

namespace Plain

theorem failsAt_skipGap {indent : Int} {fuel : Nat} {gap : Gap} (known : Met origin start)
    (way : Leads origin c) : FailsAt (Met origin) (skipGap indent start fuel c gap) := by
  induction fuel generalizing c gap with
  | zero => exact .ok _
  | succ fuel ih =>
      rw [skipGap]
      split
      · rename_i blank
        have one := way.trans ⟨1, reads_skipBlank_one (isBreakOrEnd_of_isBlank blank)⟩
        split
        · exact ih one
        · split
          · refine .bind (failsAt_skipToLineEnd way) fun after read => ?_
            simp only
            split
            · exact .error known
            · exact ih (way.trans (leads_skipToLineEnd read))
          · exact ih one
      · split
        · have line := way.trans (leads_skipBreak 2 c)
          split
          · exact ih line
          · exact ih line
        · exact .ok _

theorem failsAt_readWords {flow : Bool} {indent : Int} {fuel : Nat} {gap : Gap}
    (known : Met origin start) (way : Leads origin c) :
    FailsAt (Met origin) (readWords flow indent start fuel c gap) := by
  induction fuel generalizing c gap with
  | zero => exact .ok _
  | succ fuel ih =>
      simp only [readWords]
      split
      · exact .ok _
      · split
        · exact .error way.met
        · have rest {after : Cursor} {text : List Char} {blanks : Gap} (word : Leads origin after) :
              FailsAt (Met origin)
                (if !(isBlank after.peek || isBreak after.peek) then .ok (after, text)
                else do
                  let found ← skipGap indent start (after.rest.length + 1) after blanks
                  if !flow && found.1.column < indent then .ok (found.1, text)
                  else
                    let more ← readWords flow indent start fuel found.1 found.2
                    .ok (more.1, text ++ more.2)) := by
            split
            · exact .ok _
            · refine .bind (failsAt_skipGap known word) fun found read => ?_
              split
              · exact .ok _
              · obtain ⟨k, reads, -⟩ := reads_skipGap read
                exact .bind (ih (word.trans ⟨k, reads⟩)) fun _ _ => .ok _
          -- There may be no word, in which case only the reading ahead is left.
          cases (word flow (c.lookAhead 4).rest).isEmpty with
          | true => exact rest (way.ahead 4)
          | false =>
              exact rest (way.trans ⟨_, (reads_word flow (c.lookAhead 4)).of_lookAhead.lookAhead 2⟩)

theorem failsAt_read (flow : Bool) (indent : Int) (c : Cursor) :
    FailsAt (Met c) (read flow indent c) := by
  have start : Met c c.mark := (Leads.refl c).met
  rw [read]
  exact .refuse start (failsAt_readWords start (.refl c))

end Plain

/-! ## Quoted scalars -/

namespace Quoted

theorem Inside.way {quote : Quote} {d : Cursor} (inside : Inside quote c d) : Leads c d := by
  obtain ⟨k, reads, -⟩ := inside.leads
  exact ⟨k, reads⟩

theorem failsAt_readEscape (known : marks start) (c : Cursor) :
    FailsAt marks (readEscape start c) := by
  unfold readEscape
  split
  · exact .error known
  · exact .ok _
  · simp only
    split
    · exact .error known
    · split
      · exact .error known
      · exact .ok _

theorem failsAt_readRun {quote : Quote} {fuel : Nat} (known : marks start) (c : Cursor) :
    FailsAt marks (readRun quote start fuel c) := by
  induction fuel generalizing c with
  | zero => exact .ok _
  | succ fuel ih =>
      simp only [readRun]
      split
      · exact .ok _
      · split
        · exact .bind (ih _) fun _ _ => .ok _
        · split
          · exact .ok _
          · split
            · split
              · exact .ok _
              · refine .bind (failsAt_readEscape known _) fun escape _ => ?_
                exact .bind (ih _) fun _ _ => .ok _
            · exact .bind (ih _) fun _ _ => .ok _

theorem failsAt_skipGap {indent : Int} {fuel : Nat} {gap : Gap} (way : Leads origin c) :
    FailsAt (Met origin) (skipGap indent fuel c gap) := by
  induction fuel generalizing c gap with
  | zero => exact .ok _
  | succ fuel ih =>
      rw [skipGap]
      split
      · rename_i blank
        have one := way.trans ⟨1, reads_skipBlank_one (isBreakOrEnd_of_isBlank blank)⟩
        split
        · exact ih one
        · exact .refuse way.met (ih one)
      · split
        · have line := way.trans (leads_skipBreak 2 c)
          simp only
          split
          · exact ih line
          · exact ih line
        · exact .ok _

theorem failsAt_readRuns {quote : Quote} {indent : Int} {fuel : Nat} (known : Met origin start)
    (way : Leads origin c) : FailsAt (Met origin) (readRuns quote indent start fuel c) := by
  induction fuel generalizing c with
  | zero => exact .error known
  | succ fuel ih =>
      simp only [readRuns]
      refine .refuse known (.refuse known (.refuse known ?_))
      refine .bind (failsAt_readRun known _) fun run read => ?_
      have past := (way.ahead 4).trans (inside_readRun (Nat.lt_succ_self _) read).1.way
      split
      · exact .ok _
      · refine .bind (failsAt_skipGap past) fun gap blanks => ?_
        have inside : Inside quote run.1 gap.1 := inside_skipGap blanks
        exact .bind (ih (past.trans inside.way)) fun _ _ => .ok _

theorem failsAt_read {quote : Quote} (flow : Bool) (indent : Int) (opening : c.peek = quote.char) :
    FailsAt (Met c) (read quote flow indent c) := by
  have plain {cursor : Cursor} (same : cursor.peek = quote.char) :
      isBreakOrEnd cursor.peek = false := by
    rw [same]
    cases quote <;> rfl
  have way := (Leads.refl c).one (plain opening)
  refine .bind (failsAt_readRuns (Leads.refl c).met way) fun found runs => ?_
  obtain ⟨inside, closing, -⟩ := inside_readRuns runs
  have past := (way.trans inside.way).one (plain closing)
  refine .bind (failsAt_skipToLineEnd past) fun after blanks => ?_
  simp only
  split
  · exact .ok _
  · exact .error (past.trans (leads_skipToLineEnd blanks)).met

end Quoted

/-! ## Block scalars -/

namespace Block

theorem failsAt_readIndicator (known : marks start) (c : Cursor) :
    FailsAt marks (readIndicator start c) := by
  rw [readIndicator]
  split
  · split
    · exact .error known
    · exact .ok _
  · exact .ok _

theorem failsAt_readHeader (known : marks start) (c : Cursor) :
    FailsAt marks (readHeader start c) := by
  rw [readHeader]
  split
  · exact .bind (failsAt_readIndicator known _) fun _ _ => .ok _
  · refine .bind (failsAt_readIndicator known c) fun indicator _ => ?_
    simp only
    split <;> exact .ok _

theorem failsAt_read (folded : Bool) (parent : Int) (plain : isBreakOrEnd c.peek = false) :
    FailsAt (Met c) (read folded parent c) := by
  have start : Met c c.mark := (Leads.refl c).met
  have opening := (Leads.refl c).one plain
  refine .bind (failsAt_readHeader start _) fun ⟨head, header⟩ named => ?_
  have headed := opening.trans (leads_readHeader named).1
  refine .bind (failsAt_skipToLineEnd headed) fun ⟨after, _⟩ blanks => ?_
  have line := (headed.trans (leads_skipToLineEnd blanks)).trans (leads_skipBreak 2 after)
  refine .refuse start (.refuse start ?_)
  -- Only where the content begins a column can be wrong.
  have content {next : Cursor} {p q : Prop} [Decidable p] [Decidable q]
      {empty full : Cursor × List Char × Mark} (way : Leads c next) :
      FailsAt (Met c) (if p then .ok empty else if q then next.fail .blockIndentation
        else .ok full) := by
    split
    · exact .ok _
    · exact .refuse way.met (.ok _)
  cases given : header.indent with
  | some relative =>
      have indented := line.trans (leads_skipIndent (contentIndent parent (some relative) 0)
        ((after.lookAhead 2).skipBreak.rest.length + 1) _)
      cases scanned : skipIndent (contentIndent parent (some relative) 0)
          ((after.lookAhead 2).skipBreak.rest.length + 1) (after.lookAhead 2).skipBreak with
      | mk first empties =>
          rw [scanned] at indented
          simp only [scanned]
          exact content indented
  | none =>
      have indented := line.trans
        (leads_skipSpaces ((after.lookAhead 2).skipBreak.rest.length + 1) _)
      cases scanned : skipSpaces ((after.lookAhead 2).skipBreak.rest.length + 1)
          (after.lookAhead 2).skipBreak with
      | mk first counts =>
          rw [scanned] at indented
          simp only
          exact content indented

/-- The mark that is reported for a block scalar is met while it is read. -/
theorem met_of_read {folded : Bool} {parent : Int} {d : Cursor} {value : List Char} {mark : Mark}
    (plain : isBreakOrEnd c.peek = false) (found : read folded parent c = .ok (d, value, mark)) :
    Met c mark := by
  obtain ⟨⟨head, header⟩, named, found⟩ := bind_eq_ok.1 found
  obtain ⟨⟨after, gap⟩, blanks, found⟩ := bind_eq_ok.1 found
  obtain ⟨_, found⟩ := refuse_eq_ok.1 found
  obtain ⟨_, found⟩ := refuse_eq_ok.1 found
  have headed := ((Leads.refl c).one plain).trans (leads_readHeader named).1
  have line := (headed.trans (leads_skipToLineEnd blanks)).trans (leads_skipBreak 2 after)
  have content {next last : Cursor} {p q : Prop} [Decidable p] [Decidable q]
      {empty full : List Char} (way : Leads c next)
      (found : (if p then Except.ok (next, empty, c.mark)
        else if q then next.fail .blockIndentation else .ok (last, full, next.mark)) =
        .ok (d, value, mark)) : Met c mark := by
    split at found
    · cases found
      exact (Leads.refl c).met
    · obtain ⟨_, found⟩ := refuse_eq_ok.1 found
      cases found
      exact way.met
  cases given : header.indent with
  | some relative =>
      rw [given] at found
      have indented := line.trans (leads_skipIndent (contentIndent parent (some relative) 0)
        ((after.lookAhead 2).skipBreak.rest.length + 1) _)
      cases scanned : skipIndent (contentIndent parent (some relative) 0)
          ((after.lookAhead 2).skipBreak.rest.length + 1) (after.lookAhead 2).skipBreak with
      | mk first empties =>
          rw [scanned] at indented
          simp only [scanned] at found
          exact content indented found
  | none =>
      rw [given] at found
      have indented := line.trans
        (leads_skipSpaces ((after.lookAhead 2).skipBreak.rest.length + 1) _)
      cases scanned : skipSpaces ((after.lookAhead 2).skipBreak.rest.length + 1)
          (after.lookAhead 2).skipBreak with
      | mk first counts =>
          rw [scanned] at indented
          simp only [scanned] at found
          exact content indented found

end Block

end WorkflowScope.Yaml
