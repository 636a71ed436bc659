import WorkflowScope.Proofs.Diagnostics.Schedule
import WorkflowScope.Proofs.Path.Table

/-!
# When a late answer is stored

Runs of a document are numbered from one, and closing the document lets the numbers start again. A
run stores what its linter answers just if its number is the latest one at that moment. Without a
closing in between this means that the run is the newest of its document. After a closing it means
that as many runs have been started since as had been when the run itself was started: then the
answer is stored although it is stale.
-/

namespace WorkflowScope

namespace Move

/-- The number of runs of a document since it was last closed, after one more move. -/
def tally (path : String) (count : Nat) (move : Move) : Nat :=
  if move.closes path then 0 else if move.starts path then count + 1 else count

/-- The number of runs of a document that have been started since it was last closed. -/
def runsOpen (path : String) (moves : List Move) : Nat :=
  moves.foldl (tally path) 0

def changes (moves : List Move) : Nat :=
  moves.countP isChange

theorem runsOpen_concat (path : String) (moves : List Move) (move : Move) :
    runsOpen path (moves ++ [move]) = tally path (runsOpen path moves) move := by
  simp [runsOpen]

theorem changes_concat (moves : List Move) (move : Move) :
    changes (moves ++ [move]) = changes moves + if move.isChange then 1 else 0 := by
  simp [changes, List.countP_singleton]

/-- Without a closing the runs of a document add up. -/
theorem runsOpen_append_of_open {path : String} (first : List Move) {later : List Move}
    (kept : later.any (closes path) = false) :
    runsOpen path (first ++ later) = runsOpen path first + later.countP (starts path) := by
  induction later generalizing first with
  | nil => simp
  | cons move later ih =>
      simp only [List.any_cons, Bool.or_eq_false_iff] at kept
      have moved : runsOpen path (first ++ [move]) =
          runsOpen path first + if move.starts path then 1 else 0 := by
        rw [runsOpen_concat, tally, kept.1]
        cases move.starts path <;> rfl
      calc runsOpen path (first ++ move :: later)
          = runsOpen path ((first ++ [move]) ++ later) := by simp
        _ = runsOpen path (first ++ [move]) + later.countP (starts path) := ih _ kept.2
        _ = runsOpen path first + (move :: later).countP (starts path) := by
            rw [moved, List.countP_cons]
            omega

/-- What came before a closing does not count after it. -/
theorem runsOpen_append_of_closed {path : String} (first : List Move) {later : List Move}
    (closed : later.any (closes path) = true) :
    runsOpen path (first ++ later) = runsOpen path later := by
  -- From the closing on, the count no longer depends on where it started.
  have forgets (start : Nat) : later.foldl (tally path) start = later.foldl (tally path) 0 := by
    induction later generalizing start with
    | nil => simp at closed
    | cons move later ih =>
        simp only [List.foldl_cons]
        cases shut : move.closes path with
        | true => simp [tally, shut]
        | false =>
            simp only [List.any_cons, shut, Bool.false_or] at closed
            rw [ih closed, ← ih closed (tally path 0 move)]
  simp only [runsOpen, List.foldl_append]
  exact forgets _

/-- Later moves leave the number of open runs as it was just if none of them was about the document,
or it was closed and as many runs have been started since. -/
theorem runsOpen_append_eq_iff {path : String} (first later : List Move) :
    runsOpen path (first ++ later) = runsOpen path first ↔
      (∀ move ∈ later, move.starts path = false ∧ move.closes path = false) ∨
      (∃ move ∈ later, move.closes path = true) ∧ runsOpen path later = runsOpen path first := by
  cases closed : later.any (closes path) with
  | true =>
      have some_closes : ∃ move ∈ later, move.closes path = true := List.any_eq_true.1 closed
      have not_all : ¬∀ move ∈ later, move.starts path = false ∧ move.closes path = false := by
        obtain ⟨move, member, closes⟩ := some_closes
        intro all
        simp [(all move member).2] at closes
      rw [runsOpen_append_of_closed first closed]
      exact ⟨fun same => .inr ⟨some_closes, same⟩,
        fun either => either.elim (fun all => absurd all not_all) And.right⟩
  | false =>
      have none_closes : ∀ move ∈ later, move.closes path = false := by
        simpa using List.any_eq_false.1 closed
      rw [runsOpen_append_of_open first closed]
      constructor
      · intro same
        have no_start : later.countP (starts path) = 0 := by omega
        refine .inl fun move member => ⟨?_, none_closes move member⟩
        simpa using List.countP_eq_zero.1 no_start move member
      · rintro (all | ⟨⟨move, member, closes⟩, -⟩)
        · have no_start : later.countP (starts path) = 0 :=
            List.countP_eq_zero.2 fun move member => by simp [(all move member).1]
          omega
        · rw [none_closes move member] at closes
          cases closes

end Move

namespace DiagnosticsStore

variable (store : DiagnosticsStore)

def latestNumber (path : String) : Nat :=
  (store.latest.get? path).getD 0

theorem latestNumber_congr {path other : String} (alike : Path.same path other = true) :
    store.latestNumber path = store.latestNumber other := by
  simp only [latestNumber, PathTable.get?_congr _ alike]

theorem latestNumber_start (path text other : String) :
    (store.start path text).1.latestNumber other =
      if Path.same path other then store.latestNumber path + 1 else store.latestNumber other := by
  simp only [start, latestNumber, PathTable.get?_insert]
  split <;> rfl

theorem latestNumber_close (path other : String) :
    (store.close path).latestNumber other =
      if Path.same path other then 0 else store.latestNumber other := by
  simp only [close, latestNumber, PathTable.get?_erase]
  split <;> rfl

theorem latestNumber_finish (run : LintRun) (found : List Finding) (other : String) :
    (store.finish run found).1.latestNumber other = store.latestNumber other := by
  unfold finish
  split <;> rfl

/-- Numbers start from one, so the latest number decides whether a run is the latest. -/
theorem isLatest_iff {run : LintRun} (numbered : run.number ≠ 0) :
    store.isLatest run = true ↔ store.latestNumber run.path = run.number := by
  simp only [isLatest, latestNumber, beq_iff_eq]
  cases store.latest.get? run.path with
  | none => simpa using numbered.symm
  | some number => simp

end DiagnosticsStore

namespace Desk

open Move

/-- What a desk remembers of the moves that led to it: how many runs have been started, and for each
document how many since it was last closed. -/
structure Remembers (source : String) (desk : Desk) (moves : List Move) : Prop where
  source_eq : desk.store.source = source
  length_runs : desk.runs.length = changes moves
  latestNumber : ∀ path, desk.store.latestNumber path = runsOpen path moves

theorem remembers_initial (source : String) : Remembers source (initial source) [] :=
  ⟨rfl, rfl, fun _ => rfl⟩

theorem latestNumber_finish (desk : Desk) (id : Nat) (run : LintRun)
    (answer : Option (List Finding)) (path : String) :
    (desk.finish id run answer).store.latestNumber path = desk.store.latestNumber path := by
  cases answer with
  | none => rfl
  | some found => exact desk.store.latestNumber_finish run found path

theorem length_runs_finish (desk : Desk) (id : Nat) (run : LintRun)
    (answer : Option (List Finding)) :
    (desk.finish id run answer).runs.length = desk.runs.length := by
  cases answer <;> simp [finish]

theorem source_finish (desk : Desk) (id : Nat) (run : LintRun) (answer : Option (List Finding)) :
    (desk.finish id run answer).store.source = desk.store.source := by
  cases answer with
  | none => rfl
  | some found =>
      simp only [finish, DiagnosticsStore.finish]
      split <;> rfl

theorem Remembers.step {source : String} {desk after : Desk} {moves : List Move} {move : Move}
    (remembers : Remembers source desk moves) (stepped : desk.step? move = some after) :
    Remembers source after (moves ++ [move]) := by
  obtain ⟨sourced, counted, numbers⟩ := remembers
  obtain ⟨path, text, rfl, rfl⟩ | ⟨id, run, answer, rfl, -, rfl⟩ |
    ⟨id, run, repository, answer, rfl, -, rfl⟩ | ⟨path, rfl, rfl⟩ := step?_cases stepped
  · refine ⟨sourced, by simp [changes_concat, isChange, counted], fun other => ?_⟩
    rw [DiagnosticsStore.latestNumber_start, runsOpen_concat, tally]
    cases alike : Path.same path other with
    | false => simp [closes, starts, alike, numbers]
    | true =>
        have agree : runsOpen path moves = runsOpen other moves := by
          rw [← numbers, ← numbers]
          exact desk.store.latestNumber_congr alike
        simp [closes, starts, alike, numbers, agree]
  · refine ⟨sourced, by simp [changes_concat, isChange, counted], fun other => ?_⟩
    simp [runsOpen_concat, tally, closes, starts, numbers]
  · refine ⟨by rw [source_finish, sourced],
      by simp [changes_concat, isChange, counted, length_runs_finish], fun other => ?_⟩
    simp [runsOpen_concat, tally, closes, starts, latestNumber_finish, numbers]
  · refine ⟨sourced, by simp [changes_concat, isChange, counted], fun other => ?_⟩
    rw [DiagnosticsStore.latestNumber_close, runsOpen_concat, tally, numbers]
    cases alike : Path.same path other <;> simp [closes, starts, alike]

theorem Remembers.run {source : String} {desk after : Desk} {done moves : List Move}
    (remembers : Remembers source desk done) (reached : desk.run? moves = some after) :
    Remembers source after (done ++ moves) := by
  induction moves generalizing desk done with
  | nil =>
      obtain rfl := Option.some.inj reached
      simpa using remembers
  | cons move moves ih =>
      obtain ⟨next, first, rest⟩ := Option.bind_eq_some_iff.1 reached
      simpa using ih (remembers.step first) rest

/-- A move may change the stage of a run, but neither its document nor its number. -/
theorem step?_keeps {desk after : Desk} {move : Move} (stepped : desk.step? move = some after)
    {id : Nat} {run : LintRun} {stage : RunStage} (known : desk.runs[id]? = some (run, stage)) :
    ∃ later, after.runs[id]? = some (run, later) := by
  have bound : id < desk.runs.length := (List.getElem?_eq_some_iff.1 known).1
  have kept (other : Nat) (waiting : LintRun) (before new : RunStage)
      (waits : desk.runs[other]? = some (waiting, before)) :
      ∃ later, (desk.runs.set other (waiting, new))[id]? = some (run, later) := by
    by_cases here : other = id
    · subst here
      rw [known] at waits
      obtain ⟨rfl, -⟩ := Prod.mk.inj (Option.some.inj waits)
      exact ⟨new, by simp [bound]⟩
    · exact ⟨stage, by rw [List.getElem?_set_ne here, known]⟩
  obtain ⟨path, text, rfl, rfl⟩ | ⟨other, waiting, answer, rfl, waits, rfl⟩ |
    ⟨other, waiting, repository, answer, rfl, waits, rfl⟩ | ⟨path, rfl, rfl⟩ := step?_cases stepped
  · exact ⟨stage, by rw [List.getElem?_append_left bound, known]⟩
  · exact kept other waiting .asksRepository (stageAfter answer) waits
  · cases answer with
    | none => exact kept other waiting _ (.finished none) waits
    | some found => exact kept other waiting _ _ waits
  · exact ⟨stage, known⟩

theorem run?_keeps {desk after : Desk} {moves : List Move} (reached : desk.run? moves = some after)
    {id : Nat} {run : LintRun} {stage : RunStage} (known : desk.runs[id]? = some (run, stage)) :
    ∃ later, after.runs[id]? = some (run, later) := by
  induction moves generalizing desk stage with
  | nil =>
      obtain rfl := Option.some.inj reached
      exact ⟨stage, known⟩
  | cons move moves ih =>
      obtain ⟨next, first, rest⟩ := Option.bind_eq_some_iff.1 reached
      obtain ⟨later, kept⟩ := step?_keeps first known
      exact ih rest kept

/-- The run that a change starts stands at the place that the changes before it leave, under the
number of runs that are open by then. -/
theorem started_run {source : String} {before between : List Move} {path text : String}
    {desk : Desk}
    (reached : (initial source).run? (before ++ .change path text :: between) = some desk) :
    ∃ stage, desk.runs[changes before]? =
      some (⟨path, text, runsOpen path (before ++ [.change path text])⟩, stage) := by
  rw [run?_append] at reached
  obtain ⟨first, opening, rest⟩ := Option.bind_eq_some_iff.1 reached
  obtain ⟨started, change, rest⟩ := Option.bind_eq_some_iff.1 rest
  obtain ⟨-, counted, numbers⟩ := (remembers_initial source).run opening
  rw [List.nil_append] at counted numbers
  obtain rfl := Option.some.inj change
  have number : runsOpen path (before ++ [.change path text]) =
      first.store.latestNumber path + 1 := by
    simp [runsOpen_concat, tally, closes, starts, Path.same_refl, numbers]
  refine run?_keeps rest (?_ : _ = some (_, RunStage.asksRepository))
  rw [← counted, number]
  simp [DiagnosticsStore.latestNumber]

/-- A run that waits for its linter stores the answer just if its number is the latest. -/
theorem hasStored_finish {desk : Desk} {id : Nat} {run : LintRun} {stage : RunStage}
    (known : desk.runs[id]? = some (run, stage)) (found : List Finding) :
    (desk.finish id run (some found)).HasStored id ↔ desk.store.isLatest run = true := by
  have bound : id < desk.runs.length := (List.getElem?_eq_some_iff.1 known).1
  simp only [HasStored, finish, DiagnosticsStore.finish]
  cases desk.store.isLatest run <;> simp [bound]

/-- What is stored are the diagnostics of the run, in its own text. -/
theorem get?_diagnostics_finish {desk : Desk} {id : Nat} {run : LintRun} {found : List Finding}
    (latest : desk.store.isLatest run = true) :
    (desk.finish id run (some found)).store.diagnostics.get? run.path =
      some (desk.store.diagnosticsOf run found) := by
  simp [finish, DiagnosticsStore.finish, latest, PathTable.get?_insert, Path.same_refl]

/-- Whether a late answer is stored, for every schedule: a change of a document starts a run, other
moves follow, and then the linter answers that run. The answer is stored just if either no move in
between was about the document, or the document was closed in between and since then as many of its
runs have been started as were open when this one was started. -/
theorem hasStored_iff {source : String} {before between : List Move} {path text : String}
    {found : List Finding} {desk : Desk}
    (reached : (initial source).run?
      (before ++ .change path text :: between ++ [.findings (changes before) (some found)]) =
        some desk) :
    (desk.HasStored (changes before) ↔
      (∀ move ∈ between, move.starts path = false ∧ move.closes path = false) ∨
      (∃ move ∈ between, move.closes path = true) ∧
        runsOpen path between = runsOpen path (before ++ [.change path text])) ∧
    (desk.HasStored (changes before) →
      desk.store.diagnostics.get? path =
        some (diagnose (LineIndex.ofText text.toList) source found)) := by
  obtain ⟨waiting, opening, last⟩ := run?_concat reached
  obtain ⟨stage, known⟩ := started_run opening
  obtain ⟨sourced, -, numbers⟩ := (remembers_initial source).run opening
  rw [List.nil_append] at numbers
  have ended : desk = waiting.finish (changes before)
      ⟨path, text, runsOpen path (before ++ [.change path text])⟩ (some found) := by
    simp only [step?, known] at last
    split at last
    · next run _ same =>
        obtain ⟨rfl, -⟩ := Prod.mk.inj (Option.some.inj same)
        exact (Option.some.inj last).symm
    · cases last
  have numbered : runsOpen path (before ++ [.change path text]) ≠ 0 := by
    simp [runsOpen_concat, tally, closes, starts, Path.same_refl]
  subst ended
  rw [hasStored_finish known]
  refine ⟨?_, fun latest => ?_⟩
  · have split : before ++ .change path text :: between =
        (before ++ [.change path text]) ++ between := List.append_cons ..
    rw [DiagnosticsStore.isLatest_iff _ numbered, numbers, split]
    exact runsOpen_append_eq_iff _ _
  · rw [get?_diagnostics_finish latest, DiagnosticsStore.diagnosticsOf, sourced]

/-- A schedule that stores a stale answer: a document is changed, closed and changed again, and then
the linter answers the first run. -/
def reopening : List Move :=
  [.close "ci.yml", .change "ci.yml" "new", .repository 0 (some (.ofRoot "/repo"))]

theorem hasStored_reopening :
    ∃ desk, (initial "lint").run?
        ([] ++ .change "ci.yml" "on:\n old" :: reopening ++
          [.findings 0 (some [⟨"stale", 5, 8⟩])]) = some desk ∧
      desk.HasStored 0 ∧
      desk.store.diagnostics.get? "ci.yml" =
        some [{ range := ⟨⟨1, 1⟩, ⟨1, 4⟩⟩, source := "lint", message := "stale" }] := by
  refine ⟨_, rfl, ?_⟩
  have stored := @hasStored_iff "lint" [] reopening "ci.yml" "on:\n old" [⟨"stale", 5, 8⟩] _ rfl
  have stale := stored.1.2 (.inr ⟨⟨.close "ci.yml", by decide, by decide⟩, by decide⟩)
  have shown : diagnose (LineIndex.ofText "on:\n old".toList) "lint" [⟨"stale", 5, 8⟩] =
      [{ range := ⟨⟨1, 1⟩, ⟨1, 4⟩⟩, source := "lint", message := "stale" }] := by
    decide +kernel
  exact ⟨stale, shown ▸ stored.2 stale⟩

end Desk

end WorkflowScope
