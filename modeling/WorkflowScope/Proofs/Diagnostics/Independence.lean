import WorkflowScope.Proofs.Diagnostics.Schedule
import WorkflowScope.Proofs.Path.Table

/-!
# Documents do not interfere

What happens to one document does not depend on the others. A schedule is seen from some documents
by leaving out every move about another one; the runs that are left take the places that they have
among the runs of these documents. The desk that this schedule leads to is the part of the whole
desk that belongs to the documents: their entries, the numbers of their latest runs and their runs,
each with what it has stored. A move about one document leaves the entries of all others as they
are, in their order.
-/

namespace WorkflowScope

namespace Move

/-- The document whose run a move starts. -/
def started? : Move → Option String
  | change path _ => some path
  | _ => none

/-- The document that a move is about, if the runs before it are those of the documents `started`.
-/
def document? (started : List String) : Move → Option String
  | change path _ => some path
  | repository id _ => started[id]?
  | findings id _ => started[id]?
  | close path => some path

/-- The place of a run among the runs of the documents that are kept. -/
def placeAmong (keep : String → Bool) (started : List String) (id : Nat) : Nat :=
  (started.take id).countP keep

def renumber (keep : String → Bool) (started : List String) : Move → Move
  | repository id answer => repository (placeAmong keep started id) answer
  | findings id answer => findings (placeAmong keep started id) answer
  | move => move

/-- The moves about some documents, if the runs before them are those of the documents `started`. -/
def restrictFrom (keep : String → Bool) (started : List String) : List Move → List Move
  | [] => []
  | move :: rest =>
      let later := restrictFrom keep (started ++ move.started?.toList) rest
      if (move.document? started).any keep then move.renumber keep started :: later else later

/-- A schedule without the moves about other documents. -/
def restrict (keep : String → Bool) (moves : List Move) : List Move :=
  restrictFrom keep [] moves

/-- Later moves do not change what is left of the earlier ones. -/
theorem restrictFrom_isPrefix (keep : String → Bool) (started : List String)
    (first rest : List Move) :
    restrictFrom keep started first <+: restrictFrom keep started (first ++ rest) := by
  induction first generalizing started with
  | nil => exact List.nil_prefix
  | cons move first ih =>
      simp only [List.cons_append, restrictFrom]
      split
      · exact List.cons_prefix_cons.2 ⟨rfl, ih _⟩
      · exact ih _

end Move

/-! ## Part of a store -/

namespace DiagnosticsStore

variable (store : DiagnosticsStore) {keep : String → Bool}

def restrict (keep : String → Bool) : DiagnosticsStore :=
  { store with
    diagnostics := store.diagnostics.restrict keep
    latest := store.latest.restrict keep }

section Restrict

variable (respects : ∀ {a b}, Path.same a b = true → keep a = keep b) {path : String}

include respects

theorem start_restrict (kept : keep path = true) (text : String) :
    (store.restrict keep).start path text =
      ((store.start path text).1.restrict keep, (store.start path text).2) := by
  simp only [start, restrict, PathTable.get?_restrict respects _ kept,
    PathTable.restrict_erase, PathTable.restrict_insert respects _ kept]

theorem restrict_start (dropped : keep path = false) (text : String) :
    (store.start path text).1.restrict keep = store.restrict keep := by
  simp only [start, restrict, PathTable.restrict_erase_of_dropped respects _ dropped,
    PathTable.restrict_insert_of_dropped respects _ dropped]

theorem finish_restrict {run : LintRun} (kept : keep run.path = true) (found : List Finding) :
    (store.restrict keep).finish run found =
      ((store.finish run found).1.restrict keep, (store.finish run found).2) := by
  have latest : (store.restrict keep).isLatest run = store.isLatest run := by
    simp only [isLatest, restrict, PathTable.get?_restrict respects _ kept]
  unfold finish
  rw [latest]
  split
  · simp only [restrict, diagnosticsOf, PathTable.restrict_insert respects _ kept]
  · rfl

theorem restrict_finish {run : LintRun} (dropped : keep run.path = false) (found : List Finding) :
    (store.finish run found).1.restrict keep = store.restrict keep := by
  unfold finish
  split
  · simp only [restrict, PathTable.restrict_insert_of_dropped respects _ dropped]
  · rfl

theorem restrict_close (dropped : keep path = false) :
    (store.close path).restrict keep = store.restrict keep := by
  simp only [close, restrict, PathTable.restrict_erase_of_dropped respects _ dropped]

end Restrict

theorem close_restrict (path : String) :
    (store.restrict keep).close path = (store.close path).restrict keep := by
  simp only [close, restrict, PathTable.restrict_erase]

end DiagnosticsStore

/-! ## Part of a desk -/

namespace Desk

open Move

variable {keep : String → Bool} {desk after : Desk} {move : Move} {id : Nat}

def documents (desk : Desk) : List String :=
  desk.runs.map (·.1.path)

def restrict (keep : String → Bool) (desk : Desk) : Desk :=
  { store := desk.store.restrict keep, runs := desk.runs.filter fun run => keep run.1.path }

section Runs

variable {run : LintRun} {stage : RunStage}

/-- A run stands between those that were started before it and those that were started after. -/
theorem exists_cut (known : desk.runs[id]? = some (run, stage)) :
    ∃ first rest, desk.runs = first ++ (run, stage) :: rest ∧ first.length = id := by
  obtain ⟨bound, found⟩ := List.getElem?_eq_some_iff.1 known
  refine ⟨desk.runs.take id, desk.runs.drop (id + 1), ?_,
    List.length_take_of_le (Nat.le_of_lt bound)⟩
  rw [← found, ← List.drop_eq_getElem_cons bound, List.take_append_drop]

theorem document_of_known (known : desk.runs[id]? = some (run, stage)) :
    desk.documents[id]? = some run.path := by
  simp [documents, known]

theorem documents_set (known : desk.runs[id]? = some (run, stage)) (later : RunStage) :
    (desk.runs.set id (run, later)).map (·.1.path) = desk.documents := by
  obtain ⟨first, rest, runs, rfl⟩ := exists_cut known
  simp [documents, runs]

theorem placeAmong_documents {first rest : List (LintRun × RunStage)}
    (runs : desk.runs = first ++ rest) :
    placeAmong keep desk.documents first.length =
      (first.filter fun run => keep run.1.path).length := by
  have earlier : desk.documents.take first.length = first.map (·.1.path) := by
    simp [documents, runs]
  rw [placeAmong, earlier, List.countP_map, ← List.countP_eq_length_filter]
  rfl

/-- A run of a kept document stands at its place among the runs of these documents. -/
theorem getElem?_restrict (known : desk.runs[id]? = some (run, stage))
    (kept : keep run.path = true) :
    (desk.restrict keep).runs[placeAmong keep desk.documents id]? = some (run, stage) := by
  obtain ⟨first, rest, runs, rfl⟩ := exists_cut known
  rw [placeAmong_documents runs]
  simp [restrict, runs, kept]

theorem filter_set (known : desk.runs[id]? = some (run, stage)) (kept : keep run.path = true)
    (later : RunStage) :
    (desk.runs.set id (run, later)).filter (fun run => keep run.1.path) =
      (desk.restrict keep).runs.set (placeAmong keep desk.documents id) (run, later) := by
  obtain ⟨first, rest, runs, rfl⟩ := exists_cut known
  rw [placeAmong_documents runs]
  simp [restrict, runs, kept]

theorem filter_set_of_dropped (known : desk.runs[id]? = some (run, stage))
    (dropped : keep run.path = false) (later : RunStage) :
    (desk.runs.set id (run, later)).filter (fun run => keep run.1.path) =
      (desk.restrict keep).runs := by
  obtain ⟨first, rest, runs, rfl⟩ := exists_cut known
  simp [restrict, runs, dropped]

end Runs

theorem documents_step? (stepped : desk.step? move = some after) :
    after.documents = desk.documents ++ move.started?.toList := by
  obtain ⟨path, text, rfl, rfl⟩ | ⟨id, run, answer, rfl, waits, rfl⟩ |
    ⟨id, run, repository, answer, rfl, waits, rfl⟩ | ⟨path, rfl, rfl⟩ := step?_cases stepped
  · simp [documents, started?, DiagnosticsStore.start]
  · simpa [documents, started?] using documents_set waits (stageAfter answer)
  · cases answer with
    | none => simpa [documents, started?, finish] using documents_set waits (.finished none)
    | some found =>
        simpa [documents, started?, finish] using
          documents_set waits (.finished (desk.store.finish run found).2)
  · simp [documents, started?]

/-- A move that can be made is about a document. -/
theorem exists_document (stepped : desk.step? move = some after) :
    ∃ path, move.document? desk.documents = some path := by
  obtain ⟨path, text, rfl, rfl⟩ | ⟨id, run, answer, rfl, waits, rfl⟩ |
    ⟨id, run, repository, answer, rfl, waits, rfl⟩ | ⟨path, rfl, rfl⟩ := step?_cases stepped
  · exact ⟨path, rfl⟩
  · exact ⟨run.path, document_of_known waits⟩
  · exact ⟨run.path, document_of_known waits⟩
  · exact ⟨path, rfl⟩

section Restrict

variable (respects : ∀ {a b}, Path.same a b = true → keep a = keep b)

include respects

theorem finish_restrict {run : LintRun} {stage : RunStage}
    (known : desk.runs[id]? = some (run, stage)) (kept : keep run.path = true)
    (answer : Option (List Finding)) :
    (desk.restrict keep).finish (placeAmong keep desk.documents id) run answer =
      (desk.finish id run answer).restrict keep := by
  cases answer with
  | none => simp only [finish, restrict, filter_set known kept]
  | some found =>
      have stored := desk.store.finish_restrict respects kept found
      simp only [finish, restrict, stored, filter_set known kept]

theorem restrict_finish {run : LintRun} {stage : RunStage}
    (known : desk.runs[id]? = some (run, stage)) (dropped : keep run.path = false)
    (answer : Option (List Finding)) :
    (desk.finish id run answer).restrict keep = desk.restrict keep := by
  cases answer with
  | none => simp only [finish, restrict, filter_set_of_dropped known dropped]
  | some found =>
      simp only [finish, restrict, desk.store.restrict_finish respects dropped found,
        filter_set_of_dropped known dropped]

/-- A move about a kept document is the same move at the part of the desk. -/
theorem step?_restrict (stepped : desk.step? move = some after) {path : String}
    (about : move.document? desk.documents = some path) (kept : keep path = true) :
    (desk.restrict keep).step? (move.renumber keep desk.documents) =
      some (after.restrict keep) := by
  obtain ⟨path, text, rfl, rfl⟩ | ⟨id, run, answer, rfl, waits, rfl⟩ |
    ⟨id, run, repository, answer, rfl, waits, rfl⟩ | ⟨path, rfl, rfl⟩ := step?_cases stepped
  · cases about
    have numbered := desk.store.start_restrict respects kept text
    have own : keep (desk.store.start path text).2.path = true := kept
    simp only [renumber, step?, restrict, numbered, List.filter_append, List.filter_cons,
      List.filter_nil, own, if_true]
  · rw [document?, document_of_known waits] at about
    cases about
    simp only [renumber, step?, getElem?_restrict waits kept]
    simp only [restrict, filter_set waits kept]
  · rw [document?, document_of_known waits] at about
    cases about
    simp only [renumber, step?, getElem?_restrict waits kept, finish_restrict respects waits kept]
  · cases about
    simp only [renumber, step?, restrict, DiagnosticsStore.close_restrict]

/-- A move about another document leaves the part of the desk as it is. -/
theorem restrict_of_step? (stepped : desk.step? move = some after) {path : String}
    (about : move.document? desk.documents = some path) (dropped : keep path = false) :
    after.restrict keep = desk.restrict keep := by
  obtain ⟨path, text, rfl, rfl⟩ | ⟨id, run, answer, rfl, waits, rfl⟩ |
    ⟨id, run, repository, answer, rfl, waits, rfl⟩ | ⟨path, rfl, rfl⟩ := step?_cases stepped
  · cases about
    have own : keep (desk.store.start path text).2.path = false := dropped
    simp only [restrict, desk.store.restrict_start respects dropped, List.filter_append,
      List.filter_cons, List.filter_nil, own, Bool.false_eq_true, if_false, List.append_nil]
  · rw [document?, document_of_known waits] at about
    cases about
    simp only [restrict, filter_set_of_dropped waits dropped]
  · rw [document?, document_of_known waits] at about
    cases about
    exact restrict_finish respects waits dropped answer
  · cases about
    simp only [restrict, desk.store.restrict_close respects dropped]

/-- Moves lead from the part of a desk to the part of the desk to which they lead. -/
theorem run?_restrict {moves : List Move} (reached : desk.run? moves = some after) :
    (desk.restrict keep).run? (restrictFrom keep desk.documents moves) =
      some (after.restrict keep) := by
  induction moves generalizing desk with
  | nil =>
      obtain rfl := Option.some.inj reached
      rfl
  | cons move rest ih =>
      obtain ⟨next, stepped, further⟩ := Option.bind_eq_some_iff.1 reached
      obtain ⟨path, about⟩ := exists_document stepped
      have later := ih further
      rw [documents_step? stepped] at later
      rw [restrictFrom, about, Option.any_some]
      cases kept : keep path with
      | true =>
          rw [if_pos rfl, run?, step?_restrict respects stepped about kept]
          exact later
      | false =>
          rw [if_neg Bool.false_ne_true, ← restrict_of_step? respects stepped about kept]
          exact later

end Restrict

/-- A schedule does the same to a document when all moves about other documents are left out, at
every point of the schedule: its diagnostics are the same, and so are its runs, each as far as it
has come and with what it has stored. And a move about one document leaves the entries of all others
as they are, in their order. -/
theorem documents_independent {source path : String} {moves : List Move}
    (reached : (initial source).run? moves = some desk) :
    (∃ alone, (initial source).run? (Move.restrict (Path.same · path) moves) = some alone ∧
      alone.store.diagnostics.get? path = desk.store.diagnostics.get? path ∧
      alone.store.lookup path = desk.store.lookup path ∧
      alone.runs = desk.runs.filter fun run => Path.same run.1.path path) ∧
    (∀ rest, Move.restrict (Path.same · path) moves <+:
      Move.restrict (Path.same · path) (moves ++ rest)) ∧
    ∀ move after other, desk.step? move = some after →
      move.document? desk.documents = some other →
      after.store.diagnostics.entries.filter (fun entry => !Path.same entry.1 other) =
        desk.store.diagnostics.entries.filter fun entry => !Path.same entry.1 other := by
  have entry := PathTable.get?_restrict (Path.same_congr · path) desk.store.diagnostics
    (Path.same_refl path)
  refine ⟨⟨desk.restrict (Path.same · path), ?_, entry, ?_, rfl⟩, ?_, ?_⟩
  · exact run?_restrict (Path.same_congr · path) reached
  · exact congrArg (Option.getD · []) entry
  · intro rest
    exact restrictFrom_isPrefix _ _ _ _
  · intro move after other stepped about
    have kept := @restrict_of_step? (fun spelled => !Path.same spelled other) _ _ _
      (fun alike => by rw [Path.same_congr alike]) stepped _ about (by simp [Path.same_refl])
    exact congrArg (·.store.diagnostics.entries) kept

/-- Two documents are changed and linted in turns, one of them under two spellings, and the other is
closed. -/
def interleaved : List Move :=
  [.change "b/ci.yml" "on", .change "a/ci.yml" "old", .repository 0 (some (.ofRoot "/repo")),
    .change "a//ci.yml" "on:\n new", .repository 1 (some (.ofRoot "/repo")),
    .findings 0 (some [⟨"other", 0, 2⟩]), .repository 2 (some (.ofRoot "/repo")),
    .findings 2 (some [⟨"late", 5, 8⟩]), .close "b/ci.yml", .findings 1 (some [⟨"stale", 0, 3⟩])]

theorem documents_independent_interleaved :
    Move.restrict (Path.same · "a/ci.yml") interleaved =
      [.change "a/ci.yml" "old", .change "a//ci.yml" "on:\n new",
        .repository 0 (some (.ofRoot "/repo")), .repository 1 (some (.ofRoot "/repo")),
        .findings 1 (some [⟨"late", 5, 8⟩]), .findings 0 (some [⟨"stale", 0, 3⟩])] ∧
    ∃ desk alone, (initial "lint").run? interleaved = some desk ∧
      (initial "lint").run? (Move.restrict (Path.same · "a/ci.yml") interleaved) = some alone ∧
      alone.store.lookup "a/ci.yml" = desk.store.lookup "a/ci.yml" ∧
      desk.store.lookup "a/ci.yml" =
        [{ range := ⟨⟨1, 1⟩, ⟨1, 4⟩⟩, source := "lint", message := "late" }] := by
  refine ⟨by decide +kernel, ?_⟩
  obtain ⟨desk, reached⟩ : ∃ desk, (initial "lint").run? interleaved = some desk := ⟨_, rfl⟩
  obtain ⟨⟨alone, led, -, same, -⟩, -, -⟩ :=
    @documents_independent desk "lint" "a/ci.yml" interleaved reached
  have shown : ((initial "lint").run? interleaved).map (·.store.lookup "a/ci.yml") =
      some [{ range := ⟨⟨1, 1⟩, ⟨1, 4⟩⟩, source := "lint", message := "late" }] := by
    decide +kernel
  rw [reached] at shown
  exact ⟨desk, alone, reached, led, same, Option.some.inj shown⟩

end Desk

end WorkflowScope
