import WorkflowScope.Proofs.Diagnostics.Staleness
import WorkflowScope.Proofs.Path.Log

/-!
# What the store holds

A schedule is orderly for a document if no run of it starts after a closing while one from before
the closing still waits. Then the numbers of runs cannot be mistaken, and the store holds for the
document just the diagnostics of its newest run: from the moment at which the linter has answered
that run until the document is changed again or closed, however late older runs are answered.
-/

namespace WorkflowScope

namespace Move

def Quiet (path : String) (moves : List Move) : Prop :=
  ∀ move ∈ moves, move.starts path = false ∧ move.closes path = false

theorem starts_congr {path other : String} (alike : Path.same path other = true) (move : Move) :
    move.starts path = move.starts other := by
  cases move with
  | change spelled text =>
      simp only [starts]
      rw [Path.same_comm, Path.same_congr alike, Path.same_comm]
  | _ => rfl

theorem closes_congr {path other : String} (alike : Path.same path other = true) (move : Move) :
    move.closes path = move.closes other := by
  cases move with
  | close spelled =>
      simp only [closes]
      rw [Path.same_comm, Path.same_congr alike, Path.same_comm]
  | _ => rfl

theorem quiet_congr {path other : String} (alike : Path.same path other = true)
    (moves : List Move) : Quiet path moves ↔ Quiet other moves := by
  simp only [Quiet, starts_congr alike, closes_congr alike]

theorem changes_cons (move : Move) (rest : List Move) :
    changes (move :: rest) = changes rest + if move.isChange then 1 else 0 :=
  List.countP_cons

/-- The changes of a schedule are counted by those before them. -/
theorem exists_change_of_lt {moves : List Move} {id : Nat} (bound : id < changes moves) :
    ∃ before path text between, moves = before ++ .change path text :: between ∧
      changes before = id := by
  induction moves generalizing id with
  | nil => simp [changes] at bound
  | cons move rest ih =>
      rw [changes_cons] at bound
      cases started : move.isChange with
      | false =>
          simp only [started, Bool.false_eq_true, if_false, Nat.add_zero] at bound
          obtain ⟨before, path, text, between, rfl, place⟩ := ih bound
          exact ⟨move :: before, path, text, between, rfl, by simp [changes_cons, started, place]⟩
      | true =>
          obtain ⟨path, text, rfl⟩ : ∃ path text, move = .change path text := by
            cases move with
            | change path text => exact ⟨path, text, rfl⟩
            | _ => cases started
          cases id with
          | zero => exact ⟨[], path, text, rest, rfl, rfl⟩
          | succ id =>
              simp only [started, if_true, Nat.add_lt_add_iff_right] at bound
              obtain ⟨before, other, new, between, rfl, place⟩ := ih bound
              exact ⟨.change path text :: before, other, new, between, rfl, by
                simp [changes_cons, started, place]⟩

/-- Two ways to cut a schedule at a change are the same, or one cuts further on. -/
theorem split_cases {before before' between between' : List Move} {move move' : Move}
    (same : before ++ move :: between = before' ++ move' :: between') :
    (before = before' ∧ move = move' ∧ between = between') ∨
      (∃ rest, before' = before ++ move :: rest ∧ move' ∈ between) ∨
      (∃ rest, before = before' ++ move' :: rest ∧ move ∈ between') := by
  rcases List.append_eq_append_iff.1 same with ⟨rest, front, back⟩ | ⟨rest, front, back⟩
  · cases rest with
    | nil =>
        obtain ⟨rfl, rfl⟩ := List.cons.inj back
        exact .inl ⟨by simpa using front.symm, rfl, rfl⟩
    | cons first rest =>
        obtain ⟨rfl, rfl⟩ := List.cons.inj back
        exact .inr (.inl ⟨rest, front, by simp⟩)
  · cases rest with
    | nil =>
        obtain ⟨rfl, rfl⟩ := List.cons.inj back
        exact .inl ⟨by simpa using front, rfl, rfl⟩
    | cons first rest =>
        obtain ⟨rfl, rfl⟩ := List.cons.inj back
        exact .inr (.inr ⟨rest, front, by simp⟩)

/-- A change is known by the number of changes before it. -/
theorem eq_of_changes_eq {before before' between between' : List Move} {move move' : Move}
    (same : before ++ move :: between = before' ++ move' :: between')
    (started : move.isChange = true) (started' : move'.isChange = true)
    (place : changes before = changes before') :
    before = before' ∧ move = move' ∧ between = between' := by
  rcases split_cases same with equal | ⟨rest, rfl, -⟩ | ⟨rest, rfl, -⟩
  · exact equal
  · simp only [changes, List.countP_append, List.countP_cons, started, if_true] at place
    omega
  · simp only [changes, List.countP_append, List.countP_cons, started', if_true] at place
    omega

/-- A document has one newest run. -/
theorem eq_of_quiet {path : String} {before before' between between' : List Move}
    {move move' : Move} (same : before ++ move :: between = before' ++ move' :: between')
    (started : move.starts path = true) (started' : move'.starts path = true)
    (quiet : Quiet path between) (quiet' : Quiet path between') :
    before = before' ∧ move = move' ∧ between = between' := by
  rcases split_cases same with equal | ⟨-, -, member⟩ | ⟨-, -, member⟩
  · exact equal
  · rw [(quiet move' member).1] at started'
    cases started'
  · rw [(quiet' move member).1] at started
    cases started

/-- Runs that are open after a closing have been started behind it. -/
theorem exists_reopening {path : String} {moves : List Move}
    (closed : moves.any (closes path) = true) (opened : 0 < runsOpen path moves) :
    ∃ first again text rest, moves = first ++ .change again text :: rest ∧
      Path.same again path = true ∧ first.any (closes path) = true := by
  induction moves with
  | nil => simp at closed
  | cons move rest ih =>
      cases later : rest.any (closes path) with
      | true =>
          have forgets : runsOpen path ([move] ++ rest) = runsOpen path rest :=
            runsOpen_append_of_closed [move] later
          obtain ⟨first, again, text, last, rfl, alike, before⟩ := ih later (by
            rw [← forgets]
            exact opened)
          exact ⟨move :: first, again, text, last, rfl, alike, by simp [before]⟩
      | false =>
          have shut : move.closes path = true := by simpa [later] using closed
          have counted : runsOpen path ([move] ++ rest) =
              runsOpen path [move] + rest.countP (starts path) :=
            runsOpen_append_of_open [move] later
          have none_left : runsOpen path [move] = 0 := by simp [runsOpen, tally, shut]
          rw [List.singleton_append, none_left, Nat.zero_add] at counted
          rw [counted, List.countP_pos_iff] at opened
          obtain ⟨start, member, started⟩ := opened
          obtain ⟨first, last, rfl⟩ := List.append_of_mem member
          cases start with
          | change again text =>
              exact ⟨move :: first, again, text, last, rfl, started, by simp [shut]⟩
          | _ => cases started

end Move

namespace Desk

open Move

variable {source path : String} {moves : List Move} {move : Move} {desk after : Desk} {id : Nat}

/-! ## The life of a run -/

def hasFinished (desk : Desk) (id : Nat) : Bool :=
  match desk.runs[id]? with
  | some (_, .finished _) => true
  | _ => false

theorem exists_of_hasFinished (ended : desk.hasFinished id = true) :
    ∃ run stored, desk.runs[id]? = some (run, .finished stored) := by
  unfold hasFinished at ended
  split at ended
  · next run stored found => exact ⟨run, stored, found⟩
  · cases ended

/-- Which stages a move can give to a run. -/
theorem step?_stage {run : LintRun} {stage later : RunStage} (stepped : desk.step? move = some after)
    (known : desk.runs[id]? = some (run, stage)) (now : after.runs[id]? = some (run, later)) :
    later = stage ∨
      (∃ answer, move = .repository id answer ∧ stage = .asksRepository ∧ later = stageAfter answer) ∨
      (∃ answer repository stored, move = .findings id answer ∧ stage = .asksFindings repository ∧
        later = .finished stored) := by
  have bound : id < desk.runs.length := (List.getElem?_eq_some_iff.1 known).1
  have unchanged (same : after.runs[id]? = desk.runs[id]?) : later = stage := by
    rw [same, known] at now
    exact (congrArg Prod.snd (Option.some.inj now)).symm
  obtain ⟨path, text, rfl, rfl⟩ | ⟨other, waiting, answer, rfl, waits, rfl⟩ |
    ⟨other, waiting, repository, answer, rfl, waits, rfl⟩ | ⟨path, rfl, rfl⟩ := step?_cases stepped
  · exact .inl (unchanged (List.getElem?_append_left bound))
  · by_cases here : other = id
    · subst here
      rw [known] at waits
      rw [List.getElem?_set_self bound] at now
      cases waits
      cases now
      exact .inr (.inl ⟨answer, rfl, rfl, rfl⟩)
    · exact .inl (unchanged (List.getElem?_set_ne here))
  · have replaced : ∃ stored,
        (desk.finish other waiting answer).runs = desk.runs.set other (waiting, .finished stored) := by
      cases answer with
      | none => exact ⟨none, rfl⟩
      | some found => exact ⟨_, rfl⟩
    obtain ⟨stored, replaced⟩ := replaced
    by_cases here : other = id
    · subst here
      rw [known] at waits
      rw [replaced, List.getElem?_set_self bound] at now
      cases waits
      cases now
      exact .inr (.inr ⟨answer, repository, stored, rfl, rfl, rfl⟩)
    · exact .inl (unchanged (by rw [replaced, List.getElem?_set_ne here]))
  · exact .inl (unchanged rfl)

/-- A run that has ended stays so. -/
theorem run?_finished {run : LintRun} {stored : Option Nat} (reached : desk.run? moves = some after)
    (ended : desk.runs[id]? = some (run, .finished stored)) :
    after.runs[id]? = some (run, .finished stored) := by
  induction moves generalizing desk with
  | nil =>
      obtain rfl := Option.some.inj reached
      exact ended
  | cons move rest ih =>
      obtain ⟨next, first, rest⟩ := Option.bind_eq_some_iff.1 reached
      obtain ⟨later, kept⟩ := step?_keeps first ended
      rcases step?_stage first ended kept with rfl | ⟨_, -, other, -⟩ | ⟨_, _, _, -, other, -⟩
      · exact ih rest kept
      · cases other
      · cases other

/-- A run that waits for its linter has been told its repository. -/
theorem repository_mem {run : LintRun} {stage : RunStage} {repository : Repository}
    (reached : desk.run? moves = some after) (known : desk.runs[id]? = some (run, stage))
    (fresh : stage ≠ .asksFindings repository)
    (waits : after.runs[id]? = some (run, .asksFindings repository)) :
    .repository id (some repository) ∈ moves := by
  induction moves generalizing desk stage with
  | nil =>
      obtain rfl := Option.some.inj reached
      rw [known] at waits
      exact absurd (congrArg Prod.snd (Option.some.inj waits)) fresh
  | cons move rest ih =>
      obtain ⟨next, first, rest⟩ := Option.bind_eq_some_iff.1 reached
      obtain ⟨later, kept⟩ := step?_keeps first known
      by_cases now : later = .asksFindings repository
      · subst now
        rcases step?_stage first known kept with same | ⟨answer, rfl, -, told⟩ | ⟨_, _, _, -, -, other⟩
        · exact absurd same.symm fresh
        · cases answer with
          | none => cases told
          | some found =>
              cases told
              exact List.mem_cons_self
        · cases other
      · exact List.mem_cons_of_mem _ (ih rest kept now)

/-- A run whose linter has answered was waiting for that, and has ended. -/
theorem answered_of_mem {answer : Option (List Finding)} (reached : desk.run? moves = some after)
    (answered : .findings id answer ∈ moves) :
    ∃ first rest before run repository stored, moves = first ++ .findings id answer :: rest ∧
      desk.run? first = some before ∧ before.runs[id]? = some (run, .asksFindings repository) ∧
      after.runs[id]? = some (run, .finished stored) := by
  obtain ⟨first, rest, rfl⟩ := List.append_of_mem answered
  rw [run?_append] at reached
  obtain ⟨before, opening, last⟩ := Option.bind_eq_some_iff.1 reached
  obtain ⟨next, stepped, last⟩ := Option.bind_eq_some_iff.1 last
  have waiting : ∃ run repository, before.runs[id]? = some (run, .asksFindings repository) := by
    simp only [step?] at stepped
    split at stepped
    · next run repository waits => exact ⟨run, repository, waits⟩
    · cases stepped
  obtain ⟨run, repository, waits⟩ := waiting
  have ended : ∃ stored, next.runs[id]? = some (run, .finished stored) := by
    have bound : id < before.runs.length := (List.getElem?_eq_some_iff.1 waits).1
    simp only [step?, waits, Option.some.injEq] at stepped
    subst stepped
    cases answer with
    | none => exact ⟨none, List.getElem?_set_self bound⟩
    | some found => exact ⟨_, List.getElem?_set_self bound⟩
  obtain ⟨stored, ended⟩ := ended
  exact ⟨first, rest, before, run, repository, stored, rfl, opening, waits,
    run?_finished last ended⟩

/-- A run that has just been started waits for its repository. -/
theorem fresh_run {before : List Move} {spelled text : String}
    (reached : (initial source).run? (before ++ [.change spelled text]) = some desk) :
    ∃ run, desk.runs[changes before]? = some (run, .asksRepository) := by
  obtain ⟨first, opening, change⟩ := run?_concat reached
  obtain ⟨-, counted, -⟩ := (remembers_initial source).run opening
  obtain rfl := Option.some.inj change
  rw [List.nil_append] at counted
  rw [← counted]
  exact ⟨_, List.getElem?_concat_length⟩

/-- Every run was started by a change. -/
theorem exists_started {run : LintRun} {stage : RunStage}
    (reached : (initial source).run? moves = some desk)
    (known : desk.runs[id]? = some (run, stage)) :
    ∃ before spelled text between, moves = before ++ .change spelled text :: between ∧
      changes before = id ∧
      run = ⟨spelled, text, runsOpen spelled (before ++ [.change spelled text])⟩ := by
  obtain ⟨-, counted, -⟩ := (remembers_initial source).run reached
  have bound : id < changes moves := by
    rw [List.nil_append] at counted
    rw [← counted]
    exact (List.getElem?_eq_some_iff.1 known).1
  obtain ⟨before, spelled, text, between, rfl, rfl⟩ := exists_change_of_lt bound
  obtain ⟨stage', found⟩ := started_run reached
  rw [known] at found
  exact ⟨before, spelled, text, between, rfl, rfl, congrArg Prod.fst (Option.some.inj found)⟩

/-! ## Orderly schedules -/

/-- Whenever a move `k` starts a run of a document that a move `j` has closed, the runs of it that
moves `i` before the closing have started are over. -/
def Orderly (source path : String) (moves : List Move) : Prop :=
  ∀ k < moves.length, ∀ j < k, ∀ i < j,
    moves[k]?.any (starts path) = true ∧ moves[j]?.any (closes path) = true ∧
      moves[i]?.any (starts path) = true →
        ((initial source).run? (moves.take k)).all
          (·.hasFinished (changes (moves.take i))) = true

instance (source path : String) (moves : List Move) : Decidable (Orderly source path moves) := by
  unfold Orderly
  infer_instance

theorem Orderly.of_append {rest : List Move} (orderly : Orderly source path (moves ++ rest)) :
    Orderly source path moves := by
  intro k inside j before i earlier
  have found := orderly k (by simp; omega) j before i earlier
  rwa [List.getElem?_append_left inside, List.getElem?_append_left (by omega),
    List.getElem?_append_left (by omega), List.take_append_of_le_length (by omega),
    List.take_append_of_le_length (by omega)] at found

/-- When a run of a document is started again, one from before a closing is over. -/
theorem Orderly.finished {before between rest : List Move} {spelled old again text : String}
    (orderly : Orderly source path
      ((before ++ .change spelled old :: between) ++ .change again text :: rest))
    (first : Path.same spelled path = true) (second : Path.same again path = true)
    (closed : between.any (closes path) = true)
    (reached : (initial source).run? (before ++ .change spelled old :: between) = some desk) :
    desk.hasFinished (changes before) = true := by
  obtain ⟨shut, member, closes⟩ := List.any_eq_true.1 closed
  obtain ⟨place, inside, found⟩ := List.mem_iff_getElem.1 member
  have here : between[place]? = some shut := by rw [List.getElem?_eq_getElem inside, found]
  have length : (before ++ .change spelled old :: between).length =
      before.length + 1 + between.length := by
    simp
    omega
  have ended := orderly (before ++ .change spelled old :: between).length (by simp)
    (before.length + 1 + place) (by omega) before.length (by omega)
  rw [List.take_left, List.append_assoc, List.take_left] at ended
  rw [reached] at ended
  refine ended ⟨?_, ?_, ?_⟩
  · rw [← List.append_assoc, List.getElem?_append_right (Nat.le_refl _), Nat.sub_self]
    exact second
  · rw [List.getElem?_append_right (by omega), Nat.add_assoc, Nat.add_sub_cancel_left,
      Nat.add_comm 1, List.cons_append, List.getElem?_cons_succ, List.getElem?_append_left inside,
      here]
    exact closes
  · rw [List.getElem?_append_right (Nat.le_refl _), Nat.sub_self]
    exact first

/-- In an orderly schedule the number of a run that still waits is the latest just if the run is the
newest of its document and the document has not been closed. -/
theorem isLatest_iff_quiet {before between : List Move} {spelled text : String}
    {run : LintRun} {stage : RunStage}
    (orderly : Orderly source path (before ++ .change spelled text :: between))
    (reached : (initial source).run? (before ++ .change spelled text :: between) = some desk)
    (alike : Path.same spelled path = true)
    (known : desk.runs[changes before]? = some (run, stage))
    (waits : ∀ stored, stage ≠ .finished stored) :
    desk.store.isLatest run = true ↔ Quiet path between := by
  obtain ⟨stage', started⟩ := started_run reached
  obtain ⟨-, -, numbers⟩ := (remembers_initial source).run reached
  rw [List.nil_append] at numbers
  rw [known] at started
  have same : run = ⟨spelled, text, runsOpen spelled (before ++ [.change spelled text])⟩ :=
    congrArg Prod.fst (Option.some.inj started)
  subst same
  have numbered : runsOpen spelled (before ++ [.change spelled text]) ≠ 0 := by
    simp [runsOpen_concat, tally, closes, starts, Path.same_refl]
  have cut : before ++ .change spelled text :: between =
      (before ++ [.change spelled text]) ++ between := List.append_cons ..
  rw [DiagnosticsStore.isLatest_iff _ numbered, numbers, cut, runsOpen_append_eq_iff,
    ← quiet_congr alike, or_iff_left]
  · rfl
  · rintro ⟨shut, counted⟩
    -- A run behind a closing would have been started while this one still waited.
    have opened : 0 < runsOpen spelled between := by
      rw [counted]
      exact Nat.pos_of_ne_zero numbered
    obtain ⟨first, again, new, rest, rfl, same, closed⟩ :=
      exists_reopening (List.any_eq_true.2 shut) opened
    have split : before ++ .change spelled text :: (first ++ .change again new :: rest) =
        (before ++ .change spelled text :: first) ++ .change again new :: rest := by simp
    rw [split] at orderly reached
    rw [run?_append] at reached
    obtain ⟨middle, opening, last⟩ := Option.bind_eq_some_iff.1 reached
    have closed : first.any (closes path) = true := by
      rwa [funext (closes_congr alike)] at closed
    have ended := orderly.finished alike (by rw [Path.same_congr same, alike]) closed opening
    obtain ⟨_, stored, finished⟩ := exists_of_hasFinished ended
    have now := run?_finished last finished
    rw [known] at now
    exact waits stored (congrArg Prod.snd (Option.some.inj now))

/-! ## What is stored -/

/-- The newest run of a document has been answered with these diagnostics, and the document has not
been closed since that run was started. -/
def Reports (source path : String) (moves : List Move) (diagnostics : List Diagnostic) : Prop :=
  ∃ before spelled text between found, moves = before ++ .change spelled text :: between ∧
    Path.same spelled path = true ∧ Quiet path between ∧
    .findings (changes before) (some found) ∈ between ∧
    diagnostics = diagnose (LineIndex.ofText text.toList) source found

variable {diagnostics : List Diagnostic}

/-- A move about the document ends what was reported. -/
theorem not_reports_concat (about : move.starts path = true ∨ move.closes path = true) :
    ¬ Reports source path (moves ++ [move]) diagnostics := by
  rintro ⟨before, spelled, text, between, found, same, -, quiet, answered, -⟩
  have last : move ∈ between := by
    rcases concat_eq_cut_iff.1 same with ⟨rfl, rfl, rfl⟩ | ⟨front, rfl, -⟩
    · cases answered
    · simp
  obtain ⟨starts, closes⟩ := quiet move last
  rcases about with started | closed
  · rw [starts] at started
    cases started
  · rw [closes] at closed
    cases closed

/-- Any other move adds a report only if it is the answer to the newest run. -/
theorem reports_concat_iff (quiet : move.starts path = false ∧ move.closes path = false) :
    Reports source path (moves ++ [move]) diagnostics ↔
      Reports source path moves diagnostics ∨
        ∃ before spelled text between found, moves = before ++ .change spelled text :: between ∧
          Path.same spelled path = true ∧ Quiet path between ∧
          move = .findings (changes before) (some found) ∧
          diagnostics = diagnose (LineIndex.ofText text.toList) source found := by
  constructor
  · rintro ⟨before, spelled, text, between, found, same, alike, still, answered, rfl⟩
    rcases concat_eq_cut_iff.1 same with ⟨rfl, rfl, rfl⟩ | ⟨front, rfl, rfl⟩
    · cases answered
    · have earlier : Quiet path front := fun other member => still other (by simp [member])
      rcases List.mem_append.1 answered with before_now | now
      · exact .inl ⟨before, spelled, text, front, found, rfl, alike, earlier, before_now, rfl⟩
      · exact .inr ⟨before, spelled, text, front, found, rfl, alike, earlier,
          (List.mem_singleton.1 now).symm, rfl⟩
  · have extend {between : List Move} (still : Quiet path between) :
        Quiet path (between ++ [move]) := by
      intro other member
      rcases List.mem_append.1 member with earlier | now
      · exact still other earlier
      · rw [List.mem_singleton.1 now]
        exact quiet
    rintro (⟨before, spelled, text, between, found, rfl, alike, still, answered, rfl⟩ |
      ⟨before, spelled, text, between, found, rfl, alike, still, rfl, rfl⟩)
    · exact ⟨before, spelled, text, between ++ [move], found, by simp, alike, extend still,
        by simp [answered], rfl⟩
    · exact ⟨before, spelled, text, _, found, by simp, alike, extend still, by simp, rfl⟩

/-- The entry of a document is what its newest run reports. -/
def Stores (source path : String) (desk : Desk) (moves : List Move) : Prop :=
  ∀ diagnostics, desk.store.diagnostics.get? path = some diagnostics ↔
    Reports source path moves diagnostics

/-- A move that is no answer of the linter adds no report. -/
theorem Stores.of_unanswered (stores : Stores source path desk moves)
    (quiet : move.starts path = false ∧ move.closes path = false)
    (unanswered : ∀ id found, move ≠ .findings id (some found))
    (kept : after.store.diagnostics.get? path = desk.store.diagnostics.get? path) :
    Stores source path after (moves ++ [move]) := by
  intro diagnostics
  rw [kept, stores diagnostics, reports_concat_iff quiet, or_iff_left]
  rintro ⟨before, _, _, _, found, -, -, -, answer, -⟩
  exact unanswered _ _ answer

/-- The linter answers a run that waits. -/
theorem Stores.answered {run : LintRun} {found : List Finding} {repository : Repository}
    (stores : Stores source path desk moves) (orderly : Orderly source path moves)
    (reached : (initial source).run? moves = some desk)
    (waits : desk.runs[id]? = some (run, .asksFindings repository)) :
    Stores source path (desk.finish id run (some found)) (moves ++ [.findings id (some found)]) := by
  obtain ⟨before, spelled, text, between, rfl, rfl, same⟩ := exists_started reached waits
  obtain ⟨sourced, -, -⟩ := (remembers_initial source).run reached
  have elsewhere (missed : desk.store.isLatest run = false ∨ Path.same spelled path = false) :
      (desk.finish (changes before) run (some found)).store.diagnostics.get? path =
        desk.store.diagnostics.get? path := by
    simp only [finish, DiagnosticsStore.finish]
    rcases missed with stale | apart
    · simp [stale]
    · split
      · simp [PathTable.get?_insert, same, apart]
      · rfl
  intro diagnostics
  rw [reports_concat_iff ⟨rfl, rfl⟩]
  by_cases newest : Path.same spelled path = true ∧ Quiet path between
  · obtain ⟨alike, quiet⟩ := newest
    have latest := (isLatest_iff_quiet orderly reached alike waits (by simp)).2 quiet
    have entry : (desk.finish (changes before) run (some found)).store.diagnostics.get? path =
        some (diagnose (LineIndex.ofText text.toList) source found) := by
      rw [← PathTable.get?_congr _ alike]
      have stored := @get?_diagnostics_finish _ (changes before) _ found latest
      rw [DiagnosticsStore.diagnosticsOf, sourced] at stored
      simpa [same] using stored
    rw [entry, Option.some.injEq]
    constructor
    · rintro rfl
      exact .inr ⟨before, spelled, text, between, found, rfl, alike, quiet, rfl, rfl⟩
    · rintro (⟨first, spelled', text', later, found', cut, alike', quiet', answered, rfl⟩ |
        ⟨first, spelled', text', later, found', cut, alike', quiet', answer, rfl⟩)
      · -- The newest run waits, so it has not been answered.
        obtain ⟨rfl, -, rfl⟩ := eq_of_quiet cut alike alike' quiet quiet'
        obtain ⟨_, _, _, _, _, stored, -, -, -, ended⟩ := answered_of_mem reached
          (List.mem_append_right before (List.mem_cons_of_mem _ answered))
        rw [waits] at ended
        cases ended
      · obtain ⟨-, started, -⟩ := eq_of_quiet cut alike alike' quiet quiet'
        injection started with _ same_text
        injection answer with _ same_answer
        rw [same_text, Option.some.inj same_answer]
  · have missed : desk.store.isLatest run = false ∨ Path.same spelled path = false := by
      cases alike : Path.same spelled path with
      | false => exact .inr rfl
      | true =>
          refine .inl (Bool.eq_false_iff.2 fun latest => newest ⟨alike, ?_⟩)
          exact (isLatest_iff_quiet orderly reached alike waits (by simp)).1 latest
    rw [elsewhere missed, stores diagnostics, or_iff_left]
    rintro ⟨first, spelled', text', later, found', cut, alike', quiet', answer, -⟩
    have place : changes before = changes first := by
      injection answer
    obtain ⟨-, started, rfl⟩ := eq_of_changes_eq cut rfl rfl place
    cases started
    exact newest ⟨alike', quiet'⟩

theorem Stores.step (stores : Stores source path desk moves)
    (orderly : Orderly source path moves) (reached : (initial source).run? moves = some desk)
    (stepped : desk.step? move = some after) : Stores source path after (moves ++ [move]) := by
  obtain ⟨spelled, text, rfl, rfl⟩ | ⟨id, run, answer, rfl, -, rfl⟩ |
    ⟨id, run, repository, answer, rfl, waits, rfl⟩ | ⟨spelled, rfl, rfl⟩ := step?_cases stepped
  · cases alike : Path.same spelled path with
    | true =>
        intro diagnostics
        constructor
        · intro entry
          simp [DiagnosticsStore.start, PathTable.get?_erase, alike] at entry
        · exact fun reports => absurd reports (not_reports_concat (.inl alike))
    | false =>
        refine stores.of_unanswered ⟨alike, rfl⟩ (by simp) ?_
        simp [DiagnosticsStore.start, PathTable.get?_erase, alike]
  · exact stores.of_unanswered ⟨rfl, rfl⟩ (by simp) rfl
  · cases answer with
    | none => exact stores.of_unanswered ⟨rfl, rfl⟩ (by simp) rfl
    | some found => exact stores.answered orderly reached waits
  · cases alike : Path.same spelled path with
    | true =>
        intro diagnostics
        constructor
        · intro entry
          simp [DiagnosticsStore.close, PathTable.get?_erase, alike] at entry
        · exact fun reports => absurd reports (not_reports_concat (.inr alike))
    | false =>
        refine stores.of_unanswered ⟨rfl, alike⟩ (by simp) ?_
        simp [DiagnosticsStore.close, PathTable.get?_erase, alike]

theorem Stores.run {rest : List Move} (stores : Stores source path desk moves)
    (orderly : Orderly source path (moves ++ rest))
    (reached : (initial source).run? moves = some desk) (further : desk.run? rest = some after) :
    Stores source path after (moves ++ rest) := by
  induction rest generalizing moves desk with
  | nil =>
      obtain rfl := Option.some.inj further
      simpa using stores
  | cons move rest ih =>
      obtain ⟨next, stepped, further⟩ := Option.bind_eq_some_iff.1 further
      rw [List.append_cons] at orderly ⊢
      refine ih (stores.step (orderly.of_append.of_append) reached stepped) orderly ?_ further
      rw [run?_append, reached]
      simpa [run?] using stepped

theorem stores_initial (source path : String) : Stores source path (initial source) [] := by
  intro diagnostics
  constructor
  · nofun
  · rintro ⟨before, spelled, text, between, found, same, -⟩
    simp at same

/-- What the store holds after an orderly schedule: a document has an entry exactly if the newest of
its runs has got a repository and an answer of the linter and the document has not been closed since
that run was started, and the entry is what the linter found in the text of that run. -/
theorem diagnostics_eq_some_iff (orderly : Orderly source path moves)
    (reached : (initial source).run? moves = some desk) (diagnostics : List Diagnostic) :
    desk.store.diagnostics.get? path = some diagnostics ↔
      ∃ before spelled text between repository found,
        moves = before ++ .change spelled text :: between ∧ Path.same spelled path = true ∧
        (∀ move ∈ between, move.starts path = false ∧ move.closes path = false) ∧
        .repository (changes before) (some repository) ∈ between ∧
        .findings (changes before) (some found) ∈ between ∧
        diagnostics = diagnose (LineIndex.ofText text.toList) source found := by
  have stores := (stores_initial source path).run (by simpa using orderly) rfl reached
  rw [List.nil_append] at stores
  rw [stores diagnostics]
  constructor
  · rintro ⟨before, spelled, text, between, found, rfl, alike, quiet, answered, rfl⟩
    have cut : before ++ .change spelled text :: between =
        (before ++ [.change spelled text]) ++ between := List.append_cons ..
    rw [cut, run?_append] at reached
    obtain ⟨started, opening, further⟩ := Option.bind_eq_some_iff.1 reached
    obtain ⟨first, rest, waiting, run, repository, -, rfl, told, waits, -⟩ :=
      answered_of_mem further answered
    obtain ⟨other, fresh⟩ := fresh_run opening
    obtain ⟨later, kept⟩ := run?_keeps told fresh
    rw [waits] at kept
    obtain rfl := congrArg Prod.fst (Option.some.inj kept)
    have informed := repository_mem told fresh (by simp) waits
    exact ⟨before, spelled, text, _, repository, found, rfl, alike, quiet,
      List.mem_append_left _ informed, answered, rfl⟩
  · rintro ⟨before, spelled, text, between, repository, found, rfl, alike, quiet, -, answered, rfl⟩
    exact ⟨before, spelled, text, between, found, rfl, alike, quiet, answered, rfl⟩

/-- A document is closed and opened again when its run is over, and then changed twice; the second
change is answered first. -/
def overtaken : List Move :=
  [.change "a/ci.yml" "first", .repository 0 none, .close "a/ci.yml", .change "a/ci.yml" "old",
    .change "a//ci.yml" "on:\n new", .repository 1 (some (.ofRoot "/repo")),
    .repository 2 (some (.ofRoot "/repo")), .findings 2 (some [⟨"late", 5, 8⟩]),
    .findings 1 (some [⟨"stale", 0, 3⟩])]

theorem diagnostics_overtaken :
    Orderly "lint" "a/ci.yml" overtaken ∧ ∃ desk,
      (initial "lint").run? overtaken = some desk ∧
      desk.store.diagnostics.get? "a/ci.yml" =
        some [{ range := ⟨⟨1, 1⟩, ⟨1, 4⟩⟩, source := "lint", message := "late" }] := by
  have orderly : Orderly "lint" "a/ci.yml" overtaken := by decide +kernel
  refine ⟨orderly, _, rfl, ?_⟩
  refine (diagnostics_eq_some_iff orderly rfl _).2
    ⟨overtaken.take 4, "a//ci.yml", "on:\n new", overtaken.drop 5, .ofRoot "/repo",
      [⟨"late", 5, 8⟩], ?_⟩
  decide +kernel

end Desk

end WorkflowScope
