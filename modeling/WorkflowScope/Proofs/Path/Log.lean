import Mathlib.Data.List.Induction
import WorkflowScope.Proofs.Path.Table

/-!
# Tables and the logs of their changes

What a table holds is told by the log of its changes. A path has the value that it was given last,
unless it was removed since. The entries stand in the order in which their paths came in after they
had been removed last, under the spellings with which they came in then.
-/

namespace WorkflowScope

/-- A list that ends in `last`, cut at one of its elements. -/
theorem concat_eq_cut_iff {β : Type} {list before after : List β} {last x : β} :
    list ++ [last] = before ++ x :: after ↔
      (before = list ∧ x = last ∧ after = []) ∨
        ∃ front, after = front ++ [last] ∧ list = before ++ x :: front := by
  constructor
  · intro cut
    rcases List.eq_nil_or_concat after with rfl | ⟨front, final, rfl⟩
    · obtain ⟨rfl, ends⟩ := List.append_inj' cut rfl
      exact .inl ⟨rfl, (List.singleton_inj.1 ends).symm, rfl⟩
    · have joined : list ++ [last] = (before ++ x :: front) ++ [final] := by simpa using cut
      obtain ⟨rfl, ends⟩ := List.append_inj' joined rfl
      exact .inr ⟨front, by rw [List.concat_eq_append, List.singleton_inj.1 ends], rfl⟩
  · rintro (⟨rfl, rfl, rfl⟩ | ⟨front, rfl, rfl⟩)
    · rfl
    · simp

namespace PathTable

variable {α : Type}

inductive Change (α : Type) where
  | set (path : String) (value : α)
  | delete (path : String)
  | clear
  deriving DecidableEq, Repr

namespace Change

def apply : Change α → PathTable α → PathTable α
  | set path value, table => table.insert path value
  | delete path, table => table.erase path
  | clear, _ => empty

def sets (path : String) : Change α → Bool
  | set spelling _ => Path.same spelling path
  | delete _ | clear => false

def removes (path : String) : Change α → Bool
  | set _ _ => false
  | delete spelling => Path.same spelling path
  | clear => true

end Change

def run (log : List (Change α)) : PathTable α :=
  log.foldl (fun table change => change.apply table) empty

@[simp] theorem run_nil : run ([] : List (Change α)) = empty := rfl

@[simp] theorem run_concat (log : List (Change α)) (change : Change α) :
    run (log ++ [change]) = change.apply (run log) := by
  simp [run]

variable {log : List (Change α)} {change : Change α} {path spelling : String} {value : α}

/-! ## What a log says of a path -/

/-- The path has been given a value and has not been removed since. -/
def Present (log : List (Change α)) (path : String) : Prop :=
  ∃ before change after, log = before ++ change :: after ∧ change.sets path = true ∧
    ∀ later ∈ after, later.removes path = false

/-- The value is the last that the path has been given, and it has not been removed since. -/
def Assigns (log : List (Change α)) (path : String) (value : α) : Prop :=
  ∃ before spelling after, log = before ++ .set spelling value :: after ∧
    Path.same spelling path = true ∧
      ∀ later ∈ after, later.sets path = false ∧ later.removes path = false

/-- The change at an index gives a value to a path that was not present, under this spelling, and
the path has not been removed since. -/
def Founds (log : List (Change α)) (index : Nat) (path : String) : Prop :=
  ∃ before value after, log = before ++ .set path value :: after ∧ before.length = index ∧
    ¬ Present before path ∧ ∀ later ∈ after, later.removes path = false

theorem not_present_nil : ¬ Present ([] : List (Change α)) path := by
  rintro ⟨before, change, after, cut, -⟩
  simp at cut

theorem not_assigns_nil : ¬ Assigns ([] : List (Change α)) path value := by
  rintro ⟨before, spelling, after, cut, -⟩
  simp at cut

theorem not_founds_nil {index : Nat} : ¬ Founds ([] : List (Change α)) index path := by
  rintro ⟨before, value, after, cut, -⟩
  simp at cut

theorem present_concat_iff :
    Present (log ++ [change]) path ↔
      change.sets path = true ∨ (Present log path ∧ change.removes path = false) := by
  simp only [Present, concat_eq_cut_iff]
  constructor
  · rintro ⟨before, found, after, ⟨rfl, rfl, rfl⟩ | ⟨front, rfl, rfl⟩, sets, kept⟩
    · exact .inl sets
    · exact .inr
        ⟨⟨before, found, front, rfl, sets, fun later member => kept later (by simp [member])⟩,
        kept change (by simp)⟩
  · rintro (sets | ⟨⟨before, found, after, rfl, sets, kept⟩, left⟩)
    · exact ⟨log, change, [], .inl ⟨rfl, rfl, rfl⟩, sets, by simp⟩
    · refine ⟨before, found, after ++ [change], .inr ⟨after, rfl, rfl⟩, sets,
        fun later member => ?_⟩
      rcases List.mem_append.1 member with old | last
      · exact kept later old
      · exact List.mem_singleton.1 last ▸ left

theorem assigns_concat_iff :
    Assigns (log ++ [change]) path value ↔
      (∃ spelling, change = .set spelling value ∧ Path.same spelling path = true) ∨
        (Assigns log path value ∧ change.sets path = false ∧ change.removes path = false) := by
  simp only [Assigns, concat_eq_cut_iff]
  constructor
  · rintro ⟨before, spelling, after, ⟨rfl, rfl, rfl⟩ | ⟨front, rfl, rfl⟩, alike, quiet⟩
    · exact .inl ⟨spelling, rfl, alike⟩
    · exact .inr ⟨⟨before, spelling, front, rfl, alike,
        fun later member => quiet later (by simp [member])⟩, quiet change (by simp)⟩
  · rintro (⟨spelling, rfl, alike⟩ | ⟨⟨before, spelling, after, rfl, alike, quiet⟩, still⟩)
    · exact ⟨log, spelling, [], .inl ⟨rfl, rfl, rfl⟩, alike, by simp⟩
    · refine ⟨before, spelling, after ++ [change], .inr ⟨after, rfl, rfl⟩, alike,
        fun later member => ?_⟩
      rcases List.mem_append.1 member with old | last
      · exact quiet later old
      · exact List.mem_singleton.1 last ▸ still

theorem founds_concat_iff {index : Nat} :
    Founds (log ++ [change]) index path ↔
      ((∃ value, change = .set path value) ∧ index = log.length ∧ ¬ Present log path) ∨
        (Founds log index path ∧ change.removes path = false) := by
  simp only [Founds, concat_eq_cut_iff]
  constructor
  · rintro ⟨before, value, after, ⟨rfl, rfl, rfl⟩ | ⟨front, rfl, rfl⟩, place, fresh, kept⟩
    · exact .inl ⟨⟨value, rfl⟩, place.symm, fresh⟩
    · exact .inr ⟨⟨before, value, front, rfl, place, fresh,
        fun later member => kept later (by simp [member])⟩, kept change (by simp)⟩
  · rintro (⟨⟨value, rfl⟩, rfl, fresh⟩ | ⟨⟨before, value, after, rfl, place, fresh, kept⟩, left⟩)
    · exact ⟨log, value, [], .inl ⟨rfl, rfl, rfl⟩, rfl, fresh, by simp⟩
    · refine ⟨before, value, after ++ [change], .inr ⟨after, rfl, rfl⟩, place, fresh,
        fun later member => ?_⟩
      rcases List.mem_append.1 member with old | last
      · exact kept later old
      · exact List.mem_singleton.1 last ▸ left

/-! ## Look-ups -/

theorem get?_run_eq_some_iff : (run log).get? path = some value ↔ Assigns log path value := by
  induction log using List.reverseRecOn with
  | nil => simp [not_assigns_nil]
  | append_singleton log change ih =>
      rw [run_concat, assigns_concat_iff, ← ih]
      cases change with
      | set spelling given =>
          cases alike : Path.same spelling path with
          | false => simp [Change.apply, Change.sets, Change.removes, get?_insert, alike]
          | true => simp [Change.apply, Change.sets, get?_insert, alike]
      | delete spelling =>
          cases alike : Path.same spelling path <;>
            simp [Change.apply, Change.sets, Change.removes, get?_erase, alike]
      | clear => simp [Change.apply, Change.removes]

theorem get?_run_eq_none_iff : (run log).get? path = none ↔ ¬ Present log path := by
  induction log using List.reverseRecOn with
  | nil => simp [not_present_nil]
  | append_singleton log change ih =>
      rw [run_concat, present_concat_iff]
      cases change with
      | set spelling given =>
          cases alike : Path.same spelling path <;>
            simp [Change.apply, Change.sets, Change.removes, get?_insert, alike, ih]
      | delete spelling =>
          cases alike : Path.same spelling path <;>
            simp [Change.apply, Change.sets, Change.removes, get?_erase, alike, ih]
      | clear => simp [Change.apply, Change.sets, Change.removes]

/-! ## Entries -/

def Distinct (table : PathTable α) : Prop :=
  table.entries.Pairwise fun a b => Path.same a.1 b.1 = false

theorem get?_eq_none_iff {table : PathTable α} :
    table.get? path = none ↔ ∀ entry ∈ table.entries, Path.same entry.1 path = false := by
  simp [get?]

/-- A path that has no entry gets one behind the others. -/
theorem insertInto_of_fresh {entries : List (String × α)}
    (fresh : ∀ entry ∈ entries, Path.same entry.1 path = false) :
    insertInto path value entries = entries ++ [(path, value)] := by
  induction entries with
  | nil => rfl
  | cons entry rest ih =>
      rw [insertInto_cons, fresh entry (by simp), if_neg Bool.false_ne_true,
        ih fun other member => fresh other (by simp [member]), List.cons_append]

/-- A path that has an entry keeps its place and its spelling. -/
theorem map_insertInto_of_known {entries : List (String × α)}
    (known : ∃ entry ∈ entries, Path.same entry.1 path = true) :
    (insertInto path value entries).map (·.1) = entries.map (·.1) := by
  induction entries with
  | nil => simp at known
  | cons entry rest ih =>
      rw [insertInto_cons]
      split
      · rfl
      · rename_i other
        obtain ⟨found, member, alike⟩ := known
        rcases List.mem_cons.1 member with rfl | later
        · exact absurd alike other
        · rw [List.map_cons, List.map_cons, ih ⟨found, later, alike⟩]

theorem distinct_iff_map {table : PathTable α} :
    table.Distinct ↔ (table.entries.map (·.1)).Pairwise fun a b => Path.same a b = false := by
  rw [Distinct, List.pairwise_map]

theorem Distinct.insert {table : PathTable α} (distinct : table.Distinct) (path : String)
    (value : α) : (table.insert path value).Distinct := by
  by_cases fresh : table.get? path = none
  · have apart := get?_eq_none_iff.1 fresh
    rw [Distinct, PathTable.insert, insertInto_of_fresh apart, List.pairwise_append]
    refine ⟨distinct, List.pairwise_singleton _ _, fun a old b new => ?_⟩
    rw [List.mem_singleton.1 new]
    exact apart a old
  · rw [get?_eq_none_iff] at fresh
    simp only [not_forall, Bool.not_eq_false] at fresh
    obtain ⟨entry, member, alike⟩ := fresh
    rw [distinct_iff_map, PathTable.insert, map_insertInto_of_known ⟨entry, member, alike⟩]
    exact distinct_iff_map.1 distinct

theorem Distinct.apply {table : PathTable α} (distinct : table.Distinct) (change : Change α) :
    (change.apply table).Distinct := by
  cases change with
  | set path value => exact distinct.insert path value
  | delete path => exact List.Pairwise.filter _ distinct
  | clear => exact List.Pairwise.nil

theorem distinct_run (log : List (Change α)) : (run log).Distinct := by
  induction log using List.reverseRecOn with
  | nil => exact List.Pairwise.nil
  | append_singleton log change ih =>
      rw [run_concat]
      exact ih.apply change

theorem get?_of_mem {table : PathTable α} (distinct : table.Distinct) {entry : String × α}
    (member : entry ∈ table.entries) : table.get? entry.1 = some entry.2 := by
  obtain ⟨before, after, cut⟩ := List.append_of_mem member
  have apart : ∀ other ∈ before, Path.same other.1 entry.1 = false := by
    rw [Distinct, cut, List.pairwise_append] at distinct
    exact fun other old => distinct.2.2 other old entry (by simp)
  have missed : (before.find? fun other => Path.same other.1 entry.1) = none :=
    List.find?_eq_none.2 fun other old => by simp [apart other old]
  simp [get?, cut, List.find?_append, missed, Path.same_refl]

/-! ## Order -/

theorem lt_length_of_founds {index : Nat} (founds : Founds log index path) :
    index < log.length := by
  obtain ⟨before, value, after, rfl, rfl, -⟩ := founds
  simp

/-- The changes of a log that have founded an entry, in their order. -/
structure Founders (log : List (Change α)) (founders : List (Nat × String)) : Prop where
  sorted : founders.Pairwise fun a b => a.1 < b.1
  mem_iff : ∀ index path, (index, path) ∈ founders ↔ Founds log index path

variable {founders : List (Nat × String)}

theorem Founders.concat_set (given : Founders log founders) (path : String) (value : α)
    (fresh : ¬ Present log path) :
    Founders (log ++ [.set path value]) (founders ++ [(log.length, path)]) where
  sorted := by
    refine List.pairwise_append.2 ⟨given.sorted, List.pairwise_singleton _ _, fun a old b new => ?_⟩
    rw [List.mem_singleton.1 new]
    exact lt_length_of_founds ((given.mem_iff a.1 a.2).1 old)
  mem_iff index other := by
    rw [List.mem_append, given.mem_iff, founds_concat_iff, List.mem_singleton, or_comm]
    simp only [Change.removes, Change.set.injEq, Prod.mk.injEq, and_true]
    constructor
    · rintro (⟨rfl, rfl⟩ | old)
      · exact .inl ⟨⟨value, rfl, rfl⟩, rfl, fresh⟩
      · exact .inr old
    · rintro (⟨⟨_, rfl, _⟩, rfl, -⟩ | old)
      · exact .inl ⟨rfl, rfl⟩
      · exact .inr old

/-- A path that is present is given another value. -/
theorem Founders.concat_reset (given : Founders log founders) (path : String) (value : α)
    (known : Present log path) : Founders (log ++ [.set path value]) founders where
  sorted := given.sorted
  mem_iff index other := by
    rw [given.mem_iff, founds_concat_iff]
    constructor
    · exact fun old => .inr ⟨old, rfl⟩
    · rintro (⟨⟨_, same⟩, -, fresh⟩ | ⟨old, -⟩)
      · cases same
        exact absurd known fresh
      · exact old

theorem Founders.concat_removal (given : Founders log founders) (change : Change α)
    (removal : ∀ path value, change ≠ .set path value) :
    Founders (log ++ [change]) (founders.filter fun founder => !change.removes founder.2) where
  sorted := given.sorted.filter _
  mem_iff index other := by
    rw [List.mem_filter, given.mem_iff, founds_concat_iff, Bool.not_eq_true']
    constructor
    · exact .inr
    · rintro (⟨⟨value, same⟩, -⟩ | old)
      · exact absurd same (removal other value)
      · exact old

/-- The entries stand in the order of the changes that founded them, under their spellings. -/
theorem exists_founders (log : List (Change α)) :
    ∃ founders, Founders log founders ∧ (run log).entries.map (·.1) = founders.map (·.2) := by
  induction log using List.reverseRecOn with
  | nil => exact ⟨[], ⟨List.Pairwise.nil, fun _ _ => by simp [not_founds_nil]⟩, rfl⟩
  | append_singleton log change ih =>
      obtain ⟨founders, given, order⟩ := ih
      rw [run_concat]
      cases change with
      | set path value =>
          by_cases known : Present log path
          · refine ⟨founders, given.concat_reset path value known, ?_⟩
            have entry := mt get?_run_eq_none_iff.1 (not_not.2 known)
            rw [get?_eq_none_iff] at entry
            simp only [not_forall, Bool.not_eq_false] at entry
            obtain ⟨found, member, alike⟩ := entry
            rw [← order]
            exact map_insertInto_of_known ⟨found, member, alike⟩
          · refine ⟨_, given.concat_set path value known, ?_⟩
            have fresh := get?_eq_none_iff.1 (get?_run_eq_none_iff.2 known)
            simp only [Change.apply, insert, insertInto_of_fresh fresh, List.map_append, order]
            rfl
      | delete path =>
          refine ⟨_, given.concat_removal (.delete path) (by simp), ?_⟩
          have filtered := congrArg (List.filter fun spelling => !Path.same path spelling) order
          simp only [List.filter_map] at filtered
          simpa [Change.apply, erase, Change.removes, Path.same_comm path, Function.comp_def]
            using filtered
      | clear =>
          exact ⟨_, given.concat_removal .clear (by simp),
            by simp [Change.apply, Change.removes, empty]⟩

/-- A table refines the log of its changes: it has one entry for each path, with the value that the
path was given last since it was removed last, and the entries stand in the order in which their
paths were first given a value since then, under the spellings of that time. -/
theorem run_refines_log (log : List (Change α)) :
    ((run log).entries.Pairwise fun a b => Path.same a.1 b.1 = false) ∧
      (∀ path value, (run log).get? path = some value ↔ Assigns log path value) ∧
      (∀ path, (run log).get? path = none ↔ ∀ value, ¬ Assigns log path value) ∧
      (∀ entry ∈ (run log).entries, Assigns log entry.1 entry.2) ∧
      ∃ founders : List (Nat × String),
        (founders.Pairwise fun a b => a.1 < b.1) ∧
          (∀ index path, (index, path) ∈ founders ↔ Founds log index path) ∧
          (run log).entries.map (·.1) = founders.map (·.2) := by
  have distinct := distinct_run log
  refine ⟨distinct, fun _ _ => get?_run_eq_some_iff, fun path => ?_, fun entry member => ?_, ?_⟩
  · simp only [← get?_run_eq_some_iff]
    exact Option.eq_none_iff_forall_ne_some
  · exact get?_run_eq_some_iff.1 (get?_of_mem distinct member)
  · obtain ⟨founders, given, order⟩ := exists_founders log
    exact ⟨founders, given.sorted, given.mem_iff, order⟩

/-- A path is set under one spelling, deleted under another, and set again under two more. -/
def respelled : List (Change Nat) :=
  [.set "a/b" 1, .set "c" 2, .delete "a//b", .set "a/./b" 3, .set "a/b/" 4]

theorem run_refines_log_respelled :
    (run respelled).entries = [("c", 2), ("a/./b", 4)] ∧ Assigns respelled "a/b" 4 ∧
      (∃ index, Founds respelled index "a/./b") ∧ ∀ index, ¬ Founds respelled index "a/b" := by
  have entries : (run respelled).entries = [("c", 2), ("a/./b", 4)] := by decide
  obtain ⟨-, value, -, -, founders, -, founds, order⟩ := run_refines_log respelled
  rw [entries] at order
  refine ⟨entries, (value "a/b" 4).1 (by decide), ?_, fun index founding => ?_⟩
  · have spelled : "a/./b" ∈ founders.map (·.2) := by
      rw [← order]
      decide
    obtain ⟨⟨index, path⟩, member, rfl⟩ := List.mem_map.1 spelled
    exact ⟨index, (founds index _).1 member⟩
  · have spelled : "a/b" ∈ founders.map (·.2) :=
      List.mem_map.2 ⟨_, (founds index "a/b").2 founding, rfl⟩
    rw [← order] at spelled
    exact absurd spelled (by decide)

end PathTable

end WorkflowScope
