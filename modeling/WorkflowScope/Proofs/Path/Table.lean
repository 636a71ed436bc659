import WorkflowScope.Path.Table

/-!
# Looking up a table by path

Spellings of the same path are the same key. What an insertion and a removal do to a table is said
once here, in terms of look-ups and of the part of the table that some paths have, and the entries
are not opened again.
-/

namespace WorkflowScope

namespace Path

theorem same_comm (a b : String) : same a b = same b a := by
  rw [Bool.eq_iff_iff, same_iff, same_iff]
  exact eq_comm

/-- Spellings of the same path stand in the same relation to every other. -/
theorem same_congr {a b : String} (alike : same a b = true) (other : String) :
    same a other = same b other := by
  rw [Bool.eq_iff_iff, same_iff, same_iff, same_iff.1 alike]

end Path

namespace PathTable

variable {α : Type}

@[simp] theorem get?_empty (path : String) : (empty : PathTable α).get? path = none := rfl

/-- Spellings of the same path have the same entry. -/
theorem get?_congr (table : PathTable α) {path other : String}
    (alike : Path.same path other = true) : table.get? path = table.get? other := by
  simp only [get?]
  congr 2
  funext entry
  rw [Path.same_comm, Path.same_congr alike, Path.same_comm]

private theorem find?_insertInto (path : String) (value : α) (other : String)
    (entries : List (String × α)) :
    ((insertInto path value entries).find? fun entry => Path.same entry.1 other).map (·.2) =
      if Path.same path other then some value
      else (entries.find? fun entry => Path.same entry.1 other).map (·.2) := by
  induction entries with
  | nil => cases alike : Path.same path other <;> simp [insertInto, alike]
  | cons entry rest ih =>
      unfold insertInto
      cases here : Path.same entry.1 path with
      | true =>
          have alike := Path.same_congr here other
          cases found : Path.same path other <;> simp [alike, found]
      | false =>
          cases touched : Path.same entry.1 other with
          | false => simpa [touched] using ih
          | true =>
              -- An entry cannot be that of both paths unless they are the same.
              have apart : Path.same path other = false := by
                rw [Path.same_comm path other, ← Path.same_congr touched path, here]
              simp [touched, apart]

/-- An insertion gives its value to every spelling of its path and changes nothing else. -/
theorem get?_insert (table : PathTable α) (path : String) (value : α) (other : String) :
    (table.insert path value).get? other =
      if Path.same path other then some value else table.get? other :=
  find?_insertInto path value other table.entries

/-- A removal takes the entry of every spelling of its path and changes nothing else. -/
theorem get?_erase (table : PathTable α) (path other : String) :
    (table.erase path).get? other = if Path.same path other then none else table.get? other := by
  simp only [get?, erase, List.find?_filter]
  cases alike : Path.same path other with
  | true =>
      have none_left : (table.entries.find? fun entry =>
          !Path.same entry.1 path && Path.same entry.1 other) = none := by
        rw [List.find?_eq_none]
        intro entry _
        rw [Path.same_comm entry.1 path, Path.same_congr alike, Path.same_comm other]
        simp
      simp [none_left]
  | false =>
      have unchanged : (fun entry : String × α =>
          !Path.same entry.1 path && Path.same entry.1 other) =
          fun entry => Path.same entry.1 other := by
        funext entry
        cases touched : Path.same entry.1 other with
        | false => simp
        | true =>
            rw [Path.same_congr touched, Path.same_comm, alike]
            rfl
      simp [unchanged]

/-! ## Part of a table -/

def restrict (keep : String → Bool) (table : PathTable α) : PathTable α :=
  ⟨table.entries.filter fun entry => keep entry.1⟩

theorem insertInto_cons (path : String) (value : α) (entry : String × α)
    (rest : List (String × α)) :
    insertInto path value (entry :: rest) =
      if Path.same entry.1 path then (entry.1, value) :: rest
      else entry :: insertInto path value rest :=
  rfl

section Restrict

variable {keep : String → Bool} (respects : ∀ {a b}, Path.same a b = true → keep a = keep b)

include respects

private theorem filter_insertInto (path : String) (value : α) (entries : List (String × α)) :
    (insertInto path value entries).filter (fun entry => keep entry.1) =
      if keep path then insertInto path value (entries.filter fun entry => keep entry.1)
      else entries.filter fun entry => keep entry.1 := by
  induction entries with
  | nil => cases kept : keep path <;> simp [insertInto, kept]
  | cons entry rest ih =>
      cases here : Path.same entry.1 path with
      | true =>
          have alike := respects here
          cases kept : keep path <;> simp [insertInto_cons, alike, kept, here]
      | false =>
          cases own : keep entry.1 <;> cases kept : keep path <;>
            simpa [insertInto_cons, own, kept, here] using ih

/-- An insertion is seen in the part of a table that keeps its path. -/
theorem restrict_insert (table : PathTable α) {path : String} (kept : keep path = true)
    (value : α) :
    (table.insert path value).restrict keep = (table.restrict keep).insert path value := by
  simp [restrict, insert, filter_insertInto respects, kept]

/-- An insertion is not seen in any other part. -/
theorem restrict_insert_of_dropped (table : PathTable α) {path : String}
    (dropped : keep path = false) (value : α) :
    (table.insert path value).restrict keep = table.restrict keep := by
  simp [restrict, insert, filter_insertInto respects, dropped]

theorem restrict_erase_of_dropped (table : PathTable α) {path : String}
    (dropped : keep path = false) : (table.erase path).restrict keep = table.restrict keep := by
  simp only [restrict, erase, List.filter_filter]
  congr 1
  apply List.filter_congr
  intro entry _
  cases here : Path.same entry.1 path with
  | false => simp
  | true => simp [respects here, dropped]

/-- The entry of a path that is kept is the same in the whole table. -/
theorem get?_restrict (table : PathTable α) {path : String} (kept : keep path = true) :
    (table.restrict keep).get? path = table.get? path := by
  simp only [get?, restrict, List.find?_filter]
  congr 2
  funext entry
  cases here : Path.same entry.1 path with
  | false => simp
  | true => simp [respects here, kept]

end Restrict

theorem restrict_erase (keep : String → Bool) (table : PathTable α) (path : String) :
    (table.erase path).restrict keep = (table.restrict keep).erase path := by
  simp [restrict, erase, List.filter_filter, Bool.and_comm]

end PathTable

end WorkflowScope
