import WorkflowScope.Path.Selector

/-!
# What patterns fit

A pattern fits a path that can be cut into stretches, one for each piece. The cuts say nothing of
the order in which the matcher tries them. For the globs that select workflow files they come down
to a directory of workflows with a file of the right ending somewhere below it.
-/

namespace WorkflowScope

namespace Glob

/-- Whole components, each with the slash behind it. -/
def IsComponents (text : List Char) : Prop :=
  text = [] ∨ text.getLast? = some '/'

/-- A stretch of text that a piece stands for. -/
inductive Denotes : Piece → List Char → Prop where
  | char {piece : Piece} {c : Char} (takes : piece.takes c = true) : Denotes piece [c]
  | run {text : List Char} (inside : '/' ∉ text) : Denotes .anyRun text
  | components {text : List Char} (whole : IsComponents text) : Denotes .anyComponents text

/-- A text can be cut into stretches, one for each piece. Two stars at the end stand for whatever is
left. -/
inductive Fits : List Piece → List Char → Prop where
  | nil : Fits [] []
  | cons {piece : Piece} {pieces : List Piece} {front rest : List Char}
      (stands : Denotes piece front) (more : Fits pieces rest) :
      Fits (piece :: pieces) (front ++ rest)
  | last (text : List Char) : Fits [.anyComponents] text

variable {pieces : List Piece} {text rest : List Char}

/-! ## The ends that the matcher tries -/

theorem mem_runEnds_iff : rest ∈ runEnds text ↔ ∃ front, text = front ++ rest ∧ '/' ∉ front := by
  induction text with
  | nil =>
      rw [runEnds, List.mem_singleton]
      constructor
      · rintro rfl
        exact ⟨[], rfl, List.not_mem_nil⟩
      · rintro ⟨front, cut, -⟩
        exact (List.nil_eq_append_iff.1 cut).2
  | cons c later ih =>
      have here : rest ∈ runEnds (c :: later) ↔
          rest = c :: later ∨ c ≠ '/' ∧ rest ∈ runEnds later := by
        rw [runEnds, List.mem_cons]
        by_cases slash : c = '/' <;> simp [slash]
      rw [here, ih]
      constructor
      · rintro (rfl | ⟨other, front, rfl, inside⟩)
        · exact ⟨[], rfl, List.not_mem_nil⟩
        · exact ⟨c :: front, rfl, List.not_mem_cons_of_ne_of_not_mem (Ne.symm other) inside⟩
      · rintro ⟨front, cut, inside⟩
        rcases List.cons_eq_append_iff.1 cut with ⟨rfl, rfl⟩ | ⟨front, rfl, rfl⟩
        · exact .inl rfl
        · exact .inr ⟨Ne.symm (List.ne_of_not_mem_cons inside), front, rfl,
            List.not_mem_of_not_mem_cons inside⟩

theorem mem_afterSlashes_iff :
    rest ∈ afterSlashes text ↔ ∃ front, text = front ++ '/' :: rest := by
  induction text with
  | nil => simp [afterSlashes]
  | cons c later ih =>
      have here : rest ∈ afterSlashes (c :: later) ↔
          c = '/' ∧ rest = later ∨ rest ∈ afterSlashes later := by
        rw [afterSlashes]
        by_cases slash : c = '/' <;> simp [slash]
      rw [here, ih]
      constructor
      · rintro (⟨rfl, rfl⟩ | ⟨front, rfl⟩)
        · exact ⟨[], rfl⟩
        · exact ⟨c :: front, rfl⟩
      · rintro ⟨front, cut⟩
        rcases List.cons_eq_append_iff.1 cut with ⟨rfl, same⟩ | ⟨front, rfl, rfl⟩
        · obtain ⟨rfl, rfl⟩ := List.cons.inj same
          exact .inl ⟨rfl, rfl⟩
        · exact .inr ⟨front, rfl⟩

/-- The ends that two stars lead to are those behind whole components. -/
theorem mem_componentEnds_iff :
    rest ∈ text :: afterSlashes text ↔ ∃ front, text = front ++ rest ∧ IsComponents front := by
  rw [List.mem_cons, mem_afterSlashes_iff]
  constructor
  · rintro (rfl | ⟨front, rfl⟩)
    · exact ⟨[], rfl, .inl rfl⟩
    · exact ⟨front ++ ['/'], by simp, .inr List.getLast?_concat⟩
  · rintro ⟨front, rfl, rfl | slash⟩
    · exact .inl rfl
    · obtain ⟨front, rfl⟩ := List.getLast?_eq_some_iff.1 slash
      exact .inr ⟨front, by simp⟩

/-! ## Pieces in front -/

theorem fits_nil_iff : Fits [] text ↔ text = [] := by
  constructor
  · rintro ⟨⟩
    rfl
  · rintro rfl
    exact .nil

theorem fits_anyRun_iff :
    Fits (.anyRun :: pieces) text ↔ ∃ front rest, text = front ++ rest ∧ '/' ∉ front ∧
      Fits pieces rest := by
  constructor
  · rintro (_ | ⟨stands, more⟩ | _)
    cases stands with
    | char takes => cases takes
    | run inside => exact ⟨_, _, rfl, inside, more⟩
  · rintro ⟨front, rest, rfl, inside, more⟩
    exact .cons (.run inside) more

theorem fits_anyComponents_iff (more : pieces ≠ []) :
    Fits (.anyComponents :: pieces) text ↔ ∃ front rest, text = front ++ rest ∧
      IsComponents front ∧ Fits pieces rest := by
  constructor
  · rintro (_ | ⟨stands, behind⟩ | _)
    · cases stands with
      | char takes => cases takes
      | components whole => exact ⟨_, _, rfl, whole, behind⟩
    · exact absurd rfl more
  · rintro ⟨front, rest, rfl, whole, behind⟩
    exact .cons (.components whole) behind

/-- A piece that stands for a single character. -/
theorem fits_char_iff {piece : Piece} (run : piece ≠ .anyRun)
    (components : piece ≠ .anyComponents) :
    Fits (piece :: pieces) text ↔ ∃ c rest, text = c :: rest ∧ piece.takes c = true ∧
      Fits pieces rest := by
  constructor
  · rintro (_ | ⟨stands, more⟩ | _)
    · cases stands with
      | char takes => exact ⟨_, _, rfl, takes, more⟩
      | run => exact absurd rfl run
      | components => exact absurd rfl components
    · exact absurd rfl components
  · rintro ⟨c, rest, rfl, takes, more⟩
    exact .cons (.char takes) more

/-- The matcher finds a cut if there is one, and only then. -/
theorem fits_iff : fits pieces text = true ↔ Fits pieces text := by
  induction pieces generalizing text with
  | nil => rw [fits, List.isEmpty_iff, fits_nil_iff]
  | cons piece pieces ih =>
      cases piece with
      | anyRun =>
          rw [fits, List.any_eq_true, fits_anyRun_iff]
          simp only [mem_runEnds_iff, ih]
          constructor
          · rintro ⟨rest, ⟨front, cut, inside⟩, more⟩
            exact ⟨front, rest, cut, inside, more⟩
          · rintro ⟨front, rest, cut, inside, more⟩
            exact ⟨rest, ⟨front, cut, inside⟩, more⟩
      | anyComponents =>
          by_cases last : pieces = []
          · subst last
            exact iff_of_true (by simp [fits]) (.last text)
          · rw [fits, fits_anyComponents_iff last, Bool.or_eq_true, List.isEmpty_iff,
              or_iff_right last, List.any_eq_true]
            simp only [mem_componentEnds_iff, ih]
            constructor
            · rintro ⟨rest, ⟨front, cut, whole⟩, more⟩
              exact ⟨front, rest, cut, whole, more⟩
            · rintro ⟨front, rest, cut, whole, more⟩
              exact ⟨rest, ⟨front, cut, whole⟩, more⟩
      | literal | anyChar | within | without =>
          refine .trans ?_ (fits_char_iff (by simp) (by simp)).symm
          cases text with
          | nil => simp [fits]
          | cons c rest =>
              simp only [fits, Bool.and_eq_true, ih]
              constructor
              · rintro ⟨takes, more⟩
                exact ⟨c, rest, rfl, takes, more⟩
              · rintro ⟨_, _, ⟨⟩, takes, more⟩
                exact ⟨takes, more⟩

theorem Pattern.fits_iff (pattern : Pattern) (path : List Char) :
    pattern.fits path = true ↔ Fits pattern.pieces path := by
  rw [pattern.fits_eq, Glob.fits_iff]

/-! ## Words -/

def literals (word : List Char) : List Piece :=
  word.map .literal

/-- A word fits just itself. -/
theorem fits_literals_append_iff {word : List Char} :
    Fits (literals word ++ pieces) text ↔ ∃ rest, text = word ++ rest ∧ Fits pieces rest := by
  induction word generalizing text with
  | nil => simp [literals]
  | cons c word ih =>
      simp only [literals, List.map_cons, List.cons_append] at ih ⊢
      refine (fits_char_iff (by simp) (by simp)).trans ?_
      simp only [ih, Piece.takes, beq_iff_eq]
      constructor
      · rintro ⟨_, _, rfl, rfl, rest, rfl, more⟩
        exact ⟨rest, rfl, more⟩
      · rintro ⟨rest, rfl, more⟩
        exact ⟨c, _, rfl, rfl, rest, rfl, more⟩

theorem fits_literals_iff {word : List Char} : Fits (literals word) text ↔ text = word := by
  have whole := @fits_literals_append_iff [] text word
  simpa [fits_nil_iff] using whole

end Glob

namespace Selector

open Glob

/-- The pattern of the files with an ending that lie below a directory, at any depth, where that
directory may lie anywhere. -/
def below (directory ending : List Char) : Pattern :=
  ⟨.anyComponents :: (literals directory ++ .anyComponents :: .anyRun :: literals ending)⟩

theorem fits_below_iff {directory ending path : List Char} :
    (below directory ending).fits path = true ↔ ∃ before between name,
      path = before ++ directory ++ between ++ name ∧ IsComponents before ∧
        IsComponents between ∧ ∃ base, name = base ++ ending ∧ '/' ∉ base := by
  rw [Pattern.fits_iff, below, fits_anyComponents_iff (by simp)]
  simp only [fits_literals_append_iff, fits_anyComponents_iff (List.cons_ne_nil _ _),
    fits_anyRun_iff, fits_literals_iff]
  constructor
  · rintro ⟨before, _, rfl, whole, _, rfl, between, _, rfl, components, base, _, rfl, inside, rfl⟩
    exact ⟨before, between, base ++ _, by simp, whole, components, base, rfl, inside⟩
  · rintro ⟨before, between, _, rfl, whole, components, base, rfl, inside⟩
    exact ⟨before, _, by simp, whole, _, rfl, between, _, rfl, components, base, _, rfl, inside,
      rfl⟩

/-- The default globs compile to these patterns. -/
theorem standard_eq :
    standard = ⟨[below ".github/workflows/".toList ".yml".toList,
      below ".github/workflows/".toList ".yaml".toList]⟩ := by
  decide

/-- A name without slashes that ends in a word without slashes. -/
theorem exists_base_iff {ending name : List Char} (inside : '/' ∉ ending) :
    (∃ base, name = base ++ ending ∧ '/' ∉ base) ↔ '/' ∉ name ∧ ending <:+ name := by
  constructor
  · rintro ⟨base, rfl, free⟩
    exact ⟨by simp [free, inside], List.suffix_append base ending⟩
  · rintro ⟨free, base, rfl⟩
    exact ⟨base, rfl, fun slash => free (List.mem_append_left _ slash)⟩

/-- The files selected by default: those below a directory of workflows, wherever it lies, whose
names end in `.yml` or `.yaml`. -/
theorem selects_standard_iff (path : String) :
    standard.selects path = true ↔ ∃ before between name,
      normalize path = before ++ ".github/workflows/".toList ++ between ++ name ∧
        (before = [] ∨ before.getLast? = some '/') ∧
        (between = [] ∨ between.getLast? = some '/') ∧
        '/' ∉ name ∧ (".yml".toList <:+ name ∨ ".yaml".toList <:+ name) := by
  have short : '/' ∉ ".yml".toList := by decide
  have long : '/' ∉ ".yaml".toList := by decide
  rw [standard_eq, selects]
  simp only [List.any_cons, List.any_nil, Bool.or_false, Bool.or_eq_true, fits_below_iff,
    exists_base_iff short, exists_base_iff long]
  constructor
  · rintro (⟨before, between, name, cut, whole, components, free, ends⟩ |
      ⟨before, between, name, cut, whole, components, free, ends⟩)
    · exact ⟨before, between, name, cut, whole, components, free, .inl ends⟩
    · exact ⟨before, between, name, cut, whole, components, free, .inr ends⟩
  · rintro ⟨before, between, name, cut, whole, components, free, ends | ends⟩
    · exact .inl ⟨before, between, name, cut, whole, components, free, ends⟩
    · exact .inr ⟨before, between, name, cut, whole, components, free, ends⟩

/-- Slashes and backslashes are the same to a selector. -/
theorem selects_standard_backslashes :
    "C:\\repo\\.github\\workflows\\nested/ci.yaml".toList.contains '\\' = true ∧
      normalize "C:\\repo\\.github\\workflows\\nested/ci.yaml" =
        "C:/repo/.github/workflows/nested/ci.yaml".toList ∧
      standard.selects "C:\\repo\\.github\\workflows\\nested/ci.yaml" = true := by
  refine ⟨by decide, by decide, (selects_standard_iff _).2 ?_⟩
  exact ⟨"C:/repo/".toList, "nested/".toList, "ci.yaml".toList, by decide, by decide, by decide,
    by decide, by decide⟩

end Selector

end WorkflowScope
