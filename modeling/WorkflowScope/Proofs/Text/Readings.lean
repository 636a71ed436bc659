/-!
# Readings that succeed

A reading gives a result or a fault. What is known of a sequence of readings that succeeds is what
is known of each of them, and of the checks between them. A fault of a sequence is a fault of one of
them.
-/

namespace WorkflowScope

/-- A sequence of readings succeeds when each of them does. -/
theorem bind_eq_ok {ε α β : Type} {x : Except ε α} {f : α → Except ε β} {b : β} :
    (x >>= f) = .ok b ↔ ∃ a, x = .ok a ∧ f a = .ok b := by
  cases x with
  | error fault => exact ⟨nofun, nofun⟩
  | ok a => exact ⟨fun read => ⟨a, rfl, read⟩, fun ⟨_, same, read⟩ => by cases same; exact read⟩

theorem ok_bind {ε α β : Type} (a : α) (f : α → Except ε β) : (Except.ok a >>= f) = f a :=
  rfl

theorem error_bind {ε α β : Type} (fault : ε) (f : α → Except ε β) :
    (Except.error fault >>= f) = .error fault :=
  rfl

/-- What is checked at the end of a reading. -/
theorem ensure_eq_ok {ε α : Type} {p : Prop} [Decidable p] {a b : α} {fault : ε} :
    (if p then Except.ok a else .error fault) = .ok b ↔ p ∧ a = b := by
  by_cases holds : p <;> simp [holds]

/-- What is checked before the rest of a reading. -/
theorem refuse_eq_ok {ε α : Type} {p : Prop} [Decidable p] {x : Except ε α} {b : α} {fault : ε} :
    (if p then Except.error fault else x) = .ok b ↔ ¬ p ∧ x = .ok b := by
  by_cases holds : p <;> simp [holds]

/-- A sequence of readings fails at the first of them that does. -/
theorem bind_eq_error {ε α β : Type} {x : Except ε α} {f : α → Except ε β} {fault : ε} :
    (x >>= f) = .error fault ↔ x = .error fault ∨ ∃ a, x = .ok a ∧ f a = .error fault := by
  cases x with
  | error other => simp [error_bind]
  | ok a => simp [ok_bind]

/-! ## Faults that do not occur -/

/-- A sequence of readings has only the faults of its parts. -/
theorem bind_ne_error {ε α β : Type} {x : Except ε α} {f : α → Except ε β} {fault : ε}
    (first : x ≠ .error fault) (rest : ∀ a, x = .ok a → f a ≠ .error fault) :
    (x >>= f) ≠ .error fault := by
  cases x with
  | error other =>
      intro failed
      cases failed
      exact first rfl
  | ok a => exact rest a rfl

theorem mapError_ne_error {ε ε' α : Type} {x : Except ε α} {f : ε → ε'} {fault : ε'}
    (other : ∀ e, f e ≠ fault) : x.mapError f ≠ .error fault := by
  cases x with
  | error e =>
      intro failed
      cases failed
      exact other e rfl
  | ok a => exact nofun

end WorkflowScope
