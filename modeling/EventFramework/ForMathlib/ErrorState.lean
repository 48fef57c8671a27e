import Mathlib.Tactic.TypeStar

/-!
# Computations with state and errors

What `EStateM` computations do one after the other: a sequence returns when each part returns
(`bind_ok_iff`), and it stops where the first part stops (`bind_of_error`).
-/

namespace ErrorState

universe u

variable {ε σ A B : Type u} {m : EStateM ε σ A} {f : A → EStateM ε σ B} {s s' : σ} {a : A} {b : B}
  {e : ε}

theorem bind_of_ok (h : m s = .ok a s') : (m >>= f) s = f a s' := by
  simp [bind, EStateM.bind, h]

theorem bind_of_error (h : m s = .error e s') : (m >>= f) s = .error e s' := by
  simp [bind, EStateM.bind, h]

theorem bind_ok_iff :
    (m >>= f) s = .ok b s' ↔ ∃ a s₁, m s = .ok a s₁ ∧ f a s₁ = .ok b s' := by
  constructor
  · intro hmf
    cases h : m s with
    | ok a s₁ =>
      rw [bind_of_ok h] at hmf
      exact ⟨a, s₁, rfl, hmf⟩
    | error e s₁ =>
      rw [bind_of_error h] at hmf
      exact nomatch hmf
  · rintro ⟨a, s₁, h, hf⟩
    rw [bind_of_ok h, hf]

/-- A sequence stops in its first part or in its second. -/
theorem bind_error_iff :
    (m >>= f) s = .error e s' ↔
      m s = .error e s' ∨ ∃ a s₁, m s = .ok a s₁ ∧ f a s₁ = .error e s' := by
  constructor
  · intro hmf
    cases h : m s with
    | ok a s₁ =>
      rw [bind_of_ok h] at hmf
      exact .inr ⟨a, s₁, rfl, hmf⟩
    | error e s₁ =>
      rw [bind_of_error h] at hmf
      obtain ⟨rfl, rfl⟩ := EStateM.Result.error.inj hmf
      exact .inl rfl
  · rintro (h | ⟨a, s₁, h, hf⟩)
    · exact bind_of_error h
    · rw [bind_of_ok h, hf]

end ErrorState
