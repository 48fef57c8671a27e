import Mathlib.Data.Nat.Init
import Mathlib.Order.Nat

/-!
# Weakly fair runs

Infinite runs of a transition system, as sequences of states, and what must happen in them. An
action is taken weakly fairly when it cannot stay enabled for ever without being taken.

`exists_of_rank` is the rule for a goal: a rank does not grow on the way there, and an action
that brings it down is taken again and again. `WeaklyFair.exists_act` says when fairness gives
that: without the action, it would become enabled for good.
-/

namespace FairRuns

variable {S : Type*} {next act : S → S → Prop} {σ : ℕ → S} {n : ℕ}

/-- A run: the system takes a step, or nothing happens. -/
def IsRun (next : S → S → Prop) (σ : ℕ → S) : Prop :=
  ∀ k, next (σ k) (σ (k + 1)) ∨ σ (k + 1) = σ k

/-- The action can be taken. -/
def Enabled (act : S → S → Prop) (s : S) : Prop := ∃ s', act s s'

/-- Whenever the action is enabled from a time on, it is taken after that time. -/
def WeaklyFair (act : S → S → Prop) (σ : ℕ → S) : Prop :=
  ∀ n, (∀ k, n ≤ k → Enabled act (σ k)) → ∃ k, n ≤ k ∧ act (σ k) (σ (k + 1))

theorem IsRun.shift (h : IsRun next σ) (n : ℕ) : IsRun next fun k => σ (n + k) :=
  fun k => h (n + k)

theorem WeaklyFair.shift (h : WeaklyFair act σ) (n : ℕ) : WeaklyFair act fun k => σ (n + k) := by
  intro m henabled
  obtain ⟨k, hk, hact⟩ := h (n + m) fun k hk => by
    obtain ⟨j, rfl⟩ := Nat.exists_eq_add_of_le (Nat.le_of_add_right_le hk)
    exact henabled j (Nat.le_of_add_le_add_left hk)
  obtain ⟨j, rfl⟩ := Nat.exists_eq_add_of_le (Nat.le_of_add_right_le hk)
  exact ⟨j, Nat.le_of_add_le_add_left hk, hact⟩

/-- A fair action is taken again if otherwise it would become enabled for good. -/
theorem WeaklyFair.exists_act (hfair : WeaklyFair act σ)
    (h : (∀ k, n ≤ k → ¬ act (σ k) (σ (k + 1))) → ∃ m, n ≤ m ∧ ∀ k, m ≤ k → Enabled act (σ k)) :
    ∃ k, n ≤ k ∧ act (σ k) (σ (k + 1)) := by
  by_contra hnone
  have hnever : ∀ k, n ≤ k → ¬ act (σ k) (σ (k + 1)) := fun k hk hact => hnone ⟨k, hk, hact⟩
  obtain ⟨m, hm, henabled⟩ := h hnever
  obtain ⟨k, hk, hact⟩ := hfair m henabled
  exact hnever k (hm.trans hk) hact

/-- **The rank rule.** The goal is reached when a rank never grows before, an action brings it
down, and as long as the goal is not reached the action is taken again and again. -/
theorem exists_of_rank (goal : S → Prop) (act : S → S → Prop) (rank : S → ℕ)
    (hle : ∀ k, ¬ goal (σ k) → ¬ goal (σ (k + 1)) → rank (σ (k + 1)) ≤ rank (σ k))
    (hlt : ∀ k, ¬ goal (σ k) → ¬ goal (σ (k + 1)) → act (σ k) (σ (k + 1)) →
      rank (σ (k + 1)) < rank (σ k))
    (hact : (∀ k, ¬ goal (σ k)) → ∀ n, ∃ k, n ≤ k ∧ act (σ k) (σ (k + 1))) :
    ∃ k, goal (σ k) := by
  by_contra hnone
  have hnever : ∀ k, ¬ goal (σ k) := fun k hk => hnone ⟨k, hk⟩
  suffices h : ∀ r n, rank (σ n) < r → False from h _ 0 (Nat.lt_succ_self _)
  intro r
  induction r with
  | zero => exact fun n hn => Nat.not_lt_zero _ hn
  | succ r ih =>
    intro n hn
    obtain ⟨k, hk, hstep⟩ := hact hnever n
    -- up to the action the rank has not grown
    have hrank : rank (σ k) ≤ rank (σ n) := by
      clear hstep
      induction k, hk using Nat.le_induction with
      | base => exact le_rfl
      | succ j _ hj => exact (hle j (hnever j) (hnever (j + 1))).trans hj
    have hless := hlt k (hnever k) (hnever (k + 1)) hstep
    exact ih (k + 1) (hless.trans_le (hrank.trans (Nat.le_of_lt_succ hn)))

end FairRuns
