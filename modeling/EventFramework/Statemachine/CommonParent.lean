import EventFramework.Statemachine.Runs

/-!
# What FindCommonParent computes

`FindCommonParent` is called with two state pointers. In an acyclic forest it returns null
exactly when no state is an ancestor-or-self of both; otherwise it returns the least such state
(`findCommonParent_least`). The result is the same for both orders of the arguments, although
its loops treat them differently.
-/

namespace EventFramework.Statemachine

open PointerChain ParentForest

namespace Fsm

variable {σ ε α ι ω : Type} [DecidableEq σ] [Fintype σ] {P : Fsm σ ε α ι ω}

theorem findCommonParent_eq_lca? (hac : Acyclic P.parent) (a b : Option (StateObj σ)) :
    P.findCommonParent a b = some (lca? P.parent a b) := by
  cases a with
  | none => rfl
  | some c =>
    cases b with
    | none =>
      -- against null the outer loop goes up to the root and finds nothing
      have hseg := ancestors_seg hac c
      have hloop := P.findCommonParentLoop_eq (.nil none) hseg _ (length_lt_fuel hseg)
      have hnothing : (ancestors P.parent c).find? (· ∈ ([] : List (StateObj σ))) = none := by
        simp
      rw [hnothing] at hloop
      exact hloop
    | some t => exact P.findCommonParent_eq hac c t

/-- **FindCommonParent returns the least common ancestor**, for any two states or null and in
both orders of them, and null if there is no common ancestor-or-self. -/
theorem findCommonParent_least (hac : Acyclic P.parent) (a b : Option (StateObj σ)) :
    ∃ r, P.findCommonParent a b = some r ∧ P.findCommonParent b a = some r ∧
      (r = none ↔ ∀ q, ¬ CommonAncestor P.parent a b q) ∧
      ∀ q, r = some q ↔ IsLeastCommonAncestor P.parent a b q := by
  refine ⟨lca? P.parent a b, findCommonParent_eq_lca? hac a b, ?_, lca?_eq_none_iff hac,
    fun q => lca?_eq_some_iff hac⟩
  rw [lca?_comm hac a b]
  exact findCommonParent_eq_lca? hac b a

/-- Green and red have on as their least common ancestor, and on and off have none. -/
theorem trafficLight_common_parents :
    IsLeastCommonAncestor trafficLight.parent (some (.user .green)) (some (.user .red))
        (.user .on) ∧
      ∀ q, ¬ CommonAncestor trafficLight.parent (some (.user .on)) (some (.user .off)) q := by
  have hac : Acyclic trafficLight.parent := trafficLight_wellFormed.acyclic
  obtain ⟨r, hr, -, -, hleast⟩ :=
    findCommonParent_least hac (some (.user .green)) (some (.user .red))
  obtain ⟨r', hr', -, hnone, -⟩ :=
    findCommonParent_least hac (some (.user .on)) (some (.user .off))
  obtain rfl : some (.user .on) = r := Option.some.inj hr
  obtain rfl : none = r' := Option.some.inj hr'
  exact ⟨(hleast _).mp rfl, hnone.mp rfl⟩

end Fsm

end EventFramework.Statemachine
