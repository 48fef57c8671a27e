import EventFramework.Statemachine.Runs

/-!
# The machine between calls

After every completed call the machine is stable (`Stable`): not busy, in a user state with
nothing left to enter below it, and with a history map that records children of history states
only. A call that takes a transition ends in the target or below it (`run_stable`).
-/

namespace EventFramework.Statemachine

open TracedProgram PointerChain ParentForest StateHierarchy

namespace Fsm

variable {σ ε α ι ω : Type} [Fintype σ] [DecidableEq σ] (P : Fsm σ ε α ι ω)

/-- What holds of a machine between calls. -/
structure Stable (S : Sys σ ε α ι ω) : Prop where
  working : S.core.working = false
  current : ∃ u, S.core.currentState = some (.user u)
  resolved : ∀ c, S.core.currentState = some c → P.getInitialState S.core c = none
  history : ∀ k v, S.core.initial k = some v → P.isHistory k = true ∧ P.parent v = some k

variable {P} {S S₁ S₂ : Sys σ ε α ι ω} {K : Conf (StateObj σ)} {s u : σ} {t : StateObj σ}
  {event : ε}

theorem stable_of_refines (hidle : P.Idle S u) (hK : Refines S K) (hinv : P.chart.Inv K) :
    P.Stable S where
  working := hidle.working
  current := ⟨u, hidle.current⟩
  resolved c hc := by
    obtain rfl : K.current = c := Option.some.inj (hK.current.symm.trans hc)
    rw [getInitialState_eq, hK.memory]
    exact hinv.resolved
  history := hidle.memory

/-- A transition ends in its target or below. -/
theorem target_above_current (hP : P.chart.WellNested) (hidle : P.Idle S₁ u)
    (hK : Refines S₁ K) (hreact : P.react event S₁ = .ok () S₂)
    (ht : P.target event S₁ = some t) :
    ∃ c, S₂.core.currentState = some c ∧ Ancestor P.parent t c := by
  have hK' := react_refines hP hidle hK hreact
  have hgood : P.chart.GoodMemory K.memory := hK.memory ▸ hidle.memory
  rw [ht] at hK'
  refine ⟨_, hK'.current, (mem_ancestors hP.acyclic).mp ?_⟩
  exact Chart.mem_ancestors_landing hP (Chart.recordExits_goodMemory hgood K.current t) t

variable [Inhabited ε]

/-- **Stability.** After `Start` and after every completed `React` the machine is stable, and
a call that has taken it to a target has left it in the target or below. -/
theorem run_stable (hP : P.chart.WellFormed) (hS : Ready S) (s : σ) :
    (∀ events S', P.run s events S = .ok () S' → P.Stable S') ∧
    (∀ S', P.start (some (.user s)) S = .ok () S' →
      ∃ c, S'.core.currentState = some c ∧ Ancestor P.parent (.user s) c) ∧
    ∀ events event S₁ S₂ t, P.run s events S = .ok () S₁ → P.react event S₁ = .ok () S₂ →
      P.target event S₁ = some t →
      ∃ c, S₂.core.currentState = some c ∧ Ancestor P.parent t c := by
  have hnested := hP.wellNested
  refine ⟨fun events S' hrun => ?_, fun S' hstart => ?_, ?_⟩
  · obtain ⟨ls, u, hidle, hrefines, -⟩ := run_simulated hnested hS hrun
    exact stable_of_refines hidle hrefines (Chart.run_inv hnested (.user s) ls)
  · refine ⟨_, (start_refines hnested hS hstart).current, (mem_ancestors hP.acyclic).mp ?_⟩
    exact Chart.mem_ancestors_landing hnested Chart.goodMemory_empty (.user s)
  · intro events event S₁ S₂ t hrun hreact ht
    obtain ⟨ls, u, hidle, hrefines, -⟩ := run_simulated hnested hS hrun
    exact target_above_current hnested hidle hrefines hreact ht

theorem trafficLight_stable :
    trafficLight.Stable (stateOf (trafficLight.run .off [.transitionTo .on, .deferEvent]
      initialised)) :=
  (run_stable trafficLight_wellFormed initialised_ready .off).1 _ _
    (ok_of_returns (by decide +kernel))

end Fsm

end EventFramework.Statemachine
