import EventFramework.Statemachine.Runs

/-!
# What a history state restores

The history map holds, for a history state, the child it was last left through; it is written
by the exit walk and read by the entry walk of the same call. `restored` says without the map
what is entered below a state: below a history state its child above the current state at the
latest moment, since `Start`, at which it had one, or its initial state if there is no such
moment; below any other state its initial state.

`run_restores` is the result for whole runs: the states entered below a target are the chain
of restored states, and when all states with children have history, coming back to a state
leads to where its subtree was last left.
-/

namespace EventFramework.Statemachine

open TracedProgram PointerChain ParentForest StateHierarchy EnterExit

namespace Fsm

variable {σ ε α ι ω : Type} [Fintype σ] [DecidableEq σ] [Inhabited ε] (P : Fsm σ ε α ι ω)

/-- The state to enter below `k` after the given moments, the latest first. -/
def restored (moments : List (StateObj σ)) (k : StateObj σ) : Option (StateObj σ) :=
  if P.isHistory k then (P.chart.lastChild moments k).or (P.initial k) else P.initial k

variable {P} {S S₁ S₂ : Sys σ ε α ι ω} {s : σ} {t c : StateObj σ} {events : List ε} {event : ε}

omit [Inhabited ε] in
theorem restored_eq (moments : List (StateObj σ)) :
    P.restored moments = P.chart.resolve (P.chart.lastChild moments) := by
  funext k
  unfold restored Chart.resolve
  cases P.chart.lastChild moments k <;> rfl

/-- `Start` enters initial states only. -/
theorem start_descent (hP : P.chart.WellNested) (hS : Ready S)
    (h : P.start (some (.user s)) S = .ok () S₁) :
    ∃ below, marks S₁.trace = ((ancestors P.parent (.user s)).reverse ++ below).map .enter ∧
      Seg P.initial (P.initial (.user s)) none below := by
  refine ⟨P.chart.descent (fun _ => none) (.user s), (start_refines hP hS h).marks, ?_⟩
  have hseg := Chart.descent_seg hP Chart.goodMemory_empty (.user s)
  have hinitial : P.chart.resolve (fun _ => none) = P.initial :=
    funext fun k => Chart.resolve_of_memory_none rfl
  rwa [hinitial] at hseg

/-- A transition at the end of a run is a move of the abstract run. -/
theorem run_move_simulated (hP : P.chart.WellNested) (hS : Ready S)
    (hrun : P.run s events S = .ok () S₁) (hreact : P.react event S₁ = .ok () S₂)
    (ht : P.target event S₁ = some t) :
    ∃ ls, P.moments s events S = (P.chart.run (.user s) ls).seen ∧
      Refines S₁ (P.chart.run (.user s) ls) ∧
      Refines S₂ (P.chart.move (P.chart.run (.user s) ls) t) := by
  obtain ⟨ls, u, hidle, hrefines, hseen⟩ := run_simulated hP hS hrun
  have hrefines' := react_refines hP hidle hrefines hreact
  rw [ht] at hrefines'
  exact ⟨ls, hseen, hrefines, hrefines'⟩

/-- Below its target, a transition enters the chain of restored states. -/
theorem react_descent (hP : P.chart.WellNested) (hS : Ready S)
    (hrun : P.run s events S = .ok () S₁) (hreact : P.react event S₁ = .ok () S₂)
    (hc : S₁.core.currentState = some c) (ht : P.target event S₁ = some t) :
    ∃ below, marks S₂.trace = marks S₁.trace ++ (P.chart.exitPath c t).map .exit ++
        (P.chart.entryPath c t ++ below).map .enter ∧
      Seg (P.restored (P.moments s events S)) (P.restored (P.moments s events S) t) none below ∧
      S₂.core.currentState = some (below.getLastD t) := by
  obtain ⟨ls, hseen, hrefines, hrefines'⟩ := run_move_simulated hP hS hrun hreact ht
  have hinv := Chart.run_inv hP (.user s) ls
  have hrem := Chart.run_remembers hP (.user s) ls
  obtain rfl : (P.chart.run (.user s) ls).current = c :=
    Option.some.inj (hrefines.current.symm.trans hc)
  have hseg := Chart.descent_restores hP hinv hrem t
  rw [← hseen, ← restored_eq] at hseg
  refine ⟨_, ?_, hseg, hrefines'.current⟩
  rw [hrefines'.marks, hrefines.marks]
  rfl

/-- Coming back to `t` when the current state was last below `t` at the moment `c`. -/
theorem react_returns (hP : P.chart.WellNested) (hS : Ready S)
    (hall : ∀ x y, P.parent y = some x → P.isHistory x = true)
    (hrun : P.run s events S = .ok () S₁) (hreact : P.react event S₁ = .ok () S₂)
    (ht : P.target event S₁ = some t) {outside older : List (StateObj σ)}
    (hmoments : P.moments s events S = outside ++ c :: older)
    (hout : ∀ o ∈ outside, ¬ Ancestor P.parent t o) (hc : Ancestor P.parent t c) :
    S₂.core.currentState = some c := by
  have hac : Acyclic P.parent := hP.acyclic
  obtain ⟨ls, hseen, -, hrefines'⟩ := run_move_simulated hP hS hrun hreact ht
  have hinv := Chart.run_inv hP (.user s) ls
  have hrem := Chart.run_remembers hP (.user s) ls
  rw [hmoments] at hseen
  have hresolved := Chart.resolve_of_moment hP hseen.symm
  have hback := Chart.landing_eq_of_left hP hall hinv hrem hseen.symm
    (fun o ho hto => hout o ho ((mem_ancestors hac).mp hto)) ((mem_ancestors hac).mpr hc) hresolved
  rw [hrefines'.current]
  exact congrArg some hback

/-- **History is restored over whole runs.** `Start` enters initial states only. A transition
enters below its target the restored states, one after the other until there is none, and the
last one becomes current. If all states with children have history, then a transition back to
a state whose subtree was last left from `c` ends in `c`. -/
theorem run_restores (hP : P.chart.WellFormed) (hS : Ready S) (s : σ) :
    (∀ S₁, P.start (some (.user s)) S = .ok () S₁ →
      ∃ below, marks S₁.trace = ((ancestors P.parent (.user s)).reverse ++ below).map .enter ∧
        Seg P.initial (P.initial (.user s)) none below) ∧
    ∀ events event S₁ S₂ c t, P.run s events S = .ok () S₁ →
      P.react event S₁ = .ok () S₂ → S₁.core.currentState = some c →
      P.target event S₁ = some t →
      (∃ below, marks S₂.trace = marks S₁.trace ++ (P.chart.exitPath c t).map .exit ++
          (P.chart.entryPath c t ++ below).map .enter ∧
        Seg (P.restored (P.moments s events S)) (P.restored (P.moments s events S) t) none
          below ∧
        S₂.core.currentState = some (below.getLastD t)) ∧
      ((∀ x y, P.parent y = some x → P.isHistory x = true) → ∀ outside left older,
        P.moments s events S = outside ++ left :: older →
        (∀ o ∈ outside, ¬ Ancestor P.parent t o) → Ancestor P.parent t left →
        S₂.core.currentState = some left) := by
  refine ⟨fun S₁ h => start_descent hP.wellNested hS h, ?_⟩
  intro events event S₁ S₂ c t hrun hreact hc ht
  refine ⟨react_descent hP.wellNested hS hrun hreact hc ht, ?_⟩
  intro hall outside left older hmoments hout hleft
  exact react_returns hP.wellNested hS hall hrun hreact ht hmoments hout hleft

/-- Turned off at yellow, the traffic light comes back at yellow. -/
theorem trafficLight_returns :
    (stateOf (trafficLight.react (.transitionTo .on) (stateOf (trafficLight.run .off
      [.transitionTo .on, .transitionTo .yellow, .transitionTo .off]
      initialised)))).core.currentState = some (.user .yellow) := by
  have hac : Acyclic trafficLight.parent := trafficLight_wellFormed.acyclic
  refine ((run_restores trafficLight_wellFormed initialised_ready .off).2
    [.transitionTo .on, .transitionTo .yellow, .transitionTo .off] (.transitionTo .on) _ _
    (.user .off) (.user .on) (ok_of_returns (by decide +kernel)) (ok_of_returns (by decide +kernel))
    (by decide +kernel) (by decide +kernel)).2 (by decide) [.user .off] (.user .yellow)
    [.user .green, .user .off] (by decide +kernel) ?_ (Relation.ReflTransGen.single rfl)
  intro o ho habove
  obtain rfl := List.mem_singleton.mp ho
  have hmem := (mem_ancestors hac).mpr habove
  revert hmem
  decide +kernel

end Fsm

end EventFramework.Statemachine
