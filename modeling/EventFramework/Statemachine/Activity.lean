import EventFramework.Statemachine.Runs

/-!
# Which states are active

A state is active when the latest of its entries and exits since the last `Start` is an entry.
Three questions about whole runs, on the abstract machine that the runs refine.

* `run_noReentry_iff`: a state is entered while it is active exactly when some transition goes
  to a proper ancestor of the current state that is still active. `EnterStatesFromDownTo`
  enters its target in any case, while `ExitStatesFromUpTo` stops below the common parent,
  which here is the target.
* `run_chainActive_iff`: the current state or an ancestor of it is inactive after some call
  exactly when some transition has gone to a proper descendant of the current state. The
  branch `state == top` of the exit walk then leaves the current state, which the entry walk
  takes for the topmost state and does not enter again.
* `active_ancestor_of_run`: nothing else is ever active than the current state and its
  ancestors.
-/

namespace EventFramework.Statemachine

open TracedProgram PointerChain ParentForest StateHierarchy EnterExit

namespace Fsm

variable {σ ε α ι ω : Type} [Fintype σ] [DecidableEq σ] (P : Fsm σ ε α ι ω)

/-! ### Re-entry -/

/-- The event selects a transition to a proper ancestor of the current state that is still
active. -/
def ReturnsToActive (event : ε) (S : Sys σ ε α ι ω) : Prop :=
  ∃ c t, S.core.currentState = some c ∧ P.target event S = some t ∧
    ProperAncestor P.parent t c ∧ active t (marks S.trace) = true

variable {P} {S S' : Sys σ ε α ι ω} {K : Conf (StateObj σ)} {s c : σ} {events : List ε}

/-- One call re-enters a state exactly when it returns to an active one. -/
theorem noReentry_step_iff (hP : P.chart.WellNested) (hK : Refines S K) (hinv : P.chart.Inv K)
    (hnr : NoReentry (marks S.trace)) (event : ε) :
    NoReentry (P.chart.step K (P.target event S)).marks ↔ ¬ P.ReturnsToActive event S := by
  rw [hK.marks] at hnr
  unfold ReturnsToActive
  rw [hK.current, hK.marks]
  cases P.target event S with
  | none =>
    refine iff_of_true hnr ?_
    rintro ⟨c, t, -, ht, -⟩
    exact nomatch ht
  | some t =>
    have hmove := Chart.noReentry_move_iff hP hinv hnr t
    refine hmove.trans (not_congr ⟨fun ⟨htc, hact⟩ => ⟨K.current, t, rfl, rfl, htc, hact⟩, ?_⟩)
    rintro ⟨c, t, hc, ht, htc, hact⟩
    obtain rfl := Option.some.inj hc
    obtain rfl := Option.some.inj ht
    exact ⟨htc, hact⟩

variable [Inhabited ε]

/-- As long as no call returns to an active state, none is entered while active, also when
the run is interrupted. -/
theorem noReentry_of_atEachCall (hP : P.chart.WellNested) (hS : Ready S)
    (h : P.AtEachCall s events S fun event S₁ => ¬ P.ReturnsToActive event S₁) :
    NoReentry (marks (stateOf (P.run s events S)).trace) := by
  induction events using List.reverseRecOn with
  | nil =>
    rw [run_nil]
    exact (Chart.begin_noReentry hP (.user s)).mono (start_marks hP hS.impl s)
  | append_singleton events event ih =>
    have hnr := ih h.of_concat
    rw [run_concat]
    cases hrun : P.run s events S with
    | error f S₁ =>
      rw [hrun] at hnr
      exact hnr
    | ok _ S₁ =>
      rw [hrun] at hnr
      obtain ⟨ls, c, hidle, hrefines, -⟩ := run_simulated hP hS hrun
      have hinv := Chart.run_inv hP (.user s) ls
      have hstep := (noReentry_step_iff hP hrefines hinv hnr event).mpr (h.last hrun)
      exact hstep.mono (react_marks hP hidle hrefines event)

/-- A completed run that returns to an active state has entered it while active. -/
theorem atEachCall_of_noReentry (hP : P.chart.WellNested) (hS : Ready S)
    (hrun : P.run s events S = .ok () S') (hnr : NoReentry (marks S'.trace)) :
    P.AtEachCall s events S fun event S₁ => ¬ P.ReturnsToActive event S₁ := by
  induction events using List.reverseRecOn generalizing S' with
  | nil => exact atEachCall_nil
  | append_singleton events event ih =>
    obtain ⟨S₁, hearlier, hreact⟩ := run_concat_ok_iff.mp hrun
    obtain ⟨ls, c, hidle, hrefines, -⟩ := run_simulated hP hS hearlier
    have hrefines' := react_refines hP hidle hrefines hreact
    rw [hrefines'.marks] at hnr
    have hnr₁ : NoReentry (marks S₁.trace) := by
      rw [hrefines.marks]
      exact hnr.mono (Chart.step_marks_mono _ _)
    refine (atEachCall_concat_iff hearlier).mpr ⟨ih hearlier hnr₁, ?_⟩
    exact (noReentry_step_iff hP hrefines (Chart.run_inv hP (.user s) ls) hnr₁ event).mp hnr

/-- **No state is entered while active, exactly as long as no transition goes to a proper
ancestor of the current state that is still active.** A completed run obeys both or neither;
a run that is interrupted by a callback obeys the first if it obeys the second. -/
theorem run_noReentry_iff (hP : P.chart.WellFormed) (hS : Ready S) (s : σ) (events : List ε) :
    ((P.AtEachCall s events S fun event S₁ => ¬ P.ReturnsToActive event S₁) →
      NoReentry (marks (stateOf (P.run s events S)).trace)) ∧
    ∀ S', P.run s events S = .ok () S' →
      (NoReentry (marks S'.trace) ↔
        P.AtEachCall s events S fun event S₁ => ¬ P.ReturnsToActive event S₁) := by
  refine ⟨noReentry_of_atEachCall hP.wellNested hS, fun S' hrun => ⟨?_, fun h => ?_⟩⟩
  · exact atEachCall_of_noReentry hP.wellNested hS hrun
  · have hnr := noReentry_of_atEachCall hP.wellNested hS h
    rwa [hrun] at hnr

/-- Going back from green to the composite state enters it a second time. -/
theorem trafficLight_reenters :
    trafficLight.chart.WellFormed ∧
      Ready (initialised : Sys Light (Response Light LightAction) LightAction Unit Unit) ∧
      ¬ NoReentry
        (marks (stateOf (trafficLight.run .on [.transitionTo .on] initialised)).trace) := by
  refine ⟨trafficLight_wellFormed, initialised_ready, fun hnr => ?_⟩
  have hexit := hnr (.user .on) [] [.enter (.user .green), .exit (.user .green)]
    [.enter (.user .green)] (by decide +kernel)
  revert hexit
  decide

theorem trafficLight_noReentry_iff :
    NoReentry (marks (stateOf (trafficLight.run .on [.transitionTo .off] initialised)).trace) ↔
      trafficLight.AtEachCall .on [.transitionTo .off] initialised
        fun event S₁ => ¬ trafficLight.ReturnsToActive event S₁ :=
  (run_noReentry_iff trafficLight_wellFormed initialised_ready .on [.transitionTo .off]).2 _
    (ok_of_returns (by decide +kernel))

/-! ### The active chain -/

variable (P) in
/-- The current state and all its ancestors are active. -/
def ChainActive (S : Sys σ ε α ι ω) : Prop :=
  ∃ c, S.core.currentState = some c ∧
    ∀ x, Ancestor P.parent x c → active x (marks S.trace) = true

variable (P) in
/-- The event selects a transition to a proper descendant of the current state. -/
def Descends (event : ε) (S : Sys σ ε α ι ω) : Prop :=
  ∃ c t, S.core.currentState = some c ∧ P.target event S = some t ∧
    ProperAncestor P.parent c t

omit [Inhabited ε] in
theorem chainActive_iff (hP : P.chart.WellNested) (hK : Refines S K) :
    P.ChainActive S ↔ P.chart.ChainActive K := by
  have hac : Acyclic P.parent := hP.acyclic
  unfold ChainActive Chart.ChainActive
  rw [hK.current, hK.marks]
  constructor
  · rintro ⟨c, hc, hact⟩ x hx
    obtain rfl := Option.some.inj hc
    exact hact x ((mem_ancestors hac).mp hx)
  · exact fun hact => ⟨K.current, rfl, fun x hx => hact x ((mem_ancestors hac).mpr hx)⟩

omit [Inhabited ε] in
theorem chainActive_react_iff (hP : P.chart.WellFormed) (hidle : P.Idle S c) (hK : Refines S K)
    (hinv : P.chart.Inv K) (hact : P.ChainActive S) {event : ε}
    (h : P.react event S = .ok () S') : P.ChainActive S' ↔ ¬ P.Descends event S := by
  have hrefines' := react_refines hP.wellNested hidle hK h
  have hact' := (chainActive_iff hP.wellNested hK).mp hact
  rw [chainActive_iff hP.wellNested hrefines', Chart.chainActive_step_iff hP hinv hact']
  unfold Descends
  rw [hK.current]
  constructor
  · rintro h ⟨c, t, hc, ht, hct⟩
    obtain rfl := Option.some.inj hc
    exact h t ht hct
  · exact fun h t ht hct => h ⟨K.current, t, rfl, ht, hct⟩

/-- **The chain of the current state is active after every completed call, exactly as long as
no transition goes to a proper descendant of the current state.** -/
theorem run_chainActive_iff (hP : P.chart.WellFormed) (hS : Ready S)
    (hrun : P.run s events S = .ok () S') :
    P.AfterEachCall s events S (fun S₁ => P.ChainActive S₁) ↔
      P.AtEachCall s events S fun event S₁ => ¬ P.Descends event S₁ := by
  induction events using List.reverseRecOn generalizing S' with
  | nil =>
    refine iff_of_true (afterEachCall_nil_iff.mpr fun S₁ hS₁ => ?_) atEachCall_nil
    have hrefines := start_refines hP.wellNested hS hS₁
    exact (chainActive_iff hP.wellNested hrefines).mpr (Chart.begin_chainActive hP (.user s))
  | append_singleton events event ih =>
    obtain ⟨S₁, hearlier, hreact⟩ := run_concat_ok_iff.mp hrun
    obtain ⟨ls, c, hidle, hrefines, -⟩ := run_simulated hP.wellNested hS hearlier
    have hinv := Chart.run_inv hP.wellNested (.user s) ls
    rw [afterEachCall_concat_iff hrun, atEachCall_concat_iff hearlier, ← ih hearlier]
    refine and_congr_right fun h => ?_
    exact chainActive_react_iff hP hidle hrefines hinv (h.last hearlier) hreact

theorem trafficLight_chainActive_iff :
    trafficLight.AfterEachCall .off [.transitionTo .on] initialised
        (fun S₁ => trafficLight.ChainActive S₁) ↔
      trafficLight.AtEachCall .off [.transitionTo .on] initialised
        fun event S₁ => ¬ trafficLight.Descends event S₁ :=
  run_chainActive_iff trafficLight_wellFormed initialised_ready
    (ok_of_returns (by decide +kernel))

/-- A composite state without an initial state, and a state in it. -/
inductive Box
  | outer | inner
  deriving DecidableEq, Repr

instance : Fintype Box := ⟨{.outer, .inner}, by intro x; cases x <;> decide⟩

def Box.state : Box → State Box Empty
  | .outer => {}
  | .inner => { parent := some .outer }

theorem box_wellFormed : (driven Box.state).chart.WellFormed where
  acyclic := acyclic_of_measure (fun x => if x = .user .outer then 1 else 0) (by decide)
  initial_child := by decide

/-- Going from the outer to the inner state leaves the outer state inactive. -/
theorem box_chain_inactive :
    (driven Box.state).chart.WellFormed ∧
      Ready (initialised : Sys Box (Response Box Empty) Empty Unit Unit) ∧
      ¬ (driven Box.state).AfterEachCall .outer [.transitionTo .inner] initialised
        fun S₁ => (driven Box.state).ChainActive S₁ := by
  refine ⟨box_wellFormed, initialised_ready, fun h => ?_⟩
  obtain ⟨c, hc, hact⟩ := h [.transitionTo .inner] _ List.prefix_rfl
    (ok_of_returns (by decide +kernel))
  have hcurrent : (stateOf ((driven Box.state).run .outer [.transitionTo .inner]
      initialised)).core.currentState = some (.user .inner) := by decide +kernel
  obtain rfl := Option.some.inj (hcurrent.symm.trans hc)
  have houter := hact (.user .outer) (Relation.ReflTransGen.single rfl)
  revert houter
  decide +kernel

/-! ### Nothing else is active -/

/-- **No state is left active behind the machine's back**: after every completed call, an
active state is the current state or one of its ancestors. -/
theorem active_ancestor_of_run (hP : P.chart.WellNested) (hS : Ready S)
    (hrun : P.run s events S = .ok () S') {x : StateObj σ}
    (hx : active x (marks S'.trace) = true) :
    ∃ c, S'.core.currentState = some c ∧ Ancestor P.parent x c := by
  obtain ⟨ls, c, -, hrefines, -⟩ := run_simulated hP hS hrun
  rw [hrefines.marks] at hx
  have hmem := (Chart.run_inv hP (.user s) ls).covered x hx
  exact ⟨_, hrefines.current, (mem_ancestors hP.acyclic).mp hmem⟩

theorem trafficLight_on_above_green :
    ∃ c, (stateOf (trafficLight.run .off [.transitionTo .green] initialised)).core.currentState =
      some c ∧ Ancestor trafficLight.parent (.user .on) c :=
  active_ancestor_of_run trafficLight_wellFormed.wellNested initialised_ready
    (ok_of_returns (by decide +kernel)) (by decide +kernel)

end Fsm

end EventFramework.Statemachine
