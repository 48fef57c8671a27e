import EventFramework.Statemachine.Runs

/-!
# The execution order of a transition

The documented order: exit actions from the source state up to the least common ancestor,
then the transition actions, then entry actions from the least common ancestor down to the
target, and below it as long as there is an initial state to enter. `react_order` proves it
for transitions between different branches of the forest and for self transitions, for every
machine reached by a run.
-/

namespace EventFramework.Statemachine

open TracedProgram PointerChain ParentForest StateHierarchy

namespace Fsm

variable {σ ε α ι ω : Type} (P : Fsm σ ε α ι ω) {event : ε}

/-- The actions of leaving the states of `up`, of the transition, and of entering the states
of `down`, in this order. -/
def orderedActions (event : ε) (up : List (StateObj σ)) (actions : List α)
    (down : List (StateObj σ)) : List (Call σ ε α) :=
  up.flatMap (fun x => (P.onExit x).map fun action => .exitAction x action event) ++
    (actions.map (fun action => .action action event) ++
      down.flatMap fun x => (P.onEntry x).map fun action => .entryAction x action event)

theorem filter_callsIf {b : Bool} {c : Call σ ε α} (hc : c.isAction = false) :
    (callsIf b c).filter Call.isAction = [] := by
  cases b with
  | false => rfl
  | true => simp [callsIf, hc]

theorem filter_questions {asked : List (Call σ ε α)} (h : ∀ c ∈ asked, c.IsQuestion) :
    asked.filter Call.isAction = [] := by
  refine List.filter_eq_nil_iff.mpr fun c hc => ?_
  rw [(h c hc).isAction]
  exact Bool.false_ne_true

/-- Among the calls of leaving or entering states, the actions are those of the state lists. -/
theorem filter_visits (calls : StateObj σ → List (Call σ ε α)) {lead : StateObj σ → Call σ ε α}
    {hook : StateObj σ → List (Call σ ε α)} {list : StateObj σ → List α}
    {act : StateObj σ → α → Call σ ε α}
    (hcalls : ∀ x, calls x = lead x :: (hook x ++ (list x).map (act x)))
    (hlead : ∀ x, (lead x).isAction = false) (hhook : ∀ x, (hook x).filter Call.isAction = [])
    (hact : ∀ x a, (act x a).isAction = true) (l : List (StateObj σ)) :
    (l.flatMap calls).filter Call.isAction = l.flatMap fun x => (list x).map (act x) := by
  rw [List.filter_flatMap]
  congr 1
  funext x
  have hactions : ((list x).map (act x)).filter Call.isAction = (list x).map (act x) := by
    refine List.filter_eq_self.mpr fun c hc => ?_
    obtain ⟨a, -, rfl⟩ := List.mem_map.mp hc
    exact hact x a
  rw [hcalls, List.filter_cons_of_neg (by simp [hlead]), List.filter_append, hhook, hactions]
  rfl

variable [Fintype σ] [DecidableEq σ]

theorem filter_transitionCalls (h : StateObj σ → Option (StateObj σ)) (c t : StateObj σ)
    (actions : List α) : (P.transitionCalls h c t actions event).filter Call.isAction =
      P.orderedActions event (P.chart.exitPath c t) actions
        (P.chart.entryPath c t ++ P.chart.descent (P.chart.recordExits h c t) t) := by
  have hexits := filter_visits (P.exitCalls event) (fun _ => rfl) (fun _ => rfl)
    (fun _ => filter_callsIf rfl) (fun _ _ => rfl) (P.chart.exitPath c t)
  have hentries := filter_visits (P.entryCalls event) (fun _ => rfl) (fun _ => rfl)
    (fun _ => filter_callsIf rfl) (fun _ _ => rfl)
    (P.chart.entryPath c t ++ P.chart.descent (P.chart.recordExits h c t) t)
  have hactions : (actions.map fun action => (.action action event : Call σ ε α)).filter
      Call.isAction = actions.map fun action => .action action event := by
    refine List.filter_eq_self.mpr fun c hc => ?_
    obtain ⟨a, -, rfl⟩ := List.mem_map.mp hc
    rfl
  unfold transitionCalls orderedActions
  rw [List.filter_append, List.filter_append, List.filter_append, hexits, hentries, hactions,
    filter_callsIf rfl, List.nil_append]

variable {P} {S₀ S : Sys σ ε α ι ω} {c : StateObj σ} {t : σ} {response : Response σ α}

omit [Fintype σ] [DecidableEq σ] in
theorem deferCalls_of_target (ht : response.target? = some t) (last : StateObj σ) :
    deferCalls event last response = [] := by
  refine deferCalls_of_ne ?_ last
  rintro rfl
  cases ht

theorem dispatchCalls_of_target (ht : response.target? = some t)
    (h : StateObj σ → Option (StateObj σ)) (c : StateObj σ) :
    P.dispatchCalls h c event response =
      P.transitionCalls h c (.user t) response.actions event := by
  unfold dispatchCalls
  rw [ht]

variable [Inhabited ε]

/-- **Execution order.** In a reachable machine with current state `c`, let an event select a
transition to `t` with a list of actions, where `t` is `c` or neither is above the other.
Then `React` executes, and executes no other action than, the exit actions of the chain `up`
from `c` to below the common ancestor, the transition actions, the entry actions of the chain
`down` from below the common ancestor to `t`, and the entry actions of the chain `below`
of the initial states of `t` under the history recorded on the way up. Only a throwing
callback can stop it, after some of these actions. -/
theorem react_order (hP : P.chart.WellFormed) (hS₀ : Ready S₀) {s : σ} {events : List ε}
    (hrun : P.run s events S₀ = .ok () S) (hc : S.core.currentState = some c)
    (hanswer : P.answer event S = some response) (ht : response.target? = some t)
    (hrel : .user t = c ∨
      ¬ ProperAncestor P.parent c (.user t) ∧ ¬ ProperAncestor P.parent (.user t) c) :
    ∃ up down below : List (StateObj σ),
      (.user t = c → up = [c] ∧ down = [c]) ∧
      (.user t ≠ c → Seg P.parent (some c) (lca P.parent c (.user t)) up ∧
        Seg P.parent (some (.user t)) (lca P.parent c (.user t)) down.reverse) ∧
      (∀ core, core.initial = P.chart.recordExits S.core.initial c (.user t) →
        Seg (P.getInitialState core) (P.getInitialState core (.user t)) none below) ∧
      (∀ S', P.react event S = .ok () S' →
        S'.trace.filter Call.isAction = S.trace.filter Call.isAction ++
          P.orderedActions event up response.actions (down ++ below)) ∧
      ∀ f S', P.react event S = .error f S' → f = .thrown ∧
        ∃ done, done <+: P.orderedActions event up response.actions (down ++ below) ∧
          S'.trace.filter Call.isAction = S.trace.filter Call.isAction ++ done := by
  have hac : Acyclic P.parent := hP.acyclic
  obtain ⟨ls, u, hidle, -, -⟩ := run_simulated hP.wellNested hS₀ hrun
  obtain rfl : .user u = c := Option.some.inj (hidle.current.symm.trans hc)
  refine ⟨P.chart.exitPath (.user u) (.user t), P.chart.entryPath (.user u) (.user t),
    P.chart.descent (P.chart.recordExits S.core.initial (.user u) (.user t)) (.user t),
    ?_, ?_, ?_, ?_⟩
  · intro htu
    rw [htu]
    unfold Chart.exitPath Chart.entryPath
    have hself := self_mem_ancestors hac (StateObj.user u)
    exact ⟨if_pos hself, if_pos hself⟩
  · intro hne
    obtain ⟨hut, htu⟩ := hrel.resolve_left hne
    have hut' : .user u ∉ ancestors P.parent (.user t) := fun hmem =>
      hut ((properAncestor_iff hac).mpr ⟨hmem, hne.symm⟩)
    have htu' : .user t ∉ ancestors P.parent (.user u) := fun hmem =>
      htu ((properAncestor_iff hac).mpr ⟨hmem, hne⟩)
    unfold Chart.exitPath Chart.entryPath
    rw [chart_parent, if_neg hut', if_neg htu', List.reverse_reverse, lca_comm hac]
    exact ⟨by rw [lca_comm hac]; exact branch_seg hac _ _, branch_seg hac _ _⟩
  · intro core hcore
    have hgood := Chart.recordExits_goodMemory hidle.memory (.user u) (.user t)
    have hseg := Chart.descent_seg hP.wellNested hgood (.user t)
    have hresolve : P.getInitialState core = P.chart.resolve core.initial :=
      funext (P.getInitialState_eq core)
    rwa [hresolve, hcore]
  · obtain ⟨asked, last, hasked, hruns⟩ := react_runs hP.wellNested hidle event
    rw [hanswer] at hruns
    simp only [deferCalls_of_target ht, dispatchCalls_of_target ht, List.nil_append] at hruns
    -- among the calls of `React`, the actions are those of the transition
    have hall : (asked ++ P.transitionCalls S.core.initial (.user u) (.user t) response.actions
        event).filter Call.isAction = P.orderedActions event (P.chart.exitPath (.user u) (.user t))
          response.actions (P.chart.entryPath (.user u) (.user t) ++ P.chart.descent
            (P.chart.recordExits S.core.initial (.user u) (.user t)) (.user t)) := by
      rw [List.filter_append, filter_questions hasked, P.filter_transitionCalls, List.nil_append]
    refine ⟨fun S' hreact => ?_, fun f S' hreact => ?_⟩
    · rw [(hruns.of_ok hreact).1, List.filter_append, hall]
    · obtain ⟨⟨hfails, -⟩, L', hpre, htrace⟩ := hruns.of_error hreact
      refine ⟨?_, L'.filter Call.isAction, ?_, ?_⟩
      · rcases hfails with hthrown | ⟨-, hdefer, -⟩
        · exact hthrown
        · rw [hdefer] at ht
          exact nomatch ht
      · rw [← hall]
        exact hpre.filter _
      · rw [htrace, List.filter_append]

/-- From green to off with an action: up to the root, the action, and down from the root. -/
theorem trafficLight_order :
    ∃ up down below,
      Seg trafficLight.parent (some (.user .green)) none up ∧
      Seg trafficLight.parent (some (.user .off)) none down.reverse ∧
      (stateOf (trafficLight.react (.transitionToAction .off (some .walk))
        (stateOf (trafficLight.run .on [] initialised)))).trace.filter Call.isAction =
      (stateOf (trafficLight.run .on [] initialised)).trace.filter Call.isAction ++
        trafficLight.orderedActions (.transitionToAction .off (some .walk)) up [.walk]
          (down ++ below) := by
  have hac : Acyclic trafficLight.parent := trafficLight_wellFormed.acyclic
  have hapart : ∀ x y : StateObj Light, x ∉ ancestors trafficLight.parent y →
      ¬ ProperAncestor trafficLight.parent x y := fun x y hxy hprop =>
    hxy ((properAncestor_iff hac).mp hprop).1
  have hrun : trafficLight.run .on [] initialised =
      .ok () (stateOf (trafficLight.run .on [] initialised)) :=
    ok_of_returns (by decide +kernel)
  have hcurrent : (stateOf (trafficLight.run .on [] initialised)).core.currentState =
      some (.user .green) := by decide +kernel
  have hanswer : trafficLight.answer (.transitionToAction .off (some .walk))
      (stateOf (trafficLight.run .on [] initialised)) =
        some (.transitionToAction .off (some .walk)) := by decide +kernel
  have hlca : lca trafficLight.parent (.user .green) (.user .off) = none := by decide +kernel
  obtain ⟨up, down, below, -, hchains, -, hdone, -⟩ := react_order trafficLight_wellFormed
    initialised_ready hrun hcurrent hanswer rfl
    (.inr ⟨hapart _ _ (by decide +kernel), hapart _ _ (by decide +kernel)⟩)
  obtain ⟨hup, hdown⟩ := hchains (by decide)
  rw [hlca] at hup hdown
  exact ⟨up, down, below, hup, hdown, hdone _ (ok_of_returns (by decide +kernel))⟩

end Fsm

end EventFramework.Statemachine
