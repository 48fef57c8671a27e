import EventFramework.Statemachine.Order
import Mathlib.Data.List.Flatten

/-!
# The path that Start enters

`Start(s)` ends at the end of the chain `s`, `initial_(s)`, `initial_(initial_(s))` and so on,
and enters the ancestors of `s` and the states of this chain. When an initial state is not an
immediate child of its state, the states between the two are not entered, although they are
above the resulting current state and will be left: the descent loop follows the initial
states only, while `EnterStatesFromDownToRecursive` enters every state on its way. So the
entry actions executed are those of the whole path exactly when the skipped states have none
(`start_path_iff`).
-/

namespace EventFramework.Statemachine

open TracedProgram PointerChain ParentForest StateHierarchy

/-- A sublist contributes as much as the whole list exactly when nothing else contributes. -/
private theorem flatMap_eq_iff_of_sublist {X Y : Type} {l₁ l₂ : List X} (f : X → List Y)
    (h : l₁.Sublist l₂) (hnd : l₂.Nodup) :
    l₁.flatMap f = l₂.flatMap f ↔ ∀ x ∈ l₂, x ∉ l₁ → f x = [] := by
  induction h with
  | slnil => simp
  | @cons l₁ l₂ a h ih =>
    obtain ⟨ha, hnd⟩ := List.nodup_cons.mp hnd
    have ha' : a ∉ l₁ := fun hmem => ha (h.subset hmem)
    rw [List.flatMap_cons]
    constructor
    · intro heq
      have hlen := (h.flatMap f).length_le
      rw [heq, List.length_append] at hlen
      have hnil : f a = [] := List.eq_nil_of_length_eq_zero (by omega)
      rw [hnil, List.nil_append] at heq
      exact List.forall_mem_cons.mpr ⟨fun _ => hnil, (ih hnd).mp heq⟩
    · intro hall
      obtain ⟨hnil, hall⟩ := List.forall_mem_cons.mp hall
      rw [hnil ha', List.nil_append]
      exact (ih hnd).mpr hall
  | @cons_cons l₁ l₂ a h ih =>
    obtain ⟨ha, hnd⟩ := List.nodup_cons.mp hnd
    rw [List.flatMap_cons, List.flatMap_cons, List.append_cancel_left_eq, ih hnd]
    constructor
    · intro hall
      refine List.forall_mem_cons.mpr ⟨fun hmem => absurd List.mem_cons_self hmem, ?_⟩
      exact fun x hx hx' => hall x hx fun hmem => hx' (List.mem_cons_of_mem a hmem)
    · intro hall x hx hx'
      refine (List.forall_mem_cons.mp hall).2 x hx fun hmem => ?_
      rcases List.mem_cons.mp hmem with rfl | hmem
      · exact ha hx
      · exact hx' hmem

namespace Fsm

variable {σ ε α ι ω : Type} (P : Fsm σ ε α ι ω)

/-- The entry actions of the states of a path. -/
def entryActions (event : ε) (path : List (StateObj σ)) : List (Call σ ε α) :=
  path.flatMap fun x => (P.onEntry x).map fun action => .entryAction x action event

variable [Fintype σ] [DecidableEq σ]

theorem filter_startCalls (event : ε) (s : StateObj σ) :
    (P.startCalls event s).filter Call.isAction =
      P.entryActions event
        ((ancestors P.parent s).reverse ++ P.chart.descent (fun _ => none) s) :=
  filter_visits (P.entryCalls event) (fun _ => rfl) (fun _ => rfl) (fun _ => filter_callsIf rfl)
    (fun _ _ => rfl) _

variable {P}

theorem exitAction_not_mem_startCalls {event e : ε} {s x : StateObj σ} {a : α} :
    .exitAction x a e ∉ P.startCalls event s := by
  intro hmem
  obtain ⟨y, -, hy⟩ := List.mem_flatMap.mp hmem
  unfold entryCalls callsIf at hy
  simp at hy

omit [Fintype σ] [DecidableEq σ] in
theorem resolve_empty : P.chart.resolve (fun _ => none) = P.initial :=
  funext fun _ => Chart.resolve_of_memory_none rfl

/-- With nothing remembered, the descent follows the initial states. -/
theorem initial_seg (hP : P.chart.WellNested) (s : StateObj σ) :
    Seg P.initial (some s) none (s :: P.chart.descent (fun _ => none) s) := by
  have hseg := Chart.descent_seg hP Chart.goodMemory_empty s
  rw [resolve_empty] at hseg
  exact .cons hseg

/-- The entry actions that `Start` executes are those of the whole path exactly when the states
it skips have none. -/
theorem entryActions_eq_iff (hP : P.chart.WellNested) (event : ε) (s : StateObj σ) :
    P.entryActions event ((ancestors P.parent s).reverse ++ P.chart.descent (fun _ => none) s) =
        P.entryActions event (ancestors P.parent (P.chart.landing (fun _ => none) s)).reverse ↔
      ∀ x y z, x ∈ s :: P.chart.descent (fun _ => none) s → P.initial x = some y →
        ProperAncestor P.parent x z → ProperAncestor P.parent z y → P.onEntry z = [] := by
  have hac : Acyclic P.parent := hP.acyclic
  have hsub := Chart.descent_sublist hP Chart.goodMemory_empty s
  have hgap : ∀ z, _ ↔ _ := fun z => Chart.mem_gap_iff (z := z) hP Chart.goodMemory_empty s
  rw [chart_parent] at hsub hgap
  unfold entryActions
  rw [flatMap_eq_iff_of_sublist _ hsub (List.nodup_reverse.mpr (ancestors_nodup hac _))]
  simp only [List.mem_reverse, List.mem_append, not_or, List.map_eq_nil_iff]
  constructor
  · intro hall x y z hx hy hxz hzy
    rw [← resolve_empty] at hy
    obtain ⟨hz, hzs, hzd⟩ := (hgap z).mpr ⟨x, y, hx, hy, hxz, hzy⟩
    exact hall z hz ⟨hzs, hzd⟩
  · intro hall z hz hskipped
    obtain ⟨x, y, hx, hy, hxz, hzy⟩ := (hgap z).mp ⟨hz, hskipped⟩
    rw [resolve_empty] at hy
    exact hall x y z hx hy hxz hzy

variable [Inhabited ε] {S : Sys σ ε α ι ω}

/-- **The path of Start.** Let initial states lie below their state, at any depth. `Start(s)`
ends in the last state of the chain `s`, `initial_(s)` and so on, runs no exit action, and only
a throwing callback stops it. The entry actions it executes are those of the resulting state
and all its ancestors, each once and outermost first, exactly when no state with entry actions
lies strictly between a state of the chain and its initial state. -/
theorem start_path_iff (hP : P.chart.WellNested) (himpl : S.core.impl.isSome) (s : σ) :
    ∃ chain up current,
      Seg P.initial (some (.user s)) none chain ∧ chain.getLast? = some current ∧
      Seg P.parent (some current) none up ∧
      (∀ f S', P.start (some (.user s)) S = .error f S' → f = .thrown) ∧
      (∀ x a e, .exitAction x a e ∉ (stateOf (P.start (some (.user s)) S)).trace) ∧
      ∀ S', P.start (some (.user s)) S = .ok () S' →
        S'.core.currentState = some current ∧
        (S'.trace.filter Call.isAction = P.entryActions default up.reverse ↔
          ∀ x y z, x ∈ chain → P.initial x = some y → ProperAncestor P.parent x z →
            ProperAncestor P.parent z y → P.onEntry z = []) := by
  have hruns := start_runs hP S s
  refine ⟨_, ancestors P.parent (P.chart.landing (fun _ => none) (.user s)), _,
    initial_seg hP (.user s), ?_, ancestors_seg hP.acyclic _, fun f S' h => ?_,
    fun x a e hmem => ?_, fun S' h => ?_⟩
  · rw [List.getLast?_cons]
    unfold Chart.landing
    rw [List.getLastD_eq_getLast?]
  · rw [start_apply himpl] at h
    exact (hruns.of_error h).1.1
  · obtain ⟨L, hpre, htrace⟩ := hruns.stateOf_trace
    have hcleared : (cleared S).trace = [] := rfl
    rw [hcleared, List.nil_append] at htrace
    rw [start_apply himpl, htrace] at hmem
    exact exitAction_not_mem_startCalls (hpre.subset hmem)
  · obtain ⟨htrace, hcore⟩ := start_ok hP himpl h
    refine ⟨by rw [hcore]; rfl, ?_⟩
    rw [htrace, filter_startCalls]
    exact entryActions_eq_iff hP default (.user s)

/-- A state whose initial state is nested two levels below it. -/
inductive Nest
  | outer | middle | inner
  deriving DecidableEq, Repr

instance : Fintype Nest := ⟨{.outer, .middle, .inner}, by intro x; cases x <;> decide⟩

/-- Every state has one entry action, named like the state. -/
def Nest.state : Nest → State Nest Nest
  | .outer => { initial := some .inner, onEntry := [.outer] }
  | .middle => { parent := some .outer, onEntry := [.middle] }
  | .inner => { parent := some .middle, onEntry := [.inner] }

def nest : Fsm Nest (Response Nest Nest) Nest Unit Unit := driven Nest.state

theorem nest_wellNested : nest.chart.WellNested where
  acyclic := acyclic_of_measure
    (fun x => if x = .user .outer then 2 else if x = .user .middle then 1 else 0) (by decide)
  initial_below x i hi := by
    cases x with
    | user s =>
      cases s with
      | outer =>
        obtain rfl := Option.some.inj hi
        exact .tail (.single (b := .user .middle) rfl) rfl
      | _ => cases hi
    | _ => cases hi

/-- Starting in the outer state ends in the inner one, and the middle state is not entered. -/
theorem nest_skips_middle :
    nest.chart.WellNested ∧
      Ready (initialised : Sys Nest (Response Nest Nest) Nest Unit Unit) ∧
      Seg nest.parent (some (.user .inner)) none [.user .inner, .user .middle, .user .outer] ∧
      ∃ S', nest.start (some (.user .outer)) initialised = .ok () S' ∧
        S'.core.currentState = some (.user .inner) ∧
        S'.trace.filter Call.isAction ≠
          nest.entryActions default [.user .outer, .user .middle, .user .inner] := by
  refine ⟨nest_wellNested, initialised_ready, ?_, _, ok_of_returns (by decide +kernel),
    by decide +kernel, by decide +kernel⟩
  exact .cons (.cons (.cons (.nil none)))

/-- Starting the traffic light in its composite state enters green below it, and nothing is
skipped. -/
theorem trafficLight_start_path :
    ∃ chain up current S',
      Seg trafficLight.initial (some (.user .on)) none chain ∧ chain.getLast? = some current ∧
      Seg trafficLight.parent (some current) none up ∧
      trafficLight.start (some (.user .on)) initialised = .ok () S' ∧
      S'.core.currentState = some current ∧
      S'.trace.filter Call.isAction = trafficLight.entryActions default up.reverse := by
  obtain ⟨chain, up, current, hchain, hlast, hup, -, -, hok⟩ :=
    start_path_iff trafficLight_wellFormed.wellNested (S := initialised) rfl .on
  obtain ⟨S', hstart⟩ : ∃ S', trafficLight.start (some (.user .on)) initialised = .ok () S' :=
    ⟨_, ok_of_returns (by decide +kernel)⟩
  obtain ⟨hcurrent, hactions⟩ := hok S' hstart
  refine ⟨chain, up, current, S', hchain, hlast, hup, hstart, hcurrent, hactions.mpr ?_⟩
  exact fun x y z _ hxy hxz hzy =>
    absurd hzy (trafficLight_wellFormed.not_between (i := y) hxy hxz)

end Fsm

end EventFramework.Statemachine
