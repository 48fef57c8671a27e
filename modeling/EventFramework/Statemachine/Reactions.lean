import EventFramework.Statemachine.Selection

/-!
# What `Start` and `React` do

The specifications of the two entry points. Between calls a machine is *idle* (`Idle`): it is
in a user state, not busy, and its history map is well formed.

* `start_runs`: `Start` enters the ancestors of its argument, the argument and the descent
  below it, from a cleared history.
* `react_runs`: `React` asks the states above the current one, and then makes exactly the
  calls of the selected transition (`dispatchCalls`) and ends in the machine that transition
  leads to (`dispatchCore`), or stops after a prefix of these calls because a callback throws.
* `react_ok` and `react_idle`: a completed call leaves the machine idle again.
-/

namespace EventFramework.Statemachine

open TracedProgram PointerChain ParentForest StateHierarchy

/-- How an interrupted call leaves the data members, the history map aside. -/
structure Core.Interrupted {σ ι : Type} (core g : Core σ ι) : Prop where
  currentState : g.currentState = core.currentState ∨ g.currentState = some .kInTransition
  working : g.working = core.working
  impl : g.impl = core.impl

namespace Fsm

variable {σ ε α ι ω : Type} (P : Fsm σ ε α ι ω)

theorem parent_user {x y : StateObj σ} (h : P.parent x = some y) : ∃ u, y = .user u := by
  cases x with
  | user s =>
    obtain ⟨u, -, rfl⟩ := Option.map_eq_some_iff.mp h
    exact ⟨u, rfl⟩
  | _ => exact nomatch h

/-- The states above a user state are user states. -/
theorem chain_user {chain : List (StateObj σ)} {a : Option (StateObj σ)}
    (ha : ∀ x, a = some x → ∃ u, x = .user u) (h : Seg P.parent a none chain) :
    ∀ x ∈ chain, ∃ u, x = .user u := by
  induction chain generalizing a with
  | nil => simp
  | cons x chain ih =>
    obtain ⟨rfl, hchain⟩ := Seg.cons_iff.mp h
    exact List.forall_mem_cons.mpr ⟨ha x rfl, ih (fun y hy => P.parent_user hy) hchain⟩

variable [Fintype σ] [DecidableEq σ] {event : ε}

theorem ancestors_user (hac : Acyclic P.parent) (s : σ) :
    ∀ x ∈ ancestors P.parent (.user s), ∃ u, x = .user u :=
  P.chain_user (fun _ hx => ⟨s, (Option.some.inj hx).symm⟩) (ancestors_seg hac (.user s))

/-! ### Dispatching an answer -/

/-- The calls made for an answer from the state `start`, under the memory `h`. -/
def dispatchCalls (h : StateObj σ → Option (StateObj σ)) (start : StateObj σ) (event : ε)
    (response : Response σ α) : List (Call σ ε α) :=
  match response, response.target? with
  | _, some target => P.transitionCalls h start (.user target) response.actions event
  | .unhandledEvent, none =>
    callsIf P.onUnhandledEvent.isSome (.onUnhandledEvent start event)
  | .deferEvent, none => []
  | _, none => response.actions.map fun action => .action action event

/-- The machine after an answer. -/
def dispatchCore (core : Core σ ι) (start : StateObj σ) (response : Response σ α) :
    Core σ ι :=
  match response.target? with
  | some target => P.transitionCore core start (.user target)
  | none => core

variable {P} {S S' : Sys σ ε α ι ω}

omit [Fintype σ] [DecidableEq σ] in
theorem executeActions_assign_quiet (response : Response σ α) :
    Quiet (P.executeActions response.transition.assign event)
      (response.actions.map fun action => .action action event) := by
  rw [← response.actionList_assign]
  exact P.executeActions_quiet response.transition.assign

/-- An answer that does not change the state has its calls made and leaves the machine alone. -/
theorem dispatchTransition_quiet (event : ε) (h : StateObj σ → Option (StateObj σ))
    (start : StateObj σ)
    {response : Response σ α} (hstay : response.target? = none)
    (hdefer : response ≠ .deferEvent) :
    Quiet (P.dispatchTransition start response.transition.assign event)
      (P.dispatchCalls h start event response) := by
  cases response with
  | unhandledEvent => exact callIfSet_quiet _ P.onUnhandledEvent _
  | deferEvent => exact absurd rfl hdefer
  | noTransition => exact executeActions_assign_quiet .noTransition
  | noTransitionAction action => exact executeActions_assign_quiet (.noTransitionAction action)
  | noTransitionActions actions => exact executeActions_assign_quiet (.noTransitionActions actions)
  | _ => cases hstay

/-- An answer with a target has the transition taken. -/
theorem dispatchTransition_of_target {start : StateObj σ} {response : Response σ α} {t : σ}
    (ht : response.target? = some t) :
    P.dispatchTransition start response.transition.assign event =
      P.takeTransition response.transition.assign (.user t) event := by
  unfold dispatchTransition
  have htarget : response.transition.assign.target = some (.user t) := by
    rw [response.target_assign]
    unfold Response.targetObj
    rw [ht]
  rw [htarget]

theorem dispatchTransition_runs (event : ε) (hP : P.chart.WellNested)
    (hgood : P.chart.GoodMemory S.core.initial) {c : StateObj σ}
    (hc : S.core.currentState = some c) {response : Response σ α}
    (hdefer : response ≠ .deferEvent) :
    Runs (P.dispatchTransition c response.transition.assign event) S
      (P.dispatchCalls S.core.initial c event response)
      (fun _ g => g = P.dispatchCore S.core c response)
      (fun f g => f = .thrown ∧ S.core.Interrupted g) := by
  cases ht : response.target? with
  | none =>
    have hcore : P.dispatchCore S.core c response = S.core := by
      unfold dispatchCore
      rw [ht]
    rw [hcore]
    exact (dispatchTransition_quiet event S.core.initial c ht hdefer).runs ⟨rfl, .inl rfl, rfl, rfl⟩
  | some t =>
    have htake := takeTransition_runs event hP hgood hc response.transition.assign (.user t)
    rw [response.actionList_assign] at htake
    rw [dispatchTransition_of_target ht]
    unfold dispatchCalls dispatchCore
    rw [ht]
    exact htake.mono (fun _ _ hg => hg) fun _ _ hg =>
      ⟨hg.1, .inr hg.2.currentState, hg.2.working, hg.2.impl⟩

theorem dispatchCore_setWorking (core : Core σ ι) (start : StateObj σ)
    (response : Response σ α) (b : Bool) :
    { P.dispatchCore core start response with working := b } =
      P.dispatchCore { core with working := b } start response := by
  unfold dispatchCore
  split <;> rfl

theorem dispatchCore_working (core : Core σ ι) (start : StateObj σ) (response : Response σ α) :
    (P.dispatchCore core start response).working = core.working := by
  unfold dispatchCore
  split <;> rfl

/-! ### React -/

/-- A machine that can be started: initialised and not busy. -/
structure Ready (S : Sys σ ε α ι ω) : Prop where
  impl : S.core.impl.isSome
  working : S.core.working = false

variable (P) in
/-- A machine between calls: ready, in the user state `c`, with a well-formed history. -/
structure Idle (S : Sys σ ε α ι ω) (c : σ) : Prop extends Ready S where
  current : S.core.currentState = some (.user c)
  memory : P.chart.GoodMemory S.core.initial

/-- The machine as it is while a call is going on. -/
def busy (S : Sys σ ε α ι ω) : Sys σ ε α ι ω :=
  { S with core := { S.core with working := true } }

variable (P) in
/-- What the handlers answer to an event offered to the machine; `none` if one throws. -/
def answer (event : ε) (S : Sys σ ε α ι ω) : Option (Response σ α) :=
  match S.core.currentState with
  | none => none
  | some c =>
    match P.ask event (ancestors P.parent c) (busy S).core S.world with
    | .ok response _ => some response
    | .error _ _ => none

/-- A started machine that is not busy goes through the loop, dispatches what that leaves, and
is not busy again. -/
theorem react_apply {c : StateObj σ} (hcurrent : S.core.currentState = some c)
    (hidle : S.core.working = false) (event : ε) :
    P.react event S = (do
      match ← P.bubble event (fuel σ) c with
      | none => clearWorking
      | some transition => do
        P.dispatchTransition c transition event
        clearWorking) (busy S) := by
  have hbusy : busy S = { S with core :=
      { S.core with currentState := some c, working := true } } := by
    rw [← hcurrent]
    rfl
  unfold react
  rw [getCore_bind_apply, hcurrent, hidle, hbusy]
  rfl

omit [Fintype σ] [DecidableEq σ] in
theorem clearWorking_runs {core : Core σ ι} {E : Failure → Core σ ι → Prop}
    (hcore : S.core = { core with working := true }) (hidle : core.working = false) :
    Runs (clearWorking : M σ ε α ι ω Unit) S [] (fun _ g => g = core) E := by
  refine Runs.getCore_bind (Runs.setCore ?_)
  rw [hcore, ← hidle]

/-- **React.** From an idle machine, `React` asks for an answer and makes exactly the calls
the answer stands for. If a callback throws, or the event is deferred with no callback for it,
it stops after a prefix of these calls, and stays busy. -/
theorem react_runs (hP : P.chart.WellNested) {c : σ} (hS : P.Idle S c) (event : ε) :
    ∃ asked last, (∀ x ∈ asked, x.IsQuestion) ∧
      match P.answer event S with
      | some response =>
        Runs (P.react event) S
          (asked ++ (deferCalls event last response ++
            P.dispatchCalls S.core.initial (.user c) event response))
          (fun _ g => g = P.dispatchCore S.core (.user c) response)
          (fun f g => P.SelectionFails response f ∧ (busy S).core.Interrupted g)
      | none =>
        Runs (P.react event) S asked (fun _ _ => False)
          (fun f g => f = .thrown ∧ g = (busy S).core) := by
  have hac : Acyclic P.parent := hP.acyclic
  have hchain := ancestors_seg hac (StateObj.user c)
  obtain ⟨asked, last, -, hbubble⟩ := bubble_runs (P := P) event (S := busy S)
    hchain (length_lt_fuel hchain) (P.ancestors_user hac c)
  refine ⟨asked.flatMap (P.offerCalls event), .user last, isQuestion_of_mem_offerCalls, ?_⟩
  have hanswer : P.answer event S =
      match P.ask event (ancestors P.parent (.user c)) (busy S).core (busy S).world with
      | .ok response _ => some response
      | .error _ _ => none := by
    unfold answer
    rw [hS.current]
    rfl
  rw [hanswer]
  cases hask : P.ask event (ancestors P.parent (.user c)) (busy S).core (busy S).world with
  | error e w =>
    rw [hask] at hbubble
    refine Runs.congr (react_apply hS.current hS.working event) rfl ?_
    rw [← List.append_nil (asked.flatMap _)]
    exact Runs.bind hbubble fun _ _ _ hfalse => hfalse.elim
  | ok response w =>
    rw [hask] at hbubble
    obtain ⟨-, -, hbubble⟩ := hbubble
    refine Runs.congr (react_apply hS.current hS.working event) rfl ?_
    rw [← List.append_assoc]
    refine Runs.bind (hbubble.mono (fun _ _ hg => hg) ?_) fun left S₁ _ hleft => ?_
    · rintro f g ⟨hf, rfl⟩
      exact ⟨hf, .inl rfl, rfl, rfl⟩
    obtain ⟨hleft, hcore⟩ := hleft
    by_cases hdefer : response = .deferEvent
    -- the early return: only the busy flag is cleared
    · subst hdefer
      obtain rfl : left = none := hleft
      exact clearWorking_runs hcore hS.working
    · obtain rfl := hleft.eq_some hdefer
      have hcurrent : S₁.core.currentState = some (.user c) := by rw [hcore]; exact hS.current
      have hmemory : S₁.core.initial = S.core.initial := by rw [hcore]; rfl
      have hdispatch := dispatchTransition_runs event hP (hmemory ▸ hS.memory)
        hcurrent hdefer
      rw [hmemory] at hdispatch
      rw [← List.append_nil (P.dispatchCalls _ _ _ _)]
      refine Runs.bind (hdispatch.mono (fun _ _ hg => hg) fun f g hg => ?_)
        fun _ S₂ _ hS₂ => ?_
      · rw [hcore] at hg
        exact ⟨.inl hg.1, hg.2⟩
      · have hS₂' : S₂.core = P.dispatchCore S₁.core (.user c) response := hS₂
        refine clearWorking_runs ?_ ((dispatchCore_working _ _ _).trans hS.working)
        rw [hS₂', hcore]
        exact (dispatchCore_setWorking S.core (.user c) response true).symm

/-- **React on a machine in transition.** Between calls only an interrupted `Start` leaves one.
The loop offers the event to `kInTransition` and stops at its null handler. -/
theorem react_inTransition_runs (hcurrent : S.core.currentState = some .kInTransition)
    (hidle : S.core.working = false) (event : ε) :
    Runs (P.react event) S (callsIf P.onHandleEvent.isSome (.onHandleEvent .kInTransition event))
      (fun _ _ => False)
      (fun f g => (f = .nullPointer ∨ P.onHandleEvent.isSome ∧ f = .thrown) ∧
        g = (busy S).core) := by
  have hloop : Runs (P.bubble event (fuel σ) .kInTransition) (busy S)
      (callsIf P.onHandleEvent.isSome (.onHandleEvent .kInTransition event)) (fun _ _ => False)
      (fun f g => (f = .nullPointer ∨ P.onHandleEvent.isSome ∧ f = .thrown) ∧
        g = (busy S).core) := by
    unfold fuel bubble
    rw [← List.append_nil (callsIf _ _)]
    refine Runs.bind (Q := fun _ g => g = (busy S).core) ?_ fun _ S₁ _ hS₁ => ?_
    · cases P.onHandleEvent with
      | none => exact Runs.pure rfl
      | some f => exact (Quiet.call _ _).runs ⟨.inr ⟨rfl, rfl⟩, rfl⟩
    · exact ⟨⟨.inl rfl, hS₁⟩, [], List.nil_prefix, (List.append_nil _).symm⟩
  refine Runs.congr (react_apply hcurrent hidle event) rfl ?_
  rw [← List.append_nil (callsIf _ _)]
  exact Runs.bind hloop fun _ _ _ hfalse => hfalse.elim

/-- A completed call: the answer it dispatched, the calls it made and the machine it left. -/
theorem react_ok (hP : P.chart.WellNested) {c : σ} (hS : P.Idle S c)
    (h : P.react event S = .ok () S') :
    ∃ response asked last, P.answer event S = some response ∧ (∀ x ∈ asked, x.IsQuestion) ∧
      S'.trace = S.trace ++ (asked ++ (deferCalls event last response ++
        P.dispatchCalls S.core.initial (.user c) event response)) ∧
      S'.core = P.dispatchCore S.core (.user c) response := by
  obtain ⟨asked, last, hasked, hruns⟩ := react_runs hP hS event
  cases hanswer : P.answer event S with
  | none =>
    rw [hanswer] at hruns
    exact (hruns.of_ok h).2.elim
  | some response =>
    rw [hanswer] at hruns
    obtain ⟨htrace, hcore⟩ := hruns.of_ok h
    exact ⟨response, asked, last, rfl, hasked, htrace, hcore⟩

/-- A state with a user state above it is a user state. -/
theorem user_of_mem_ancestors (hac : Acyclic P.parent) {t : σ} {x : StateObj σ}
    (h : .user t ∈ ancestors P.parent x) : ∃ u, x = .user u := by
  cases hx : x with
  | user u => exact ⟨u, rfl⟩
  | _ =>
    rw [hx, ancestors_eq_singleton hac rfl, List.mem_singleton] at h
    exact nomatch h

theorem landing_user (hP : P.chart.WellNested) {h : StateObj σ → Option (StateObj σ)}
    (hgood : P.chart.GoodMemory h) (t : σ) :
    ∃ u, P.chart.landing h (.user t) = .user u :=
  user_of_mem_ancestors hP.acyclic (Chart.mem_ancestors_landing hP hgood (.user t))

/-- **A completed call leaves the machine idle.** -/
theorem dispatchCore_idle (hP : P.chart.WellNested) {c : σ} (hS : P.Idle S c)
    (response : Response σ α) (hcore : S'.core = P.dispatchCore S.core (.user c) response) :
    ∃ c', P.Idle S' c' := by
  unfold dispatchCore at hcore
  cases htarget : response.target? with
  | none =>
    rw [htarget] at hcore
    exact ⟨c, ⟨hcore ▸ hS.impl, hcore ▸ hS.working⟩, hcore ▸ hS.current, hcore ▸ hS.memory⟩
  | some t =>
    rw [htarget] at hcore
    have hgood := Chart.recordExits_goodMemory hS.memory (.user c) (.user t)
    obtain ⟨u, hu⟩ := landing_user hP hgood t
    refine ⟨u, ⟨?_, ?_⟩, ?_, ?_⟩
    · rw [hcore]
      exact hS.impl
    · rw [hcore]
      exact hS.working
    · rw [hcore, ← hu]
      rfl
    · rw [hcore]
      exact hgood

/-! ### Start -/

/-- The machine `Start` begins to enter from. -/
def cleared (S : Sys σ ε α ι ω) : Sys σ ε α ι ω where
  core := { S.core with currentState := some .kInTransition, initial := fun _ => none }
  world := S.world
  trace := []

variable (P) in
/-- The calls of `Start`. -/
def startCalls (event : ε) (s : StateObj σ) : List (Call σ ε α) :=
  ((ancestors P.parent s).reverse ++ P.chart.descent (fun _ => none) s).flatMap
    (P.entryCalls event)

variable (P) in
/-- The machine after `Start`. -/
def startCore (core : Core σ ι) (s : StateObj σ) : Core σ ι :=
  { core with
    currentState := some (P.chart.landing (fun _ => none) s)
    initial := fun _ => none }

theorem startCore_idle (hP : P.chart.WellNested) (hS : Ready S) {s : σ}
    (hcore : S'.core = P.startCore S.core (.user s)) : ∃ c, P.Idle S' c := by
  obtain ⟨u, hu⟩ := landing_user hP Chart.goodMemory_empty s
  refine ⟨u, ⟨?_, ?_⟩, ?_, ?_⟩
  · rw [hcore]
    exact hS.impl
  · rw [hcore]
    exact hS.working
  · rw [hcore, ← hu]
    rfl
  · rw [hcore]
    exact Chart.goodMemory_empty

variable [Inhabited ε]

theorem start_apply (himpl : S.core.impl.isSome) (initial : Option (StateObj σ)) :
    P.start initial S = P.enterStatesFromDownTo none initial default (cleared S) := by
  obtain ⟨i, hi⟩ := Option.isSome_iff_exists.mp himpl
  have hcleared : cleared S = { S with
      core := { S.core with
        currentState := some .kInTransition
        impl := some i
        initial := fun _ => none }
      trace := [] } := by
    rw [← hi]
    rfl
  unfold start
  rw [getCore_bind_apply, hi, hcleared]
  rfl

/-- **Start.** It makes exactly the calls of entering from the root down to its argument and
of the descent below it, or stops after a prefix of them because a callback throws. -/
theorem start_runs (hP : P.chart.WellNested) (S : Sys σ ε α ι ω) (s : σ) :
    Runs (P.enterStatesFromDownTo none (some (.user s)) default) (cleared S)
      (P.startCalls default (.user s)) (fun _ g => g = P.startCore S.core (.user s))
      (fun f g => f = .thrown ∧ g.Agrees (cleared S).core) := by
  have hac : Acyclic P.parent := hP.acyclic
  have hseg := ancestors_seg hac (StateObj.user s)
  have hruns := enterStatesFromDownTo_runs default (S := cleared S) hP
    Chart.goodMemory_empty hseg (fun _ _ h => nomatch h) (length_lt_fuel hseg) Core.Agrees.rfl
  unfold startCalls
  rw [ancestors_eq_cons hac] at hruns ⊢
  rw [List.reverse_cons]
  exact hruns

theorem start_ok (hP : P.chart.WellNested) (himpl : S.core.impl.isSome) {s : σ}
    (h : P.start (some (.user s)) S = .ok () S') :
    S'.trace = P.startCalls default (.user s) ∧
      S'.core = P.startCore S.core (.user s) := by
  rw [start_apply himpl] at h
  exact (start_runs hP S s).of_ok h

end Fsm

end EventFramework.Statemachine
