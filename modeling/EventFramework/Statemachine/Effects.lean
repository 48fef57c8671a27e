import EventFramework.ForMathlib.ReplayedCalls
import EventFramework.Statemachine.Sessions

/-!
# What a call does to the world

The specifications of `Start` and `React` so far say which calls are made and what becomes of
the machine. Here they are completed by the world: `effect` says what a `React` does to it,
without the machine, and `react_effect` and `start_effect` connect this to the code.

For this the callbacks must not look at the history map. In the source they cannot, it is a
private member (`HistoryIsPrivate`).
-/

namespace EventFramework.Statemachine

open TracedProgram PointerChain ParentForest StateHierarchy

/-- A callback that does not depend on the history map. -/
def IgnoresHistory {σ ι ω A : Type} (f : Callback (Core σ ι) ω A) : Prop :=
  ∀ ⦃g core : Core σ ι⦄, g.Agrees core → f g = f core

/-- Where a call of the machine is stopped. -/
inductive Stop
  /-- in the state the event came to -/
  | staying (f : Failure)
  /-- between two states, by a callback that throws -/
  | moving

namespace Stop

def failure : Stop → Failure
  | .staying f => f
  | .moving => .thrown

/-- The machine the callbacks see at this place. -/
def core {σ ι : Type} (core : Core σ ι) : Stop → Core σ ι
  | .staying _ => core
  | .moving => { core with currentState := some .kInTransition }

/-- How a call that is stopped leaves the machine. -/
def Leaves {σ ι : Type} (core g : Core σ ι) : Stop → Prop
  | .staying _ => g = core
  | .moving => g.Agrees { core with currentState := some .kInTransition }

end Stop

/-- Where a callback called for an answer is. -/
def Response.stop {σ α : Type} (response : Response σ α) : Stop :=
  match response.target? with
  | some _ => .moving
  | none => .staying .thrown

namespace Fsm

variable {σ ε α ι ω : Type} (P : Fsm σ ε α ι ω)

/-- The callbacks do not look at the history map. -/
structure HistoryIsPrivate : Prop where
  handler : ∀ s event, IgnoresHistory (P.handler s event)
  action : ∀ a event, IgnoresHistory (P.action a event)
  onStateChange : ∀ f, P.onStateChange = some f →
    ∀ event oldState newState, IgnoresHistory (f event oldState newState)
  onStateEntry : ∀ f, P.onStateEntry = some f → ∀ s, IgnoresHistory (f s)
  onStateExit : ∀ f, P.onStateExit = some f → ∀ s, IgnoresHistory (f s)
  onHandleEvent : ∀ f, P.onHandleEvent = some f → ∀ s event, IgnoresHistory (f s event)
  onUnhandledEvent : ∀ f, P.onUnhandledEvent = some f → ∀ s event, IgnoresHistory (f s event)
  onDeferEvent : ∀ f, P.onDeferEvent = some f → ∀ s event, IgnoresHistory (f s event)

/-- What a call does to the world while the machine is `core`. -/
def perform (core : Core σ ι) : Call σ ε α → EStateM Unit ω Unit
  | .onHandleEvent s event => hook (P.onHandleEvent.map fun f => f s event) core
  | .handler s event => (fun _ => ()) <$> P.handler s event core
  | .onDeferEvent s event => hook (P.onDeferEvent.map fun f => f s event) core
  | .onUnhandledEvent s event => hook (P.onUnhandledEvent.map fun f => f s event) core
  | .onStateChange event oldState newState =>
    hook (P.onStateChange.map fun f => f event oldState newState) core
  | .exitState _ | .enterState _ => pure ()
  | .onStateExit s => hook (P.onStateExit.map fun f => f s) core
  | .onStateEntry s => hook (P.onStateEntry.map fun f => f s) core
  | .exitAction _ a event | .action a event | .entryAction _ a event => P.action a event core

/-- An event is offered to the states of a chain in turn, up to the first answer other than
`UnhandledEvent`. Returned are the answer and the state that gave it, at first `last`. -/
def offer (event : ε) (last : σ) : List (StateObj σ) → Callback (Core σ ι) ω (σ × Response σ α)
  | [], _ => pure (last, .unhandledEvent)
  | .user s :: chain, core => do
    match ← P.askState event s core with
    | .unhandledEvent => offer event s chain core
    | response => pure (s, response)
  | _ :: chain, core => offer event last chain core

/-- The answer is to defer, and there is no callback for it. -/
def lacksDeferral : Response σ α → Bool
  | .deferEvent => P.onDeferEvent.isNone
  | _ => false

variable {P}

theorem offer_cons (event : ε) (last s : σ) (chain : List (StateObj σ)) (core : Core σ ι) (w : ω) :
    P.offer event last (.user s :: chain) core w = match P.askState event s core w with
      | .ok .unhandledEvent w => P.offer event s chain core w
      | .ok response w => .ok (s, response) w
      | .error e w => .error e w := by
  simp only [offer, bind, EStateM.bind]
  cases P.askState event s core w with
  | error e w => rfl
  | ok response w => cases response <;> rfl

/-! ### The history map is not looked at -/

section Agrees

variable (hpriv : P.HistoryIsPrivate) {g core : Core σ ι} (h : g.Agrees core)

include h in
theorem hook_agrees {H : Type} (f : Option H) {k : H → Callback (Core σ ι) ω Unit}
    (hk : ∀ x, f = some x → IgnoresHistory (k x)) : hook (f.map k) g = hook (f.map k) core := by
  cases f with
  | none => rfl
  | some x => exact hk x rfl h

include hpriv h

theorem perform_agrees (c : Call σ ε α) : P.perform g c = P.perform core c := by
  cases c with
  | handler s event =>
    have hhandler : P.handler s event g = P.handler s event core := hpriv.handler s event h
    simp only [perform, hhandler]
  | onHandleEvent s event => exact hook_agrees h _ fun f hf => hpriv.onHandleEvent f hf s event
  | onDeferEvent s event => exact hook_agrees h _ fun f hf => hpriv.onDeferEvent f hf s event
  | onUnhandledEvent s event =>
    exact hook_agrees h _ fun f hf => hpriv.onUnhandledEvent f hf s event
  | onStateChange event s t =>
    exact hook_agrees h _ fun f hf => hpriv.onStateChange f hf event s t
  | onStateExit s => exact hook_agrees h _ fun f hf => hpriv.onStateExit f hf s
  | onStateEntry s => exact hook_agrees h _ fun f hf => hpriv.onStateEntry f hf s
  | exitState s => rfl
  | enterState s => rfl
  | exitAction s a event => exact hpriv.action a event h
  | action a event => exact hpriv.action a event h
  | entryAction s a event => exact hpriv.action a event h

theorem askState_agrees (event : ε) (s : σ) : P.askState event s g = P.askState event s core := by
  have hhook := hook_agrees h P.onHandleEvent fun f hf =>
    hpriv.onHandleEvent f hf (.user s) event
  have hhandler : P.handler s event g = P.handler s event core := hpriv.handler s event h
  simp only [askState, hhook, hhandler]

theorem offer_agrees (event : ε) (last : σ) (chain : List (StateObj σ)) :
    P.offer event last chain g = P.offer event last chain core := by
  induction chain generalizing last with
  | nil => rfl
  | cons x chain ih =>
    cases x with
    | user s => simp only [offer, askState_agrees hpriv h, ih]
    | _ => exact ih last

end Agrees

/-! ### The world follows the calls -/

variable (P) in
/-- While the machine is `core`, the history map aside, a program does what its calls do. -/
abbrev Plays {A : Type} (core : Core σ ι) (m : M σ ε α ι ω A) : Prop :=
  Replays (P.perform core) (fun g => g.Agrees core) (fun g => g.Agrees core) m

theorem plays_hook {core : Core σ ι} {H : Type} {f : Option H} {k : H → Callback (Core σ ι) ω Unit}
    {c : Call σ ε α} (hc : P.perform core c = hook (f.map k) core)
    (hk : ∀ x, f = some x → IgnoresHistory (k x)) : P.Plays core (callIfSet c (f.map k)) := by
  refine Replays.callIfSet fun x hx g hg => ?_
  obtain ⟨y, hy, rfl⟩ := Option.map_eq_some_iff.mp hx
  rw [hc, hy]
  exact hk y hy hg

section Walks

variable (hpriv : P.HistoryIsPrivate) (core : Core σ ι) (event : ε)

include hpriv

theorem exitState_plays (state : StateObj σ) : P.Plays core (P.exitState state event) := by
  have hmark : P.Plays core (mark (.exitState state)) := Replays.mark rfl
  have hhook : P.Plays core (callIfSet (.onStateExit state) (P.onStateExit.map fun f => f state)) :=
    plays_hook rfl fun f hf => hpriv.onStateExit f hf state
  exact hmark.bind fun _ => hhook.bind fun _ =>
    Replays.forM_call (fun onEx _ hg => hpriv.action onEx event hg) (P.onExit state)

theorem enterState_plays (state : StateObj σ) : P.Plays core (P.enterState state event) := by
  have hmark : P.Plays core (mark (.enterState state)) := Replays.mark rfl
  have hhook : P.Plays core
      (callIfSet (.onStateEntry state) (P.onStateEntry.map fun f => f state)) :=
    plays_hook rfl fun f hf => hpriv.onStateEntry f hf state
  exact hmark.bind fun _ => hhook.bind fun _ =>
    Replays.forM_call (fun onEn _ hg => hpriv.action onEn event hg) (P.onEntry state)

theorem executeActions_plays (transition : Transition σ α) :
    P.Plays core (P.executeActions transition event) :=
  Replays.forM_call (fun action _ hg => hpriv.action action event hg) transition.actionList

variable [DecidableEq σ]

theorem stateChanged_plays (oldState target : StateObj σ) :
    P.Plays core (P.stateChanged oldState target event) := by
  rw [stateChanged]
  by_cases hne : oldState ≠ target
  · rw [if_pos hne]
    exact plays_hook rfl fun f hf => hpriv.onStateChange f hf event oldState target
  · rw [if_neg hne]
    exact Replays.pure (fun _ hg => hg) ()

omit hpriv in
theorem saveHistory_plays (state : StateObj σ) : P.Plays core (P.saveHistory state) := by
  intro S hS
  rw [P.saveHistory_apply]
  exact ⟨[], (List.append_nil S.trace).symm, rfl, hS.currentState, hS.working, hS.impl⟩

theorem exitLoop_plays (top : Option (StateObj σ)) :
    ∀ n state, P.Plays core (P.exitLoop top event n state) := by
  intro n
  induction n with
  | zero => exact fun _ => Replays.fail Failure.noConfusion
  | succ n ih =>
    intro state
    unfold exitLoop
    by_cases htop : state = top
    · rw [if_pos htop]
      exact Replays.pure (fun _ hg => hg) ()
    · rw [if_neg htop]
      cases state with
      | none => exact Replays.fail Failure.noConfusion
      | some s =>
        exact (saveHistory_plays core s).bind fun _ =>
          (exitState_plays hpriv core event s).bind fun _ => ih _

theorem enterStatesFromDownToRecursive_plays (top : Option (StateObj σ)) :
    ∀ n target, P.Plays core (P.enterStatesFromDownToRecursive top event n target) := by
  intro n
  induction n with
  | zero => exact fun _ => Replays.fail Failure.noConfusion
  | succ n ih =>
    intro target
    unfold enterStatesFromDownToRecursive
    cases target with
    | none => exact Replays.pure (fun _ hg => hg) ()
    | some t =>
      by_cases htop : top = some t
      · simp only [if_pos htop]
        exact Replays.pure (fun _ hg => hg) ()
      · simp only [if_neg htop]
        exact (ih _).bind fun _ => enterState_plays hpriv core event t

omit [DecidableEq σ] in
theorem enterInitialStates_plays :
    ∀ n target, P.Plays core (P.enterInitialStates event n target) := by
  intro n
  induction n with
  | zero => exact fun _ => Replays.fail Failure.noConfusion
  | succ n ih =>
    intro target
    rw [enterInitialStates]
    refine Replays.getCore_bind fun g _ => ?_
    cases P.getInitialState g target with
    | none => exact Replays.pure (fun _ hg => hg) target
    | some state => exact (enterState_plays hpriv core event state).bind fun _ => ih state

variable [Fintype σ]

theorem exitStatesFromUpTo_plays (src : StateObj σ) (top : Option (StateObj σ)) :
    P.Plays core (P.exitStatesFromUpTo src top event) := by
  rw [exitStatesFromUpTo]
  by_cases htop : some src = top
  · rw [if_pos htop]
    exact exitState_plays hpriv core event src
  · rw [if_neg htop]
    exact exitLoop_plays hpriv core event top _ _

/-- The current state is written last, after all callbacks. -/
theorem enterStatesFromDownTo_replays (top target : Option (StateObj σ)) :
    Replays (P.perform core) (fun g => g.Agrees core) (fun _ => True)
      (P.enterStatesFromDownTo top target event) := by
  cases target with
  | none => exact Replays.fail Failure.noConfusion
  | some target =>
    have habove : P.Plays core (P.enterStatesAbove top target event) := by
      rw [enterStatesAbove]
      by_cases htop : top ≠ some target
      · rw [if_pos htop]
        exact enterStatesFromDownToRecursive_plays hpriv core event top _ _
      · rw [if_neg htop]
        exact Replays.pure (fun _ hg => hg) ()
    exact habove.bind fun _ => (enterState_plays hpriv core event target).bind fun _ =>
      (enterInitialStates_plays hpriv core event _ target).bind fun _ =>
      Replays.getCore_bind fun _ _ => Replays.setCore trivial

end Walks

/-! ### Dispatching an answer -/

variable [DecidableEq σ] [Fintype σ] {S : Sys σ ε α ι ω} {c : σ} (event : ε)

/-- A transition does to the world what its calls do, and nothing else. -/
theorem takeTransition_effect (hP : P.chart.WellNested) (hpriv : P.HistoryIsPrivate)
    (hgood : P.chart.GoodMemory S.core.initial) {c : StateObj σ}
    (hc : S.core.currentState = some c) (transition : Transition σ α) (t : StateObj σ) :
    match replay (P.perform (Stop.moving.core S.core))
        (P.transitionCalls S.core.initial c t transition.actionList event) S.world with
    | .ok _ w => ∃ S', P.takeTransition transition t event S = .ok () S' ∧ S'.world = w ∧
        S'.core = P.transitionCore S.core c t
    | .error _ w => ∃ S', P.takeTransition transition t event S = .error .thrown S' ∧
        S'.world = w ∧ Stop.moving.Leaves S.core S'.core := by
  have hreplays : Replays (P.perform (Stop.moving.core S.core)) (· = S.core) (fun _ => True)
      (P.takeTransition transition t event) := by
    rw [takeTransition]
    refine Replays.getCore_bind fun g hg => ?_
    subst hg
    rw [hc, P.findCommonParent_eq hP.acyclic]
    exact Replays.setCore_bind (K := fun g => g.Agrees (Stop.moving.core S.core)) Core.Agrees.rfl <|
      (stateChanged_plays hpriv _ event c t).bind fun _ =>
      (exitStatesFromUpTo_plays hpriv _ event c _).bind fun _ =>
      (executeActions_plays hpriv _ event transition).bind fun _ =>
      enterStatesFromDownTo_replays hpriv _ event _ _
  have hruns := takeTransition_runs event hP hgood hc transition t
  have houtcome := hreplays.outcome rfl hruns fun _ _ hE => hE.1
  cases hworld : replay (P.perform (Stop.moving.core S.core))
      (P.transitionCalls S.core.initial c t transition.actionList event) S.world with
  | ok _ w =>
    rw [hworld] at houtcome
    obtain ⟨_, S', htake, hw, hcore⟩ := houtcome
    exact ⟨S', htake, hw, hcore⟩
  | error _ w =>
    rw [hworld] at houtcome
    obtain ⟨S', htake, hw, -, hagrees⟩ := houtcome
    exact ⟨S', htake, hw, hagrees⟩

/-- Dispatching an answer does to the world what its calls do. -/
theorem dispatchTransition_effect (hP : P.chart.WellNested) (hpriv : P.HistoryIsPrivate)
    (hgood : P.chart.GoodMemory S.core.initial) (hc : S.core.currentState = some (.user c))
    {response : Response σ α} (hdefer : response ≠ .deferEvent) :
    match replay (P.perform (response.stop.core S.core))
        (P.dispatchCalls S.core.initial (.user c) event response) S.world with
    | .ok _ w => ∃ S', P.dispatchTransition (.user c) response.transition.assign event S =
        .ok () S' ∧ S'.world = w ∧ S'.core = P.dispatchCore S.core (.user c) response
    | .error _ w => ∃ S', P.dispatchTransition (.user c) response.transition.assign event S =
        .error .thrown S' ∧ S'.world = w ∧ response.stop.Leaves S.core S'.core := by
  cases ht : response.target? with
  | some t =>
    have htake := takeTransition_effect event hP hpriv hgood hc
      response.transition.assign (.user t)
    rw [response.actionList_assign] at htake
    have hstop : response.stop = .moving := by rw [Response.stop, ht]
    rw [dispatchTransition_of_target ht, hstop]
    simp only [dispatchCalls, dispatchCore, ht]
    exact htake
  | none =>
    have hstop : response.stop = .staying .thrown := by rw [Response.stop, ht]
    have hplays :
        P.Plays S.core (P.dispatchTransition (.user c) response.transition.assign event) := by
      cases response with
      | unhandledEvent => exact plays_hook rfl fun f hf => hpriv.onUnhandledEvent f hf _ event
      | deferEvent => exact absurd rfl hdefer
      | noTransition => exact executeActions_plays hpriv _ event _
      | noTransitionAction action => exact executeActions_plays hpriv _ event _
      | noTransitionActions actions => exact executeActions_plays hpriv _ event _
      | _ => cases ht
    have hquiet := dispatchTransition_quiet (P := P) event S.core.initial (.user c) ht hdefer
    have houtcome := hplays.outcome Core.Agrees.rfl (hquiet S) fun _ _ hE => hE.1
    have hcore : P.dispatchCore S.core (.user c) response = S.core := by
      rw [dispatchCore, ht]
    rw [hstop, hcore]
    cases hworld : replay (P.perform S.core)
        (P.dispatchCalls S.core.initial (.user c) event response)
        S.world with
    | ok _ w =>
      rw [hworld] at houtcome
      obtain ⟨_, S', hdispatch, hw, hcore'⟩ := houtcome
      simp only [Stop.core, hworld]
      exact ⟨S', hdispatch, hw, hcore'⟩
    | error _ w =>
      rw [hworld] at houtcome
      obtain ⟨S', hdispatch, hw, -, hcore'⟩ := houtcome
      simp only [Stop.core, hworld]
      exact ⟨S', hdispatch, hw, hcore'⟩

/-! ### Selecting an answer -/

variable (P) in
/-- What the loop of `React` still does when it has got an answer. -/
def leave (event : ε) (last : σ) :
    Response σ α → M σ ε α ι ω (Option (Transition σ α))
  | .deferEvent =>
    match P.onDeferEvent with
    | none => fail .assertion
    | some f => do
      call (.onDeferEvent (.user last) event) (f (.user last) event)
      pure none
  | response => pure (some response.transition.assign)

omit [DecidableEq σ] [Fintype σ] in
/-- One round of the loop, up to the answer of the state. -/
theorem askState_effect (s : σ) (S : Sys σ ε α ι ω) :
    ∃ T, ∀ k : Transition σ α → M σ ε α ι ω (Option (Transition σ α)),
      (do
        callIfSet (.onHandleEvent (.user s) event)
          (P.onHandleEvent.map fun f => f (.user s) event)
        k (← P.callHandler (.user s) event) : M σ ε α ι ω (Option (Transition σ α))) S =
      match P.askState event s S.core S.world with
        | .ok response w => k response.transition.assign ⟨S.core, w, T⟩
        | .error _ w => .error .thrown ⟨S.core, w, T⟩ := by
  have hhook := callIfSet_apply (S := S) (.onHandleEvent (.user s) event)
    (P.onHandleEvent.map fun f => f (.user s) event)
  generalize S.trace ++ callsIf (P.onHandleEvent.map fun f => f (.user s) event).isSome
    (.onHandleEvent (.user s) event) = T at hhook
  simp only [askState, bind, EStateM.bind]
  cases hh : hook (P.onHandleEvent.map fun f => f (.user s) event) S.core S.world with
  | error e w =>
    rw [hh] at hhook
    exact ⟨T, fun k => by rw [hhook]⟩
  | ok _ w =>
    rw [hh] at hhook
    have hhandler := P.callHandler_apply s event (S := ⟨S.core, w, T⟩)
    refine ⟨T ++ [.handler s event], fun k => ?_⟩
    rw [hhook]
    simp only at hhandler ⊢
    rw [hhandler]
    cases P.handler s event S.core w <;> rfl

omit [DecidableEq σ] [Fintype σ] in
/-- The loop offers the event to the states of a chain. -/
theorem bubble_effect {chain : List (StateObj σ)} :
    ∀ {n u} {S : Sys σ ε α ι ω} (last : σ), Seg P.parent (some (.user u)) none (.user u :: chain) →
      chain.length < n → (∀ x ∈ chain, ∃ v, x = .user v) →
      match P.offer event last (.user u :: chain) S.core S.world with
      | .ok (v, response) w =>
        ∃ T, P.bubble event n (.user u) S = P.leave event v response ⟨S.core, w, T⟩
      | .error _ w => ∃ T, P.bubble event n (.user u) S = .error .thrown ⟨S.core, w, T⟩ := by
  induction chain with
  | nil =>
    intro n u S last hseg hn _
    obtain ⟨n, rfl⟩ := Nat.exists_eq_succ_of_ne_zero (Nat.ne_zero_of_lt hn)
    have hparent : P.parent (.user u) = none := Seg.nil_iff.mp (Seg.cons_iff.mp hseg).2
    obtain ⟨T, hround⟩ := P.askState_effect event u S
    rw [offer_cons]
    unfold bubble
    cases hanswer : P.askState event u S.core S.world with
    | error e w =>
      rw [hanswer] at hround
      exact ⟨T, hround _⟩
    | ok response w =>
      rw [hanswer] at hround
      cases response with
      | unhandledEvent =>
        refine ⟨T, (hround _).trans ?_⟩
        simp only [Response.target_assign, Response.targetObj, Response.target?, hparent, leave]
      | _ => exact ⟨T, hround _⟩
  | cons x chain ih =>
    intro n u S last hseg hn huser
    obtain ⟨n, rfl⟩ := Nat.exists_eq_succ_of_ne_zero (Nat.ne_zero_of_lt hn)
    obtain ⟨⟨v, rfl⟩, husers⟩ := List.forall_mem_cons.mp huser
    obtain ⟨hparent, hseg'⟩ := Seg.cons_iff.mp (Seg.cons_iff.mp hseg).2
    obtain ⟨T, hround⟩ := P.askState_effect event u S
    rw [offer_cons]
    cases hanswer : P.askState event u S.core S.world with
    | error e w =>
      rw [hanswer] at hround
      exact ⟨T, hround _⟩
    | ok response w =>
      rw [hanswer] at hround
      cases response with
      | unhandledEvent =>
        have hpass : P.bubble event (n + 1) (.user u) S =
            P.bubble event n (.user v) ⟨S.core, w, T⟩ := by
          refine (hround _).trans ?_
          simp only [Response.target_assign, Response.targetObj, Response.target?, hparent]
        rw [hpass]
        exact ih (S := ⟨S.core, w, T⟩) u (.cons hseg') (by simpa using hn) husers
      | _ => exact ⟨T, hround _⟩

/-! ### The entry points -/

variable (P) in
/-- What a `React` of the machine `core`, which is in the state `c`, does to the world. It
returns the answer and the state that gave it. -/
def effect (event : ε) (c : σ) (core : Core σ ι) : EStateM Stop ω (σ × Response σ α) := fun w =>
  match P.offer event c (ancestors P.parent (.user c)) core w with
  | .error _ w => .error (.staying .thrown) w
  | .ok (last, response) w =>
    if P.lacksDeferral response then
      .error (.staying .assertion) w
    else
      match replay (P.perform (response.stop.core core)) (deferCalls event (.user last) response ++
        P.dispatchCalls core.initial (.user c) event response) w with
      | .error _ w => .error response.stop w
      | .ok _ w => .ok (last, response) w

variable (P) in
/-- What `React` still does when it has got an answer. -/
def finish (event : ε) (c last : σ) (response : Response σ α) : M σ ε α ι ω Unit := do
  match ← P.leave event last response with
  | none => clearWorking
  | some transition => do
    P.dispatchTransition (.user c) transition event
    clearWorking

theorem finish_of_lacksDeferral (last : σ) {response : Response σ α}
    (h : P.lacksDeferral response = true) :
    P.finish event c last response S = .error .assertion S := by
  cases response with
  | deferEvent =>
    have hnone : P.onDeferEvent = none := Option.isNone_iff_eq_none.mp h
    simp only [finish, leave, hnone]
    rfl
  | _ => cases h

theorem finish_effect (hP : P.chart.WellNested) (hpriv : P.HistoryIsPrivate)
    (hgood : P.chart.GoodMemory S.core.initial) (hc : S.core.currentState = some (.user c))
    (last : σ) {response : Response σ α} (h : P.lacksDeferral response = false) :
    match replay (P.perform (response.stop.core S.core))
        (deferCalls event (.user last) response ++
          P.dispatchCalls S.core.initial (.user c) event response) S.world with
    | .ok _ w => ∃ S', P.finish event c last response S = .ok () S' ∧ S'.world = w ∧
        S'.core = { P.dispatchCore S.core (.user c) response with working := false }
    | .error _ w => ∃ S', P.finish event c last response S = .error .thrown S' ∧ S'.world = w ∧
        response.stop.Leaves S.core S'.core := by
  by_cases hdefer : response = .deferEvent
  · subst hdefer
    obtain ⟨f, hf⟩ := Option.isSome_iff_exists.mp (Option.isNone_eq_false_iff.mp h)
    have hperform : P.perform S.core (.onDeferEvent (.user last) event) =
        f (.user last) event S.core := by
      simp only [perform, hf]
      rfl
    have hcalls : deferCalls event (.user last) (.deferEvent : Response σ α) ++
        P.dispatchCalls S.core.initial (.user c) event .deferEvent =
          [.onDeferEvent (.user last) event] := rfl
    rw [hcalls, replay_singleton]
    simp only [Response.stop, Response.target?, Stop.core, hperform, finish, leave, hf, bind_apply,
      call]
    cases f (.user last) event S.core S.world with
    | ok _ w => exact ⟨_, rfl, rfl, rfl⟩
    | error _ w => exact ⟨_, rfl, rfl, rfl⟩
  · have hleave : P.leave event last response = pure (some response.transition.assign) := by
      cases response <;> first | rfl | exact absurd rfl hdefer
    have hdispatch := dispatchTransition_effect event hP hpriv hgood hc hdefer
    rw [deferCalls_of_ne hdefer, List.nil_append]
    simp only [finish, hleave, pure_bind]
    cases hworld : replay (P.perform (response.stop.core S.core))
        (P.dispatchCalls S.core.initial (.user c) event response) S.world with
    | ok _ w =>
      rw [hworld] at hdispatch
      obtain ⟨S', hdispatch, hw, hcore⟩ := hdispatch
      simp only [bind_apply, hdispatch]
      exact ⟨_, rfl, hw, by rw [← hcore]⟩
    | error _ w =>
      rw [hworld] at hdispatch
      obtain ⟨S', hdispatch, hw, hleaves⟩ := hdispatch
      simp only [bind_apply, hdispatch]
      exact ⟨S', rfl, hw, hleaves⟩

/-- **React** does to the world what `effect` says, and is stopped when and where `effect` is. -/
theorem react_effect (hP : P.chart.WellNested) (hpriv : P.HistoryIsPrivate)
    (hgood : P.chart.GoodMemory S.core.initial) (hc : S.core.currentState = some (.user c))
    (hidle : S.core.working = false) :
    match P.effect event c (busy S).core S.world with
    | .ok (_, response) w => ∃ S', P.react event S = .ok () S' ∧ S'.world = w ∧
        S'.core = P.dispatchCore S.core (.user c) response
    | .error stop w => ∃ S', P.react event S = .error stop.failure S' ∧ S'.world = w ∧
        stop.Leaves (busy S).core S'.core := by
  have hac : Acyclic P.parent := hP.acyclic
  have hseg := ancestors_seg hac (StateObj.user c)
  have husers := P.ancestors_user hac c
  have hfuel := length_lt_fuel hseg
  rw [ancestors_eq_cons hac] at hseg husers hfuel
  have hloop := bubble_effect event (S := busy S) c hseg
    (Nat.lt_of_succ_lt hfuel) (List.forall_mem_cons.mp husers).2
  rw [← ancestors_eq_cons hac] at hloop
  rw [react_apply hc hidle]
  have hworld : (busy S).world = S.world := rfl
  rw [hworld] at hloop
  unfold effect
  cases hoffer : P.offer event c (ancestors P.parent (.user c)) (busy S).core S.world with
  | error _ w =>
    rw [hoffer] at hloop
    obtain ⟨T, hbubble⟩ := hloop
    simp only [bind_apply, hbubble]
    exact ⟨_, rfl, rfl, rfl⟩
  | ok answered w =>
    obtain ⟨last, response⟩ := answered
    rw [hoffer] at hloop
    obtain ⟨T, hbubble⟩ := hloop
    have hfinish : (P.bubble event (fuel σ) (.user c) >>= fun left => match left with
        | none => clearWorking
        | some transition => do
          P.dispatchTransition (.user c) transition event
          clearWorking) (busy S) = P.finish event c last response ⟨(busy S).core, w, T⟩ := by
      rw [bind_apply, hbubble, finish, bind_apply]
    simp only
    by_cases hlacks : P.lacksDeferral response = true
    · rw [if_pos hlacks]
      exact ⟨_, hfinish.trans (finish_of_lacksDeferral event last hlacks), rfl, rfl⟩
    · rw [if_neg hlacks]
      have heffect := finish_effect (S := ⟨(busy S).core, w, T⟩) event hP hpriv hgood hc last
        (Bool.eq_false_iff.mpr hlacks)
      simp only at heffect ⊢
      cases hreplay : replay (P.perform (response.stop.core (busy S).core))
          (deferCalls event (.user last) response ++
            P.dispatchCalls (busy S).core.initial (.user c) event response) w with
      | error _ w =>
        rw [hreplay] at heffect
        obtain ⟨S', hS', hw, hleaves⟩ := heffect
        have hthrown : response.stop.failure = .thrown := by
          rw [Response.stop]
          cases response.target? <;> rfl
        refine ⟨S', ?_, hw, hleaves⟩
        rw [hthrown]
        exact hfinish.trans hS'
      | ok _ w =>
        rw [hreplay] at heffect
        obtain ⟨S', hS', hw, hcore⟩ := heffect
        refine ⟨S', hfinish.trans hS', hw, hcore.trans ?_⟩
        rw [dispatchCore_setWorking, ← hidle]
        rfl

/-- A sentinel has a null handler. -/
theorem react_sentinel_effect {s : StateObj σ} (hs : ∀ u, s ≠ .user u)
    (hc : S.core.currentState = some s) (hidle : S.core.working = false) :
    ∃ T, P.react event S =
      match hook (P.onHandleEvent.map fun f => f s event) (busy S).core S.world with
      | .ok _ w => .error .nullPointer ⟨(busy S).core, w, T⟩
      | .error _ w => .error .thrown ⟨(busy S).core, w, T⟩ := by
  have hhandler : P.callHandler s event = fail .nullPointer := by
    cases s with
    | user u => exact absurd rfl (hs u)
    | _ => rfl
  have hhook := callIfSet_apply (S := busy S) (.onHandleEvent s event)
    (P.onHandleEvent.map fun f => f s event)
  refine ⟨(busy S).trace ++ callsIf (P.onHandleEvent.map fun f => f s event).isSome
    (.onHandleEvent s event), ?_⟩
  rw [react_apply hc hidle, bind_apply]
  unfold fuel bubble
  rw [bind_apply, hhook, hhandler]
  have hworld : (busy S).world = S.world := rfl
  rw [hworld]
  cases hook (P.onHandleEvent.map fun f => f s event) (busy S).core S.world <;> rfl

/-- **Start** does to the world what its calls do. -/
theorem start_effect [Inhabited ε] (hP : P.chart.WellNested) (hpriv : P.HistoryIsPrivate)
    (himpl : S.core.impl.isSome) (s : σ) :
    match replay (P.perform (cleared S).core) (P.startCalls default (.user s)) S.world with
    | .ok _ w => ∃ S', P.start (some (.user s)) S = .ok () S' ∧ S'.world = w ∧
        S'.core = P.startCore S.core (.user s)
    | .error _ w => ∃ S', P.start (some (.user s)) S = .error .thrown S' ∧ S'.world = w ∧
        S'.core.Agrees (cleared S).core := by
  have hruns := start_runs hP S s
  have hreplays :=
    enterStatesFromDownTo_replays hpriv (cleared S).core default none (some (.user s))
  have houtcome := hreplays.outcome Core.Agrees.rfl hruns fun _ _ hE => hE.1
  have hworld : (cleared S).world = S.world := rfl
  rw [hworld] at houtcome
  rw [start_apply himpl]
  cases hreplay : replay (P.perform (cleared S).core) (P.startCalls default (.user s)) S.world with
  | ok _ w =>
    rw [hreplay] at houtcome
    obtain ⟨_, S', hstart, hw, hcore⟩ := houtcome
    exact ⟨S', hstart, hw, hcore⟩
  | error _ w =>
    rw [hreplay] at houtcome
    obtain ⟨S', hstart, hw, -, hagrees⟩ := houtcome
    exact ⟨S', hstart, hw, hagrees⟩

end Fsm

end EventFramework.Statemachine
