import EventFramework.ForMathlib.CallbackLog
import EventFramework.Statemachine.Reactions
import EventFramework.Statemachine.Visits

/-!
# What the callbacks of a machine see

`P.logged` is the machine `P` with every callback writing down the data members it is called
with. It runs as `P` does (`enter_logged`), so the cores in its log are those that the
callbacks of `P` see (`coresSeen`).

During `React` they are those of a machine that is busy and started (`react_watched`,
`Engaged`); during `Start` the current state is `kInTransition`, and the busy flag is what it
was before (`start_watched`, `Entering`). No assumption on the states is needed.
-/

namespace EventFramework.Statemachine

open TracedProgram StateHierarchy

namespace Fsm

variable {σ ε α ι ω : Type} (P : Fsm σ ε α ι ω)

/-- The machine with callbacks that write down what they see. -/
def logged : Fsm σ ε α ι (ω × List (Core σ ι)) where
  state := P.state
  handler s event := TracedProgram.logged (P.handler s event)
  action a event := TracedProgram.logged (P.action a event)
  onStateChange := P.onStateChange.map fun f event oldState newState =>
    TracedProgram.logged (f event oldState newState)
  onStateEntry := P.onStateEntry.map fun f s => TracedProgram.logged (f s)
  onStateExit := P.onStateExit.map fun f s => TracedProgram.logged (f s)
  onHandleEvent := P.onHandleEvent.map fun f s event => TracedProgram.logged (f s event)
  onUnhandledEvent := P.onUnhandledEvent.map fun f s event => TracedProgram.logged (f s event)
  onDeferEvent := P.onDeferEvent.map fun f s event => TracedProgram.logged (f s event)
  onRecallDeferredEvents := P.onRecallDeferredEvents.map fun f s => TracedProgram.logged (f s)

/-! ### Single steps -/

section Steps

variable (I : Core σ ι → Prop)

theorem exitState_watched (state : StateObj σ) (event : ε) :
    Watched I I (P.exitState state event) (P.logged.exitState state event) := by
  have hhook : Watched I I
      (callIfSet (Call.onStateExit state) (P.onStateExit.map fun f => f state) : M σ ε α ι ω Unit)
      (callIfSet (Call.onStateExit state) (P.logged.onStateExit.map fun f => f state)) :=
    Watched.callIfSet _ P.onStateExit fun _ => rfl
  exact (Watched.mark _).bind fun _ => hhook.bind fun _ =>
    Watched.forM_call _ (fun onEx => P.action onEx event) (P.onExit state)

theorem enterState_watched (state : StateObj σ) (event : ε) :
    Watched I I (P.enterState state event) (P.logged.enterState state event) := by
  have hhook : Watched I I
      (callIfSet (Call.onStateEntry state) (P.onStateEntry.map fun f => f state) : M σ ε α ι ω Unit)
      (callIfSet (Call.onStateEntry state) (P.logged.onStateEntry.map fun f => f state)) :=
    Watched.callIfSet _ P.onStateEntry fun _ => rfl
  exact (Watched.mark _).bind fun _ => hhook.bind fun _ =>
    Watched.forM_call _ (fun onEn => P.action onEn event) (P.onEntry state)

theorem executeActions_watched (transition : Transition σ α) (event : ε) :
    Watched I I (P.executeActions transition event) (P.logged.executeActions transition event) :=
  Watched.forM_call _ (fun action => P.action action event) transition.actionList

theorem callHandler_watched (s : StateObj σ) (event : ε) :
    Watched I I (P.callHandler s event) (P.logged.callHandler s event) := by
  cases s with
  | user u => exact (Watched.call _ (P.handler u event)).bind fun _ => Watched.pure _
  | _ => exact Watched.fail _

theorem bubble_watched (event : ε) :
    ∀ n s, Watched I I (P.bubble event n s) (P.logged.bubble event n s) := by
  intro n
  induction n with
  | zero => exact fun _ => Watched.fail _
  | succ n ih =>
    intro s
    have hhook : Watched I I
        (callIfSet (Call.onHandleEvent s event) (P.onHandleEvent.map fun f => f s event) :
          M σ ε α ι ω Unit)
        (callIfSet (Call.onHandleEvent s event)
          (P.logged.onHandleEvent.map fun f => f s event)) :=
      Watched.callIfSet _ P.onHandleEvent fun _ => rfl
    have hparent : P.logged.parent s = P.parent s := rfl
    unfold bubble
    refine hhook.bind fun _ => (P.callHandler_watched I s event).bind fun transition => ?_
    rw [hparent]
    cases transition.target with
    | none =>
      cases P.parent s with
      | none => exact Watched.pure _
      | some parent => exact ih parent
    | some target =>
      cases target with
      | kDeferEvent =>
        have hdefer : P.logged.onDeferEvent =
          P.onDeferEvent.map fun f s event => TracedProgram.logged (f s event) := rfl
        rw [hdefer]
        cases P.onDeferEvent with
        | none => exact Watched.fail _
        | some f => exact (Watched.call _ (f s event)).bind fun _ => Watched.pure _
      | _ => exact Watched.pure _

theorem stateChanged_watched [DecidableEq σ] (oldState target : StateObj σ) (event : ε) :
    Watched I I (P.stateChanged oldState target event)
      (P.logged.stateChanged oldState target event) := by
  unfold stateChanged
  by_cases hne : oldState ≠ target
  · simp only [if_pos hne]
    exact Watched.callIfSet _ P.onStateChange fun _ => rfl
  · simp only [if_neg hne]
    exact Watched.pure ()

end Steps

/-! ### Walks and transitions -/

variable [DecidableEq σ] {I Q : Core σ ι → Prop}

/-- The walks change the history map only, and only by recording a state that is left. -/
theorem logged_walks (hI : ∀ g x, I g → I { g with initial := P.chart.record g.initial x }) :
    WalkRelation P P.logged fun _ m m' => Watched I I m m' where
  toCompositional := Watched.compositional I
  state := rfl
  exitState := P.exitState_watched I
  enterState := P.enterState_watched I
  saveHistory state := by
    have hparent : P.logged.parent state = P.parent state := rfl
    unfold saveHistory
    refine Watched.getCore_bind fun core hcore => ?_
    rw [hparent]
    cases hp : P.parent state with
    | none => exact Watched.pure ()
    | some parent =>
      have hhistory : P.logged.isHistory parent = P.isHistory parent := rfl
      by_cases hh : P.isHistory parent = true
      · have hset : P.setInitialState core parent state =
            { core with initial := P.chart.record core.initial state } := by
          simp [setInitialState, Chart.record, chart, hp, hh]
        simp only [hhistory, if_pos hh]
        refine Watched.setCore ?_
        rw [hset]
        exact hI core state hcore
      · simp only [hhistory, if_neg hh]
        exact Watched.pure ()

variable [Fintype σ]

theorem enterStatesFromDownTo_watched
    (hI : ∀ g x, I g → I { g with initial := P.chart.record g.initial x })
    (hQ : ∀ g x, I g → Q { g with currentState := some x }) (top target : Option (StateObj σ))
    (event : ε) :
    Watched I Q (P.enterStatesFromDownTo top target event)
      (P.logged.enterStatesFromDownTo top target event) := by
  have hwalks := P.logged_walks hI
  unfold enterStatesFromDownTo
  cases target with
  | none => exact Watched.fail _
  | some target =>
    refine (hwalks.enterStatesAbove top target event).bind fun _ =>
      (hwalks.enterState target event).bind fun _ =>
      (hwalks.enterInitialStates event _ target).bind fun state => ?_
    exact Watched.getCore_bind fun g hg => Watched.setCore (hQ g state hg)

section Transition

variable (hI : ∀ g x, I g → I { g with initial := P.chart.record g.initial x })
  (hcurrent : ∀ g x, I g → I { g with currentState := some x })

include hI hcurrent

theorem takeTransition_watched (transition : Transition σ α) (target : StateObj σ) (event : ε) :
    Watched I I (P.takeTransition transition target event)
      (P.logged.takeTransition transition target event) := by
  have hwalks := P.logged_walks hI
  unfold takeTransition
  refine Watched.getCore_bind fun core hcore => ?_
  rw [hwalks.findCommonParent_eq]
  cases P.findCommonParent core.currentState (some target) with
  | none => exact Watched.fail _
  | some commonParent =>
    cases core.currentState with
    | none => exact Watched.fail _
    | some oldState =>
      exact Watched.setCore_bind (hcurrent _ _ hcore) <|
        (P.stateChanged_watched I oldState target event).bind fun _ =>
        (hwalks.exitStatesFromUpTo oldState commonParent event).bind fun _ =>
        (P.executeActions_watched I transition event).bind fun _ =>
        P.enterStatesFromDownTo_watched hI hcurrent commonParent (some target) event

theorem dispatchTransition_watched (start : StateObj σ) (transition : Transition σ α) (event : ε) :
    Watched I I (P.dispatchTransition start transition event)
      (P.logged.dispatchTransition start transition event) := by
  have htake := fun target => P.takeTransition_watched hI hcurrent transition target event
  unfold dispatchTransition
  cases transition.target with
  | none => exact Watched.callIfSet _ P.onUnhandledEvent fun _ => rfl
  | some target =>
    cases target with
    | kNone => exact P.executeActions_watched I transition event
    | _ => exact htake _

end Transition

/-! ### The entry points -/

/-- A machine within a `React`: busy and started. -/
structure Engaged (g : Core σ ι) : Prop where
  working : g.working = true
  current : g.currentState.isSome

/-- A machine within a `Start` that began with the busy flag `b`. -/
structure Entering (b : Bool) (g : Core σ ι) : Prop where
  working : g.working = b
  current : g.currentState = some .kInTransition

variable {P}

/-- A `React` on a machine that is not started or busy fails at once. -/
theorem react_refused {S : Sys σ ε α ι ω} {event : ε}
    (h : S.core.currentState = none ∨ S.core.working = true) :
    P.react event S = .error .assertion S := by
  unfold react
  rw [getCore_bind_apply]
  cases hc : S.core.currentState with
  | none => rfl
  | some c =>
    have hworking : S.core.working = true := h.resolve_left (by simp [hc])
    simp only [hworking, if_true]
    rfl

/-- **Any invariant of a `React`** that does not mind what the current state is, with what is
left of it when the busy flag is cleared. -/
theorem react_watched_of (hI : ∀ g x, I g → I { g with initial := P.chart.record g.initial x })
    (hcurrent : ∀ g x, I g → I { g with currentState := some x })
    (hclear : ∀ g, I g → Q { g with working := false })
    {s : Sys σ ε α ι (ω × List (Core σ ι))} {c : StateObj σ}
    (hc : s.core.currentState = some c) (hidle : s.core.working = false) (event : ε)
    (hs : I (busy s).core) :
    WatchedFrom I Q (P.react event) (P.logged.react event) s := by
  have hclear : Watched I Q (clearWorking : M σ ε α ι ω Unit) clearWorking :=
    Watched.getCore_bind fun g hg => Watched.setCore (hclear g hg)
  have hdispatch := fun transition =>
    P.dispatchTransition_watched hI hcurrent c transition event
  -- what `React` does with what the loop has left
  have hrest : ∀ left, Watched I Q
      (match left with
        | none => (clearWorking : M σ ε α ι ω Unit)
        | some transition => do
          P.dispatchTransition c transition event
          clearWorking)
      (match left with
        | none => clearWorking
        | some transition => do
          P.logged.dispatchTransition c transition event
          clearWorking) := by
    intro left
    cases left with
    | none => exact hclear
    | some transition => exact (hdispatch transition).bind fun _ => hclear
  have hall := (P.bubble_watched I event (fuel σ) c).bind hrest (busy s) hs
  unfold WatchedFrom at hall ⊢
  rw [react_apply hc hidle, react_apply (S := unlog s) hc hidle]
  exact hall

/-- **What a `React` shows to callbacks.** -/
theorem react_watched {s : Sys σ ε α ι (ω × List (Core σ ι))} {c : StateObj σ}
    (hcurrent : s.core.currentState = some c) (hidle : s.core.working = false) (event : ε) :
    WatchedFrom Engaged (fun _ => True) (P.react event) (P.logged.react event) s :=
  react_watched_of (fun _ _ h => ⟨h.working, h.current⟩) (fun _ _ h => ⟨h.working, rfl⟩)
    (fun _ _ => trivial) hcurrent hidle event ⟨rfl, by rw [busy, hcurrent]; rfl⟩

/-- A `React` on a started machine is rejected without an effect exactly when it is busy. -/
theorem react_rejected_iff {S : Sys σ ε α ι ω} {c : StateObj σ}
    (hcurrent : S.core.currentState = some c)
    (event : ε) : P.react event S = .error .assertion S ↔ S.core.working = true := by
  refine ⟨fun h => ?_, fun h => react_refused (.inr h)⟩
  by_contra hidle
  have hwatched := react_watched (P := P) (s := withLog S) hcurrent
    (Bool.eq_false_iff.mpr hidle) event
  exact hidle (hwatched.of_error h).working

variable [Inhabited ε]

/-- A `Start` without `Init` fails at once. -/
theorem start_refused {S : Sys σ ε α ι ω} {initial : Option (StateObj σ)}
    (h : S.core.impl = none) : P.start initial S = .error .assertion S := by
  unfold start
  rw [getCore_bind_apply, h]
  rfl

/-- **Any invariant of a `Start`**, with what is left of it when the current state is set. -/
theorem start_watched_of (hI : ∀ g x, I g → I { g with initial := P.chart.record g.initial x })
    (hQ : ∀ g x, I g → Q { g with currentState := some x })
    {s : Sys σ ε α ι (ω × List (Core σ ι))} (himpl : s.core.impl.isSome)
    (initial : Option (StateObj σ)) (hs : I (cleared s).core) :
    WatchedFrom I Q (P.start initial) (P.logged.start initial) s := by
  have hall := P.enterStatesFromDownTo_watched hI hQ none initial default (cleared s) hs
  unfold WatchedFrom at hall ⊢
  rw [start_apply himpl, start_apply (S := unlog s) himpl]
  exact hall

/-- **What a `Start` shows to callbacks.** -/
theorem start_watched {s : Sys σ ε α ι (ω × List (Core σ ι))} (himpl : s.core.impl.isSome)
    (initial : Option (StateObj σ)) :
    WatchedFrom (Entering s.core.working) (fun _ => True) (P.start initial)
      (P.logged.start initial) s :=
  start_watched_of (fun _ _ h => ⟨h.working, h.current⟩) (fun _ _ _ => trivial) himpl initial
    ⟨rfl, rfl⟩

/-- The calls a user can make to a machine. -/
inductive EntryPoint (σ ε : Type)
  | start (initial : Option (StateObj σ))
  | react (event : ε)

variable (P) in
/-- What a call of an entry point runs. -/
def enter : EntryPoint σ ε → M σ ε α ι ω Unit
  | .start initial => P.start initial
  | .react event => P.react event

@[simp]
theorem enter_start (initial : Option (StateObj σ)) :
    P.enter (.start initial) = P.start initial := rfl

@[simp]
theorem enter_react (event : ε) : P.enter (.react event) = P.react event := rfl

variable (P) in
/-- The data members as the callbacks see them, one for each callback executed in a call. -/
def coresSeen (entry : EntryPoint σ ε) (S : Sys σ ε α ι ω) : List (Core σ ι) :=
  (stateOf (P.logged.enter entry (withLog S))).world.2

/-- Logging does not disturb a call. -/
theorem enter_logged (entry : EntryPoint σ ε) (S : Sys σ ε α ι ω) :
    stateOf (P.enter entry S) = unlog (stateOf (P.logged.enter entry (withLog S))) := by
  cases entry with
  | start initial =>
    cases himpl : S.core.impl with
    | none =>
      rw [enter_start, enter_start, start_refused himpl,
        start_refused (P := P.logged) (S := withLog S) himpl]
      rfl
    | some i => exact (start_watched (s := withLog S) (himpl ▸ rfl) initial).unlog_eq
  | react event =>
    by_cases hrefused : S.core.currentState = none ∨ S.core.working = true
    · rw [enter_react, enter_react, react_refused hrefused,
        react_refused (P := P.logged) (S := withLog S) hrefused]
      rfl
    · obtain ⟨hstarted, hidle⟩ := not_or.mp hrefused
      obtain ⟨c, hc⟩ := Option.ne_none_iff_exists'.mp hstarted
      exact (react_watched (s := withLog S) hc (Bool.eq_false_iff.mpr hidle) event).unlog_eq

theorem engaged_of_coresSeen {event : ε} {S : Sys σ ε α ι ω} :
    ∀ g ∈ P.coresSeen (.react event) S, Engaged g := by
  by_cases hrefused : S.core.currentState = none ∨ S.core.working = true
  · unfold coresSeen
    rw [enter_react, react_refused (P := P.logged) (S := withLog S) hrefused]
    exact fun g hg => nomatch hg
  · obtain ⟨hstarted, hidle⟩ := not_or.mp hrefused
    obtain ⟨c, hc⟩ := Option.ne_none_iff_exists'.mp hstarted
    have hwatched := react_watched (P := P) (s := withLog S) hc (Bool.eq_false_iff.mpr hidle) event
    exact hwatched.seesOnly.forall_mem

theorem entering_of_coresSeen {initial : Option (StateObj σ)} {S : Sys σ ε α ι ω} :
    ∀ g ∈ P.coresSeen (.start initial) S, Entering S.core.working g := by
  cases himpl : S.core.impl with
  | none =>
    unfold coresSeen
    rw [enter_start, start_refused (P := P.logged) (S := withLog S) himpl]
    exact fun g hg => nomatch hg
  | some i =>
    have hwatched := start_watched (P := P) (s := withLog S) (himpl ▸ rfl) initial
    exact hwatched.seesOnly.forall_mem

end Fsm

end EventFramework.Statemachine
