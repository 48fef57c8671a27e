import EventFramework.ForMathlib.Observers
import EventFramework.Statemachine.Sessions

/-!
# Loggers

Four of the callbacks of a machine are there for logging: `on_state_change_`,
`on_state_entry_`, `on_state_exit_` and `on_handle_event_`. A logger (`Loggers`) may look at
the machine and the world whenever it is called, and writes a log of its own; it does not
throw. `P.withLoggers L` is the machine `P` with the loggers `L`, `P.unlogged` is `P` with none.

Loggers do not disturb (`session_withLoggers`): whatever they write, the two machines give the
same outcome to every call of every session, each call finds the machine in the same state, and
the calls of all other callbacks are the same, in the same order. The charts may even be cyclic.
-/

namespace EventFramework.Statemachine

open TracedProgram

/-- What the loggers write; a logger that is not set is `none`. -/
structure Loggers (σ ε ι ω Λ : Type) where
  onStateChange : Option (ε → StateObj σ → StateObj σ → Core σ ι → ω → Λ → Λ) := none
  onStateEntry : Option (StateObj σ → Core σ ι → ω → Λ → Λ) := none
  onStateExit : Option (StateObj σ → Core σ ι → ω → Λ → Λ) := none
  onHandleEvent : Option (StateObj σ → ε → Core σ ι → ω → Λ → Λ) := none

/-- The calls that are not made for logging. -/
def Call.kept {σ ε α : Type} : Call σ ε α → Bool
  | .onStateChange _ _ _ | .onStateEntry _ | .onStateExit _ | .onHandleEvent _ _ => false
  | _ => true

namespace Fsm

variable {σ ε α ι ω Λ : Type} (P : Fsm σ ε α ι ω) (L : Loggers σ ε ι ω Λ)

/-- The machine without loggers. -/
def unlogged : Fsm σ ε α ι ω :=
  { P with
    onStateChange := none
    onStateEntry := none
    onStateExit := none
    onHandleEvent := none }

/-- The machine with loggers. -/
def withLoggers : Fsm σ ε α ι (ω × Λ) where
  state := P.state
  handler s event := beside (P.handler s event)
  action a event := beside (P.action a event)
  onStateChange := L.onStateChange.map fun o event oldState newState =>
    observer (o event oldState newState)
  onStateEntry := L.onStateEntry.map fun o s => observer (o s)
  onStateExit := L.onStateExit.map fun o s => observer (o s)
  onHandleEvent := L.onHandleEvent.map fun o s event => observer (o s event)
  onUnhandledEvent := P.onUnhandledEvent.map fun f s event => beside (f s event)
  onDeferEvent := P.onDeferEvent.map fun f s event => beside (f s event)
  onRecallDeferredEvents := P.onRecallDeferredEvents.map fun f s => beside (f s)

/-- The program of the machine without loggers does what that of the machine with them does. -/
abbrev Transparent {A : Type} (m : M σ ε α ι ω A) (m' : M σ ε α ι (ω × Λ) A) : Prop :=
  Erases Call.kept m m'

/-! ### Single steps -/

theorem exitState_transparent (state : StateObj σ) (event : ε) :
    Transparent (P.unlogged.exitState state event) ((P.withLoggers L).exitState state event) := by
  have hhook : Transparent (callIfSet (Call.onStateExit state) none : M σ ε α ι ω Unit)
      (callIfSet (Call.onStateExit state)
        ((P.withLoggers L).onStateExit.map fun f => f state)) :=
    Erases.observeIfSet rfl rfl L.onStateExit fun _ => rfl
  exact (Erases.mark rfl).bind fun _ => hhook.bind fun _ =>
    Erases.forM_call (fun _ => rfl) (fun onEx => P.action onEx event) (P.onExit state)

theorem enterState_transparent (state : StateObj σ) (event : ε) :
    Transparent (P.unlogged.enterState state event)
      ((P.withLoggers L).enterState state event) := by
  have hhook : Transparent (callIfSet (Call.onStateEntry state) none : M σ ε α ι ω Unit)
      (callIfSet (Call.onStateEntry state)
        ((P.withLoggers L).onStateEntry.map fun f => f state)) :=
    Erases.observeIfSet rfl rfl L.onStateEntry fun _ => rfl
  exact (Erases.mark rfl).bind fun _ => hhook.bind fun _ =>
    Erases.forM_call (fun _ => rfl) (fun onEn => P.action onEn event) (P.onEntry state)

theorem executeActions_transparent (transition : Transition σ α) (event : ε) :
    Transparent (P.unlogged.executeActions transition event)
      ((P.withLoggers L).executeActions transition event) :=
  Erases.forM_call (fun _ => rfl) (fun action => P.action action event) transition.actionList

theorem callHandler_transparent (s : StateObj σ) (event : ε) :
    Transparent (P.unlogged.callHandler s event) ((P.withLoggers L).callHandler s event) := by
  cases s with
  | user u => exact (Erases.call rfl (P.handler u event)).bind fun _ => Erases.pure _
  | _ => exact Erases.fail _

theorem bubble_transparent (event : ε) :
    ∀ n s, Transparent (P.unlogged.bubble event n s) ((P.withLoggers L).bubble event n s) := by
  intro n
  induction n with
  | zero => exact fun _ => Erases.fail _
  | succ n ih =>
    intro s
    have hhook : Transparent (callIfSet (Call.onHandleEvent s event) none : M σ ε α ι ω Unit)
        (callIfSet (Call.onHandleEvent s event)
          ((P.withLoggers L).onHandleEvent.map fun f => f s event)) :=
      Erases.observeIfSet rfl rfl L.onHandleEvent fun _ => rfl
    have hparent : (P.withLoggers L).parent s = P.unlogged.parent s := rfl
    rw [bubble, bubble]
    refine hhook.bind fun _ => (P.callHandler_transparent L s event).bind fun transition => ?_
    rw [hparent]
    cases transition.target with
    | none =>
      cases P.unlogged.parent s with
      | none => exact Erases.pure _
      | some parent => exact ih parent
    | some target =>
      cases target with
      | kDeferEvent =>
        have hdefer : (P.withLoggers L).onDeferEvent =
          P.unlogged.onDeferEvent.map fun f s event => beside (f s event) := rfl
        rw [hdefer]
        cases P.unlogged.onDeferEvent with
        | none => exact Erases.fail _
        | some f => exact (Erases.call rfl (f s event)).bind fun _ => Erases.pure _
      | _ => exact Erases.pure _

variable [DecidableEq σ]

theorem stateChanged_transparent (oldState target : StateObj σ) (event : ε) :
    Transparent (P.unlogged.stateChanged oldState target event)
      ((P.withLoggers L).stateChanged oldState target event) := by
  rw [stateChanged, stateChanged]
  by_cases hne : oldState ≠ target
  · rw [if_pos hne, if_pos hne]
    exact Erases.observeIfSet rfl rfl L.onStateChange fun _ => rfl
  · rw [if_neg hne, if_neg hne]
    exact Erases.pure ()

/-! ### Walks and transitions -/

theorem transparent_walks :
    WalkRelation P.unlogged (P.withLoggers L) fun _ m m' => Transparent m m' where
  toCompositional := Erases.compositional Call.kept
  state := rfl
  exitState := P.exitState_transparent L
  enterState := P.enterState_transparent L
  saveHistory state := by
    have hset : ∀ core : Core σ ι, (P.withLoggers L).setInitialState core =
      P.unlogged.setInitialState core := fun _ => rfl
    have hparent : (P.withLoggers L).parent state = P.unlogged.parent state := rfl
    rw [saveHistory, saveHistory]
    refine Erases.getCore_bind fun core => ?_
    rw [hparent, hset]
    cases P.unlogged.parent state with
    | none => exact Erases.pure ()
    | some parent =>
      have hhistory : (P.withLoggers L).isHistory parent = P.unlogged.isHistory parent := rfl
      simp only [hhistory]
      by_cases hh : P.unlogged.isHistory parent = true
      · simp only [if_pos hh]
        exact Erases.setCore _
      · simp only [if_neg hh]
        exact Erases.pure ()

variable [Fintype σ]

theorem enterStatesFromDownTo_transparent (top target : Option (StateObj σ)) (event : ε) :
    Transparent (P.unlogged.enterStatesFromDownTo top target event)
      ((P.withLoggers L).enterStatesFromDownTo top target event) := by
  have hwalks := P.transparent_walks L
  cases target with
  | none => exact Erases.fail _
  | some target =>
    exact (hwalks.enterStatesAbove top target event).bind fun _ =>
      (hwalks.enterState target event).bind fun _ =>
      (hwalks.enterInitialStates event _ target).bind fun _ =>
      Erases.getCore_bind fun _ => Erases.setCore _

theorem takeTransition_transparent (transition : Transition σ α) (target : StateObj σ) (event : ε) :
    Transparent (P.unlogged.takeTransition transition target event)
      ((P.withLoggers L).takeTransition transition target event) := by
  have hwalks := P.transparent_walks L
  rw [takeTransition, takeTransition]
  refine Erases.getCore_bind fun core => ?_
  rw [hwalks.findCommonParent_eq]
  cases P.unlogged.findCommonParent core.currentState (some target) with
  | none => exact Erases.fail _
  | some commonParent =>
    cases core.currentState with
    | none => exact Erases.fail _
    | some oldState =>
      exact (Erases.setCore _).bind fun _ =>
        (P.stateChanged_transparent L oldState target event).bind fun _ =>
        (hwalks.exitStatesFromUpTo oldState commonParent event).bind fun _ =>
        (P.executeActions_transparent L transition event).bind fun _ =>
        P.enterStatesFromDownTo_transparent L commonParent (some target) event

theorem dispatchTransition_transparent (start : StateObj σ) (transition : Transition σ α)
    (event : ε) :
    Transparent (P.unlogged.dispatchTransition start transition event)
      ((P.withLoggers L).dispatchTransition start transition event) := by
  rw [dispatchTransition, dispatchTransition]
  cases transition.target with
  | none => exact Erases.callIfSet rfl P.onUnhandledEvent fun _ => rfl
  | some target =>
    cases target with
    | kNone => exact P.executeActions_transparent L transition event
    | _ => exact P.takeTransition_transparent L transition _ event

/-! ### The entry points -/

theorem react_transparent (event : ε) :
    Transparent (P.unlogged.react event) ((P.withLoggers L).react event) := by
  have hclear : Transparent (clearWorking : M σ ε α ι ω Unit)
      (clearWorking : M σ ε α ι (ω × Λ) Unit) :=
    Erases.getCore_bind fun _ => Erases.setCore _
  rw [react, react]
  refine Erases.getCore_bind fun core => ?_
  cases core.currentState with
  | none => exact Erases.fail _
  | some start =>
    by_cases hworking : core.working = true
    · simp only [if_pos hworking]
      exact Erases.fail _
    · simp only [if_neg hworking]
      refine (Erases.setCore _).bind fun _ =>
        (P.bubble_transparent L event _ start).bind fun left => ?_
      cases left with
      | none => exact hclear
      | some transition =>
        exact (P.dispatchTransition_transparent L start transition event).bind fun _ => hclear

variable [Inhabited ε]

theorem start_transparent (initial : Option (StateObj σ)) :
    Transparent (P.unlogged.start initial) ((P.withLoggers L).start initial) := by
  have hclear : Transparent (clearTrace : M σ ε α ι ω Unit) (clearTrace : M σ ε α ι (ω × Λ) Unit) :=
    fun _ => rfl
  rw [start, start]
  refine Erases.getCore_bind fun core => ?_
  cases core.impl with
  | none => exact Erases.fail _
  | some _ =>
    exact hclear.bind fun _ => (Erases.setCore _).bind fun _ =>
      P.enterStatesFromDownTo_transparent L none initial default

theorem serve_transparent (request : Request σ ε ι) :
    Transparent (P.unlogged.serve request) ((P.withLoggers L).serve request) := by
  cases request with
  | init impl =>
    refine Erases.getCore_bind fun core => ?_
    cases impl with
    | none => exact Erases.fail _
    | some i => exact Erases.setCore _
  | start initial => exact P.start_transparent L _
  | react event => exact P.react_transparent L event

/-! ### Sessions -/

/-- A served call, with the log and the calls of the loggers forgotten. -/
def Served.unlogged (call : Served σ ε α ι (ω × Λ)) : Served σ ε α ι ω where
  before := erase Call.kept call.before
  request := call.request
  outcome := call.outcome

omit [DecidableEq σ] [Fintype σ] [Inhabited ε] in
theorem failureOf_eraseResult {A : Type}
    (r : EStateM.Result Failure (Sys σ ε α ι (ω × Λ)) A) :
    failureOf (eraseResult Call.kept r) = failureOf r := by
  cases r <;> rfl

/-- **Loggers do not disturb.** In every session from any state, the machine without loggers
serves the same calls with the same outcomes from the same states and ends in the same state as
the machine with loggers, but for the log and the calls of the loggers. -/
theorem session_withLoggers (requests : List (Request σ ε ι)) (S : Sys σ ε α ι (ω × Λ)) :
    P.unlogged.session requests (erase Call.kept S) =
        erase Call.kept ((P.withLoggers L).session requests S) ∧
      P.unlogged.transcript requests (erase Call.kept S) =
        ((P.withLoggers L).transcript requests S).map Served.unlogged := by
  induction requests generalizing S with
  | nil => exact ⟨rfl, rfl⟩
  | cons request rest ih =>
    have hserve := P.serve_transparent L request S
    simp only [session, transcript]
    rw [hserve, failureOf_eraseResult, stateOf_eraseResult]
    by_cases hback : (failureOf ((P.withLoggers L).serve request S)).any Failure.isFatal = true
    · rw [if_pos hback, if_pos hback, if_pos hback, if_pos hback]
      exact ⟨rfl, rfl⟩
    · obtain ⟨hsession, htranscript⟩ := ih (stateOf ((P.withLoggers L).serve request S))
      rw [if_neg hback, if_neg hback, if_neg hback, if_neg hback, htranscript]
      exact ⟨hsession, rfl⟩

end Fsm

end EventFramework.Statemachine
