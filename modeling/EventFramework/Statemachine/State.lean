import EventFramework.ForMathlib.TracedProgram
import EventFramework.ForMathlib.ParentForest
import EventFramework.ForMathlib.EnterExit
import Mathlib.Data.Fintype.Option
import Mathlib.Data.Fintype.OfMap

/-!
# States, transitions and the data of a state machine

The data model of `Statemachine.hxx`. `StateObj σ` is the set of `State` objects a machine
can point to: the user's states, named by `σ`, and the three sentinels `kInTransition`,
`kNone` and `kDeferEvent`, which the library constructs with a null handler and no links. A
`StatePtr` is an `Option (StateObj σ)`, with `none` for null.

A state handler answers with one of the public factory functions (`Response`); the
`Transition` built from it keeps the source's three fields, in particular the span that
points either to the one-element buffer inside the transition or to storage of the caller,
since copying a transition treats the two differently.

`Fsm` collects what the user supplies: the states, the handlers and actions, and the
optional callbacks. Callbacks run in the `TracedProgram` setting: they read the machine,
change a world `ω` (the implementation object and everything else), and may throw.
-/

namespace EventFramework.Statemachine

open TracedProgram

/-! ### Flags and state objects -/

/-- `EStateFlags`: an `int` used as a bit set. -/
structure EStateFlags where
  bits : BitVec 32
  deriving DecidableEq, Repr

namespace EStateFlags

def kNone : EStateFlags := ⟨0⟩

def kHistory : EStateFlags := ⟨1⟩

instance : AndOp EStateFlags := ⟨fun lhs rhs => ⟨lhs.bits &&& rhs.bits⟩⟩

end EStateFlags

/-- The `State` objects: three sentinels of the library and the user's states. -/
inductive StateObj (σ : Type)
  | kInTransition
  | kNone
  | kDeferEvent
  | user (s : σ)
  deriving DecidableEq, Repr

namespace StateObj

variable {σ : Type}

/-- The objects as three extra points over `σ`, for counting them. -/
def ofOption : Option (Option (Option σ)) → StateObj σ
  | none => .kInTransition
  | some none => .kNone
  | some (some none) => .kDeferEvent
  | some (some (some s)) => .user s

theorem ofOption_surjective : Function.Surjective (ofOption (σ := σ))
  | .kInTransition => ⟨none, rfl⟩
  | .kNone => ⟨some none, rfl⟩
  | .kDeferEvent => ⟨some (some none), rfl⟩
  | .user s => ⟨some (some (some s)), rfl⟩

instance [DecidableEq σ] [Fintype σ] : Fintype (StateObj σ) :=
  Fintype.ofSurjective ofOption ofOption_surjective

end StateObj

/-- The links, flags and action lists of a user state. -/
structure State (σ α : Type) where
  flags : EStateFlags := .kNone
  parent : Option σ := none
  initial : Option σ := none
  onEntry : List α := []
  onExit : List α := []

/-! ### Transitions -/

/-- Where the action span of a transition points: to the first `size` slots of the buffer
inside that same transition, or to storage of the caller. -/
inductive ActionSpan (α : Type)
  | buffer (size : ℕ)
  | external (actions : List α)

/-- `Statemachine::Transition`. -/
structure Transition (σ α : Type) where
  target : Option (StateObj σ) := none
  singleAction : Option α := none
  actions : ActionSpan α := .external []

namespace Transition

variable {σ α : Type}

/-- `Transition(StateRef)`. -/
def toTarget (target : StateObj σ) : Transition σ α := { target := some target }

/-- `Transition(StateRef, ActionType)`; the action may be null. -/
def withAction (target : StateObj σ) (action : Option α) : Transition σ α where
  target := some target
  singleAction := action
  actions := .buffer (if action.isSome then 1 else 0)

/-- `Transition(StateRef, std::span<const ActionType>)`. -/
def withActions (target : StateObj σ) (actions : List α) : Transition σ α where
  target := some target
  actions := .external actions

/-- `Transition::operator=`: what the assigned transition holds afterwards. -/
def assign (rhs : Transition σ α) : Transition σ α where
  target := rhs.target
  singleAction := rhs.singleAction
  actions :=
    if rhs.singleAction.isSome then
      .buffer 1 -- internal buffer was used
    else
      rhs.actions -- external buffer was supplied or no action at all

/-- The actions the span of a transition reaches. -/
def actionList (t : Transition σ α) : List α :=
  match t.actions with
  | .buffer size => t.singleAction.toList.take size
  | .external actions => actions

end Transition

/-- What a state handler can return: the calls of the public factory functions
`UnhandledEvent`, `DeferEvent`, `NoTransition` and `TransitionTo` with their overloads. -/
inductive Response (σ α : Type)
  | unhandledEvent
  | deferEvent
  | noTransition
  | noTransitionAction (action : Option α)
  | noTransitionActions (actions : List α)
  | transitionTo (target : σ)
  | transitionToAction (target : σ) (action : Option α)
  | transitionToActions (target : σ) (actions : List α)
  deriving DecidableEq, Repr

instance {σ α : Type} : Inhabited (Response σ α) := ⟨.unhandledEvent⟩

/-- The transition a factory function constructs. -/
def Response.transition {σ α : Type} : Response σ α → Transition σ α
  | .unhandledEvent => {}
  | .deferEvent => .toTarget .kDeferEvent
  | .noTransition => .toTarget .kNone
  | .noTransitionAction action => .withAction .kNone action
  | .noTransitionActions actions => .withActions .kNone actions
  | .transitionTo target => .toTarget (.user target)
  | .transitionToAction target action => .withAction (.user target) action
  | .transitionToActions target actions => .withActions (.user target) actions

/-! ### The machine -/

/-- The data members of a `Statemachine`: current state, busy flag, implementation pointer
and history map. -/
structure Core (σ ι : Type) where
  currentState : Option (StateObj σ) := none
  working : Bool := false
  impl : Option ι := none
  initial : StateObj σ → Option (StateObj σ) := fun _ => none

/-- The calls a machine makes: callbacks, with their arguments, and its own `EnterState` and
`ExitState`, each recorded in front of the callbacks it runs. -/
inductive Call (σ ε α : Type)
  | onHandleEvent (s : StateObj σ) (event : ε)
  | handler (s : σ) (event : ε)
  | onDeferEvent (s : StateObj σ) (event : ε)
  | onUnhandledEvent (s : StateObj σ) (event : ε)
  | onStateChange (event : ε) (oldState newState : StateObj σ)
  | exitState (s : StateObj σ)
  | onStateExit (s : StateObj σ)
  | exitAction (s : StateObj σ) (action : α) (event : ε)
  | action (action : α) (event : ε)
  | enterState (s : StateObj σ)
  | onStateEntry (s : StateObj σ)
  | entryAction (s : StateObj σ) (action : α) (event : ε)
  deriving DecidableEq, Repr

/-- What the user supplies. Handlers and actions are functions of the event; a callback
pointer that may be null is an `Option`. -/
structure Fsm (σ ε α ι ω : Type) where
  state : σ → State σ α
  handler : σ → ε → Callback (Core σ ι) ω (Response σ α)
  action : α → ε → Callback (Core σ ι) ω Unit
  onStateChange : Option (ε → StateObj σ → StateObj σ → Callback (Core σ ι) ω Unit) := none
  onStateEntry : Option (StateObj σ → Callback (Core σ ι) ω Unit) := none
  onStateExit : Option (StateObj σ → Callback (Core σ ι) ω Unit) := none
  onHandleEvent : Option (StateObj σ → ε → Callback (Core σ ι) ω Unit) := none
  onUnhandledEvent : Option (StateObj σ → ε → Callback (Core σ ι) ω Unit) := none
  onDeferEvent : Option (StateObj σ → ε → Callback (Core σ ι) ω Unit) := none
  onRecallDeferredEvents : Option (StateObj σ → Callback (Core σ ι) ω Unit) := none

/-- State of a run: the machine, the world, and the calls made since the last start. -/
abbrev Sys (σ ε α ι ω : Type) := Traced (Core σ ι) ω (Call σ ε α)

/-- Member functions of the machine. -/
abbrev M (σ ε α ι ω A : Type) := Prog (Core σ ι) ω (Call σ ε α) A

namespace Fsm

variable {σ ε α ι ω : Type} (P : Fsm σ ε α ι ω)

/-- `flags_` of a state object. -/
def flags : StateObj σ → EStateFlags
  | .user s => (P.state s).flags
  | _ => .kNone

/-- `parent_` of a state object. -/
def parent : StateObj σ → Option (StateObj σ)
  | .user s => (P.state s).parent.map .user
  | _ => none

/-- `initial_` of a state object. -/
def initial : StateObj σ → Option (StateObj σ)
  | .user s => (P.state s).initial.map .user
  | _ => none

/-- `on_entry_` of a state object. -/
def onEntry : StateObj σ → List α
  | .user s => (P.state s).onEntry
  | _ => []

/-- `on_exit_` of a state object. -/
def onExit : StateObj σ → List α
  | .user s => (P.state s).onExit
  | _ => []

/-- The history flag test, `(state->flags_ & EFlags::kHistory) != EFlags::kNone`. -/
def isHistory (state : StateObj σ) : Bool := P.flags state &&& .kHistory != .kNone

end Fsm

end EventFramework.Statemachine
