import EventFramework.Statemachine.State

/-!
# The algorithms of the state machine

`Start`, `React` and the functions under them, in the order of `Statemachine.hxx`. The loops
take fuel: a loop that follows parent links, or initial links under a fixed history, either
ends within `fuel σ` rounds, one more than there are state objects, or never does, and is
reported as `Failure.diverged`. Following a null state pointer or calling the null handler of
a sentinel is `Failure.nullPointer`, a false argument of `Assert` is `Failure.assertion`.

The ghost trace is cleared by `start`, so that it holds the calls made since the last start.
-/

namespace EventFramework.Statemachine

open TracedProgram

/-- The round limit of the loops: one more than the number of state objects. -/
def fuel (σ : Type) [DecidableEq σ] [Fintype σ] : ℕ := Fintype.card (StateObj σ) + 1

namespace Fsm

variable {σ ε α ι ω : Type} [DecidableEq σ] [Fintype σ] (P : Fsm σ ε α ι ω)

/-! ### Common parent, history map -/

/-- The inner loop of `FindCommonParent`: whether the walk up from a pointer meets `state`;
`none` when it does not end. -/
def searchUp (state : StateObj σ) : ℕ → Option (StateObj σ) → Option Bool
  | _, none => some false
  | 0, some _ => none
  | n + 1, some parent =>
    if parent = state then some true else searchUp state n (P.parent parent)

/-- The outer loop of `FindCommonParent`. -/
def findCommonParentLoop (state2 : Option (StateObj σ)) :
    ℕ → Option (StateObj σ) → Option (Option (StateObj σ))
  | _, none => some none
  | 0, some _ => none
  | n + 1, some state =>
    match P.searchUp state (fuel σ) state2 with
    | none => none
    | some true => some (some state)
    | some false => findCommonParentLoop state2 n (P.parent state)

/-- `FindCommonParent`; `none` when one of the loops does not end. -/
def findCommonParent (state1 state2 : Option (StateObj σ)) : Option (Option (StateObj σ)) :=
  P.findCommonParentLoop state2 (fuel σ) state1

/-- `SetInitialState`, on the machine's data. -/
def setInitialState (core : Core σ ι) (state initial : StateObj σ) : Core σ ι :=
  if P.isHistory state then
    { core with initial := Function.update core.initial state (some initial) }
  else
    core

/-- `GetInitialState`. -/
def getInitialState (core : Core σ ι) (state : StateObj σ) : Option (StateObj σ) :=
  if P.isHistory state then
    match core.initial state with
    | some initial => some initial
    | none => P.initial state
  else
    P.initial state

/-! ### Leaving and entering states -/

/-- `ExitState`. -/
def exitState (state : StateObj σ) (event : ε) : M σ ε α ι ω Unit := do
  mark (.exitState state)
  callIfSet (.onStateExit state) (P.onStateExit.map fun f => f state)
  forM (P.onExit state) fun onEx => call (.exitAction state onEx event) (P.action onEx event)

/-- "Save history state" of the exit loop. -/
def saveHistory (state : StateObj σ) : M σ ε α ι ω Unit := do
  let core ← getCore
  match P.parent state with
  | none => pure ()
  | some parent =>
    if P.isHistory parent then setCore (P.setInitialState core parent state) else pure ()

/-- The loop of `ExitStatesFromUpTo`. -/
def exitLoop (top : Option (StateObj σ)) (event : ε) :
    ℕ → Option (StateObj σ) → M σ ε α ι ω Unit
  | 0, _ => fail .diverged
  | n + 1, state =>
    if state = top then
      pure ()
    else
      match state with
      | none => fail .nullPointer
      | some s => do
        P.saveHistory s
        P.exitState s event
        exitLoop top event n (P.parent s)

/-- `ExitStatesFromUpTo`. -/
def exitStatesFromUpTo (src : StateObj σ) (top : Option (StateObj σ)) (event : ε) :
    M σ ε α ι ω Unit :=
  if some src = top then P.exitState src event else P.exitLoop top event (fuel σ) (some src)

/-- `EnterState`. -/
def enterState (state : StateObj σ) (event : ε) : M σ ε α ι ω Unit := do
  mark (.enterState state)
  callIfSet (.onStateEntry state) (P.onStateEntry.map fun f => f state)
  forM (P.onEntry state) fun onEn => call (.entryAction state onEn event) (P.action onEn event)

/-- `EnterStatesFromDownToRecursive`: the topmost state is not entered. -/
def enterStatesFromDownToRecursive (top : Option (StateObj σ)) (event : ε) :
    ℕ → Option (StateObj σ) → M σ ε α ι ω Unit
  | 0, _ => fail .diverged
  | n + 1, target =>
    match target with
    | none => pure ()
    | some t =>
      if top = some t then
        pure ()
      else do
        enterStatesFromDownToRecursive top event n (P.parent t)
        P.enterState t event

/-- The descent loop of `EnterStatesFromDownTo`: enter initial states until there is none,
and return the last target. -/
def enterInitialStates (event : ε) : ℕ → StateObj σ → M σ ε α ι ω (StateObj σ)
  | 0, _ => fail .diverged
  | n + 1, target => do
    let core ← getCore
    match P.getInitialState core target with
    | none => pure target
    | some state => do
      P.enterState state event
      enterInitialStates event n state

/-- The part of `EnterStatesFromDownTo` above the target: enter all states up to its
parent. -/
def enterStatesAbove (top : Option (StateObj σ)) (target : StateObj σ) (event : ε) :
    M σ ε α ι ω Unit :=
  if top ≠ some target then
    P.enterStatesFromDownToRecursive top event (fuel σ) (P.parent target)
  else
    pure ()

/-- `EnterStatesFromDownTo`. -/
def enterStatesFromDownTo (top target : Option (StateObj σ)) (event : ε) :
    M σ ε α ι ω Unit :=
  match target with
  | none => fail .nullPointer
  | some target => do
    P.enterStatesAbove top target event
    P.enterState target event
    let state ← P.enterInitialStates event (fuel σ) target
    let core ← getCore
    setCore { core with currentState := some state }

/-! ### Start and React -/

/-- `Init`; the name is for logging only and is left out. -/
def init (impl : Option ι) : M σ ε α ι ω Unit := do
  let core ← getCore
  match impl with
  | none => fail .assertion
  | some i => setCore { core with impl := some i }

/-- Forget the calls of earlier runs (ghost). -/
def clearTrace : M σ ε α ι ω Unit := fun S => .ok () { S with trace := [] }

/-- `Start`; the entry callbacks get a default-constructed event. -/
def start [Inhabited ε] (initial : Option (StateObj σ)) : M σ ε α ι ω Unit := do
  let core ← getCore
  match core.impl with
  | none => fail .assertion
  | some _ => do
    clearTrace
    setCore { core with currentState := some .kInTransition, initial := fun _ => none }
    P.enterStatesFromDownTo none initial default

/-- `s->handler_(impl_, event)`, assigned to `transition`. A sentinel has a null handler. -/
def callHandler (s : StateObj σ) (event : ε) : M σ ε α ι ω (Transition σ α) :=
  match s with
  | .user u => do
    let response ← call (.handler u event) (P.handler u event)
    pure response.transition.assign
  | _ => fail .nullPointer

/-- The do-while loop of `React`: ask the states from `s` upwards. It returns the transition
left when the loop ends, or `none` when the event was deferred. -/
def bubble (event : ε) : ℕ → StateObj σ → M σ ε α ι ω (Option (Transition σ α))
  | 0, _ => fail .diverged
  | n + 1, s => do
    callIfSet (.onHandleEvent s event) (P.onHandleEvent.map fun f => f s event)
    let transition ← P.callHandler s event
    match transition.target with
    | some .kDeferEvent =>
      match P.onDeferEvent with
      | none => fail .assertion
      | some f => do
        call (.onDeferEvent s event) (f s event)
        pure none
    | some _ => pure (some transition)
    | none =>
      match P.parent s with
      | none => pure (some transition)
      | some parent => bubble event n parent

/-- `Transition::ExecuteActions`. -/
def executeActions (transition : Transition σ α) (event : ε) : M σ ε α ι ω Unit :=
  forM transition.actionList fun action => call (.action action event) (P.action action event)

/-- The call of `on_state_change_`, skipped for a self transition. -/
def stateChanged (oldState target : StateObj σ) (event : ε) : M σ ε α ι ω Unit :=
  if oldState ≠ target then
    callIfSet (.onStateChange event oldState target)
      (P.onStateChange.map fun f => f event oldState target)
  else
    pure ()

/-- The branch of `React` that changes the state. -/
def takeTransition (transition : Transition σ α) (target : StateObj σ) (event : ε) :
    M σ ε α ι ω Unit := do
  let core ← getCore
  match P.findCommonParent core.currentState (some target), core.currentState with
  | none, _ => fail .diverged
  | some _, none => fail .nullPointer
  | some commonParent, some oldState => do
    setCore { core with currentState := some .kInTransition }
    P.stateChanged oldState target event
    P.exitStatesFromUpTo oldState commonParent event
    P.executeActions transition event
    P.enterStatesFromDownTo commonParent (some target) event

/-- What `React` does with the transition the loop has left. -/
def dispatchTransition (start : StateObj σ) (transition : Transition σ α) (event : ε) :
    M σ ε α ι ω Unit :=
  match transition.target with
  | some .kNone => P.executeActions transition event
  | some target => P.takeTransition transition target event
  | none =>
    callIfSet (.onUnhandledEvent start event) (P.onUnhandledEvent.map fun f => f start event)

/-- `working_ = false`. -/
def clearWorking : M σ ε α ι ω Unit := do
  let core ← getCore
  setCore { core with working := false }

/-- `React`. -/
def react (event : ε) : M σ ε α ι ω Unit := do
  let core ← getCore
  match core.currentState with
  | none => fail .assertion -- Start() has not been called
  | some start =>
    if core.working then
      fail .assertion -- recursive call of React()
    else do
      setCore { core with working := true }
      match ← P.bubble event (fuel σ) start with
      | none => clearWorking
      | some transition => do
        P.dispatchTransition start transition event
        clearWorking

/-- `RecallEvents`, which actions call. -/
def recallEvents : Callback (Core σ ι) ω Unit := fun core =>
  match P.onRecallDeferredEvents, core.currentState with
  | some f, some s => f s core
  | _, _ => throw ()

/-- `Start(s)` followed by `React` of each event. -/
def run [Inhabited ε] (s : σ) (events : List ε) : M σ ε α ι ω Unit := do
  P.start (some (.user s))
  forM events P.react

end Fsm

end EventFramework.Statemachine
