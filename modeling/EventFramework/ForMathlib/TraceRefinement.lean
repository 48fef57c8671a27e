import Mathlib.Data.List.Basic

/-!
# Trace refinement

A `System` makes steps that carry an event or are internal, and `Run trace x` says that it can
reach the state `x` with the events `trace`. A `Simulation` of `M` by `N` relates their states
such that `N` answers every step of `M` by one with the same event, or by none if the step is
internal; an invariant of `N` can be used for it. Then everything that can be observed of `M`
can be observed of `N`, and the states in the end are related (`Simulation.run`).

For an object that is shared by threads, with the calls and returns as events and an `N` that
carries out every call at one moment between the two, this is linearizability.
-/

namespace TraceRefinement

variable {X Y E : Type*}

/-- A transition system. A step without an event is internal. -/
structure System (X E : Type*) where
  Init : X → Prop
  Step : X → Option E → X → Prop

namespace System

variable (M : System X E)

/-- The states that are reached with a list of events. -/
inductive Run : List E → X → Prop
  | init {x : X} (h : M.Init x) : Run [] x
  | step {trace : List E} {x x' : X} {event : Option E} (hrun : Run trace x)
      (h : M.Step x event x') : Run (trace ++ event.toList) x'

/-- A property that holds at first and is preserved. -/
structure Invariant (I : X → Prop) : Prop where
  init : ∀ x, M.Init x → I x
  step : ∀ x event x', I x → M.Step x event x' → I x'

variable {M} {I : X → Prop} {trace : List E} {x : X}

theorem Invariant.run (hI : M.Invariant I) (h : M.Run trace x) : I x := by
  induction h with
  | init h => exact hI.init _ h
  | step _ h ih => exact hI.step _ _ _ ih h

end System

/-- Every step of `M` is answered by at most one step of `N` with the same event. -/
structure Simulation (M : System X E) (N : System Y E) (I : Y → Prop) (R : X → Y → Prop) :
    Prop where
  init : ∀ x, M.Init x → ∃ y, N.Init y ∧ R x y
  step : ∀ x y event x', I y → R x y → M.Step x event x' →
    (∃ y', N.Step y event y' ∧ R x' y') ∨ event = none ∧ R x' y

/-- **Refinement.** What is observed of the simulated system is observed of the other one. -/
theorem Simulation.run {M : System X E} {N : System Y E} {I : Y → Prop} {R : X → Y → Prop}
    {trace : List E} {x : X} (h : Simulation M N I R) (hI : N.Invariant I)
    (hrun : M.Run trace x) : ∃ y, N.Run trace y ∧ R x y := by
  induction hrun with
  | init hinit =>
    obtain ⟨y, hy, hR⟩ := h.init _ hinit
    exact ⟨y, .init hy, hR⟩
  | step _ hstep ih =>
    obtain ⟨y, hy, hR⟩ := ih
    rcases h.step _ _ _ _ (hI.run hy) hR hstep with ⟨y', hstep', hR'⟩ | ⟨rfl, hR'⟩
    · exact ⟨y', hy.step hstep', hR'⟩
    · refine ⟨y, ?_, hR'⟩
      rwa [Option.toList_none, List.append_nil]

end TraceRefinement
