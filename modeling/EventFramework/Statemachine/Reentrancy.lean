import EventFramework.Statemachine.Observation
import EventFramework.Statemachine.Runs

/-!
# Calling the machine from its own callbacks

A callback that calls `React` calls it on the machine as the callback sees it. During an outer
`React` such a call is always rejected by the assertion on the busy flag, since every callback
sees an engaged machine. `Start` does not set the flag: during an outer `Start` a nested
`React` passes both assertions unless the flag was set before, and then offers its event to
`kInTransition`, whose handler is null (`react_inTransition`). So the condition of
`nested_react_rejected_iff` is exact.
-/

namespace EventFramework.Statemachine

open TracedProgram

namespace Fsm

variable {σ ε α ι ω : Type} [DecidableEq σ] [Fintype σ] {P : Fsm σ ε α ι ω} {S : Sys σ ε α ι ω}

/-- In transition and not busy, `React` gets as far as the null handler, unless
`on_handle_event_` throws before. -/
theorem react_inTransition (hcurrent : S.core.currentState = some .kInTransition)
    (hidle : S.core.working = false) (event : ε) :
    ∃ S', P.react event S = .error .nullPointer S' ∨
      P.onHandleEvent.isSome ∧ P.react event S = .error .thrown S' := by
  have hruns := react_inTransition_runs hcurrent hidle (P := P) event
  cases h : P.react event S with
  | ok _ S' => exact (hruns.of_ok h).2.elim
  | error f S' =>
    obtain ⟨⟨hf, -⟩, -⟩ := hruns.of_error h
    rcases hf with rfl | ⟨hset, rfl⟩
    · exact ⟨S', .inl rfl⟩
    · exact ⟨S', .inr ⟨hset, rfl⟩⟩

variable [Inhabited ε]

/-- **Nested calls of React.** Take any callback executed within a call of `Start` or `React`,
seeing the data members `g`, and let it call `React` with any event. The nested call fails an
assertion and does nothing exactly when the outer call is a `React`, or the machine was busy
when `Start` was called. Otherwise it calls the null handler of `kInTransition`, unless
`on_handle_event_` throws. -/
theorem nested_react_rejected_iff {entry : EntryPoint σ ε} {g : Core σ ι}
    (hg : g ∈ P.coresSeen entry S) (event : ε) (w : ω) (T : List (Call σ ε α)) :
    (P.react event ⟨g, w, T⟩ = .error .assertion ⟨g, w, T⟩ ↔
      (∃ outer, entry = .react outer) ∨ S.core.working = true) ∧
    (¬ ((∃ outer, entry = .react outer) ∨ S.core.working = true) →
      ∃ S', P.react event ⟨g, w, T⟩ = .error .nullPointer S' ∨
        P.onHandleEvent.isSome ∧ P.react event ⟨g, w, T⟩ = .error .thrown S') := by
  cases entry with
  | start initial =>
    have hseen := entering_of_coresSeen g hg
    refine ⟨?_, fun hcond => ?_⟩
    · rw [react_rejected_iff hseen.current, hseen.working]
      simp
    · have hidle : g.working = false := by
        rw [hseen.working]
        exact Bool.eq_false_iff.mpr fun h => hcond (.inr h)
      exact react_inTransition (S := ⟨g, w, T⟩) hseen.current hidle event
  | react outer =>
    have hseen := engaged_of_coresSeen g hg
    refine ⟨iff_of_true ?_ (.inl ⟨outer, rfl⟩), fun hcond => absurd (.inl ⟨outer, rfl⟩) hcond⟩
    exact react_refused (.inr hseen.working)

/-- Starting the traffic light runs the entry actions of off, and a `React` called from the
first of them gets to the null handler. -/
theorem trafficLight_nested_in_start :
    Ready (initialised : Sys Light (Response Light LightAction) LightAction Unit Unit) ∧
      (∃ g ∈ trafficLight.coresSeen (.start (some (.user .off))) initialised,
        ∃ S', trafficLight.react .noTransition ⟨g, (), []⟩ = .error .nullPointer S') ∧
      ¬ ∀ g ∈ trafficLight.coresSeen (.start (some (.user .off))) initialised,
        trafficLight.react .noTransition ⟨g, (), []⟩ = .error .assertion ⟨g, (), []⟩ := by
  have hlength : 0 < (trafficLight.coresSeen (.start (some (.user .off))) initialised).length := by
    decide +kernel
  obtain ⟨g, hg⟩ := List.exists_mem_of_length_pos hlength
  have hseen := entering_of_coresSeen g hg
  have hnull : ∃ S', trafficLight.react .noTransition ⟨g, (), []⟩ = .error .nullPointer S' := by
    obtain ⟨S', hnull | ⟨hset, -⟩⟩ := react_inTransition (P := trafficLight) (S := ⟨g, (), []⟩)
      hseen.current hseen.working .noTransition
    · exact ⟨S', hnull⟩
    · cases hset
  refine ⟨initialised_ready, ⟨g, hg, hnull⟩, fun hclaim => ?_⟩
  obtain ⟨S', hnull⟩ := hnull
  have hassert := hnull.symm.trans (hclaim g hg)
  cases hassert

/-- A `React` called while the traffic light goes from green to off is rejected. -/
theorem trafficLight_nested_in_react :
    ∃ g ∈ trafficLight.coresSeen (.react (.transitionTo .off))
        (stateOf (trafficLight.run .on [] initialised)),
      (trafficLight.react .noTransition ⟨g, (), []⟩ = .error .assertion ⟨g, (), []⟩ ↔
        (∃ outer, (.react (.transitionTo .off) : EntryPoint Light (Response Light LightAction)) =
          .react outer) ∨
          (stateOf (trafficLight.run .on [] initialised)).core.working = true) := by
  have hlength : 0 < (trafficLight.coresSeen (.react (.transitionTo .off))
      (stateOf (trafficLight.run .on [] initialised))).length := by decide +kernel
  obtain ⟨g, hg⟩ := List.exists_mem_of_length_pos hlength
  exact ⟨g, hg, (nested_react_rejected_iff hg .noTransition () []).1⟩

end Fsm

end EventFramework.Statemachine
