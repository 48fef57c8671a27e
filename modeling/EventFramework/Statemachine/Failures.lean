import EventFramework.Statemachine.Observation
import EventFramework.Statemachine.Runs

/-!
# What a failing React leaves behind

Every way out of `React` that returns clears the busy flag by hand; a failure does not. So
after any failure the machine refuses all further events, and it is as before only if it was
busy before (`react_failure_unchanged_iff`). A failure in the loop that asks the handlers has
changed nothing else (`bubble_core`): the current state and the history are as before, only the
flag is not.
-/

namespace EventFramework.Statemachine

open TracedProgram

namespace Fsm

variable {σ ε α ι ω : Type} [DecidableEq σ] [Fintype σ] {P : Fsm σ ε α ι ω}
  {S S' : Sys σ ε α ι ω} {event : ε} {f : Failure}

omit [DecidableEq σ] [Fintype σ] in
/-- The loop of `React` does not touch the machine. -/
theorem bubble_core (event : ε) (n : ℕ) (s : StateObj σ) (S : Sys σ ε α ι ω) :
    (stateOf (P.bubble event n s S)).core = S.core :=
  (P.bubble_watched (fun g => g = S.core) event n s (withLog S) rfl).stateOf_core

/-- A `React` that fails leaves the machine busy. -/
theorem working_of_react_error {c : StateObj σ} (hcurrent : S.core.currentState = some c)
    (hidle : S.core.working = false) (h : P.react event S = .error f S') :
    S'.core.working = true :=
  ((react_watched (P := P) (s := withLog S) hcurrent hidle event).of_error h).working

/-- **A failing React leaves the machine as it was only if it was busy.** Let `React` fail on a
started machine. All data members are as before if and only if the busy flag was set when it was
called, and only then a further `React` is rejected after it as it would have been before. Else
every further one is rejected, as none would have been; and if it was the selection that
failed, the flag is all that has changed. -/
theorem react_failure_unchanged_iff {c : StateObj σ} (hcurrent : S.core.currentState = some c)
    (h : P.react event S = .error f S') :
    (S'.core.currentState = S.core.currentState ∧ S'.core.working = S.core.working ∧
        S'.core.initial = S.core.initial ↔ S.core.working = true) ∧
      (∀ event', (P.react event' S' = .error .assertion S' ↔
        P.react event' S = .error .assertion S) ↔ S.core.working = true) ∧
      (S.core.working = false → (∀ event', P.react event' S' = .error .assertion S' ∧
          P.react event' S ≠ .error .assertion S) ∧
        (P.bubble event (fuel σ) c (busy S) = .error f S' →
          S'.core = { S.core with working := true })) := by
  cases hworking : S.core.working with
  | true =>
    -- the assertion on the flag comes before everything else
    obtain ⟨-, rfl⟩ := EStateM.Result.error.inj ((react_refused (.inr hworking)).symm.trans h)
    exact ⟨iff_of_true ⟨rfl, hworking, rfl⟩ rfl, fun _ => iff_of_true Iff.rfl rfl,
      fun hidle => Bool.noConfusion hidle⟩
  | false =>
    have hbusy := working_of_react_error hcurrent hworking h
    have haccepted : ∀ event', P.react event' S ≠ .error .assertion S := by
      intro event' hrejected
      rw [react_rejected_iff hcurrent event', hworking] at hrejected
      exact Bool.noConfusion hrejected
    have hrejects : ∀ event', P.react event' S' = .error .assertion S' :=
      fun event' => react_refused (.inr hbusy)
    refine ⟨iff_of_false ?_ Bool.noConfusion, fun event' => iff_of_false ?_ Bool.noConfusion,
      fun _ => ⟨fun event' => ⟨hrejects event', haccepted event'⟩, fun hloop => ?_⟩⟩
    · rintro ⟨-, hsame, -⟩
      exact Bool.noConfusion (hbusy.symm.trans hsame)
    · exact fun hiff => haccepted event' (hiff.mp (hrejects event'))
    · have hcore := bubble_core (P := P) event (fuel σ) c (busy S)
      rw [hloop] at hcore
      exact hcore

/-- One state whose handler casts its event, and throws when that is of another class. -/
def casting : Fsm Unit Bool Empty Unit Unit where
  state _ := {}
  handler _ isClass := fun _ => if isClass then pure .noTransition else throw ()
  action a _ := a.elim

/-- The machine of `casting` after `Init` and `Start`. -/
def castingStarted : Sys Unit Bool Empty Unit Unit :=
  stateOf (casting.start (some (.user ())) initialised)

/-- One event of another class, and the machine refuses the next one, which it would have
handled. -/
theorem casting_stuck :
    ∃ S', casting.react false castingStarted = .error .thrown S' ∧
      S'.core.working ≠ castingStarted.core.working ∧
      casting.react true S' = .error .assertion S' ∧
      returns (casting.react true castingStarted) = true := by
  refine ⟨_, rfl, ?_, rfl, rfl⟩
  decide

/-- The cast fails and changes the machine; the `React` after it fails and does not. -/
theorem casting_unchanged_iff :
    ∃ S', casting.react false castingStarted = .error .thrown S' ∧
      ¬ (S'.core.currentState = castingStarted.core.currentState ∧
        S'.core.working = castingStarted.core.working ∧
        S'.core.initial = castingStarted.core.initial) ∧
      ∃ S₂, casting.react true S' = .error .assertion S₂ ∧
        S₂.core.currentState = S'.core.currentState ∧ S₂.core.working = S'.core.working ∧
        S₂.core.initial = S'.core.initial := by
  obtain ⟨S', hthrows⟩ : ∃ S', casting.react false castingStarted = .error .thrown S' := ⟨_, rfl⟩
  obtain ⟨hunchanged, -, hidle⟩ := react_failure_unchanged_iff (c := .user ()) rfl hthrows
  have hflag : castingStarted.core.working = false := rfl
  have hcurrent : S'.core.currentState = some (.user ()) := by
    obtain rfl : _ = S' := (EStateM.Result.error.inj hthrows).2
    rfl
  refine ⟨S', hthrows, ?_, S', ((hidle hflag).1 true).1, ?_⟩
  · rw [hunchanged, hflag]
    exact Bool.noConfusion
  · have hrefused := ((hidle hflag).1 true).1
    refine (react_failure_unchanged_iff hcurrent hrefused).1.mpr ?_
    exact working_of_react_error (c := .user ()) rfl hflag hthrows

end Fsm

end EventFramework.Statemachine
