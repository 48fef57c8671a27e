import EventFramework.ActiveObjects.Hsm
import EventFramework.Statemachine.Failures
import Mathlib.Logic.Relation

/-!
# An active object is a serial machine

Many threads deliver events to an `Hsm` object, and its events are deferred, recalled and
dispatched between those of other objects. For the state machine inside nothing of this is
visible: in every reachable state it is where a machine is that has run `React` on the consumed
events one after the other (`Serial`), and a dispatch that has deferred its event has left no
mark on it (`run_serial`).

Hence what holds of the machine between two calls holds of the object between two dispatches. In
particular no assertion stops a dispatch: the constructor of `Hsm` sets the deferral callback.
-/

namespace EventFramework

namespace Statemachine.Fsm

open TracedProgram ErrorState

variable {σ ε α ι ω : Type} [DecidableEq σ] [Fintype σ] {P : Fsm σ ε α ι ω} {event : ε}
  {S S' : Sys σ ε α ι ω}

/-- **A React that defers its event leaves the machine as it was.** -/
theorem react_deferred (h : P.react event S = .ok () S') {calls : List (Call σ ε α)}
    (htrace : S'.trace = S.trace ++ calls) (hdefer : ∃ c ∈ calls, c.isDefer = true) :
    S'.core = S.core := by
  cases hstart : S.core.currentState with
  | none =>
    rw [react, getCore_bind_apply, hstart] at h
    cases h
  | some start =>
    cases hworking : S.core.working with
    | true =>
      rw [react, getCore_bind_apply, hstart, hworking] at h
      cases h
    | false =>
      rw [react_apply hstart hworking] at h
      obtain ⟨left, S₁, h₁, h⟩ := bind_ok_iff.mp h
      have hcore : S₁.core = (busy S).core := by
        have hloop := bubble_core (P := P) event (fuel σ) start (busy S)
        rwa [h₁] at hloop
      cases left with
      | none =>
        obtain ⟨-, rfl⟩ := EStateM.Result.ok.inj h
        rw [hcore]
        simp [busy, ← hworking]
      | some transition =>
        -- after a transition nothing defers
        obtain ⟨asked, last, hasked, htr₁, hlast⟩ := bubble_calls h₁
        obtain ⟨rfl, -⟩ | ⟨s, -, hnone⟩ := hlast
        · have hrest := Emits.bind (P.dispatchTransition_keeps start transition event)
            fun _ => clearWorking_keeps
          obtain ⟨calls', htr₂, hcalls⟩ := hrest.of_ok h
          have heq : calls = asked ++ calls' := by
            rw [htr₂, htr₁, List.append_nil, List.append_assoc] at htrace
            exact (List.append_cancel_left htrace).symm
          obtain ⟨c, hc, hcdefer⟩ := hdefer
          rw [heq, List.mem_append] at hc
          obtain hc | hc := hc
          · exact absurd ((hasked c hc).isDefer.symm.trans hcdefer) Bool.false_ne_true
          · exact absurd ((hcalls c hc).symm.trans hcdefer) Bool.false_ne_true
        · exact absurd hnone (Option.some_ne_none _)

omit [DecidableEq σ] [Fintype σ] in
/-- A machine is idle by its data alone. -/
theorem Idle.of_core {c : σ} (hS : P.Idle S c) (hcore : S'.core = S.core) : P.Idle S' c :=
  ⟨⟨hcore ▸ hS.impl, hcore ▸ hS.working⟩, hcore ▸ hS.current, hcore ▸ hS.memory⟩

variable (P) in
/-- The machines reached from `core` by Reacts on these events, one after the other, none of which
is deferred. What the callbacks find of the world is arbitrary. -/
inductive Serial (core : Core σ ι) : List ε → Core σ ι → Prop
  | nil : Serial core [] core
  | react {events : List ε} {core' : Core σ ι} {event : ε} {w : ω} {S' : Sys σ ε α ι ω}
      (h : Serial core events core') (hreact : P.react event ⟨core', w, []⟩ = .ok () S')
      (hkept : ∀ c ∈ S'.trace, c.isDefer = false) : Serial core (events ++ [event]) S'.core

/-- What a React keeps, serial Reacts keep. -/
theorem Serial.invariant {core core' : Core σ ι} {events : List ε} (h : P.Serial core events core')
    {I : Core σ ι → Prop} (hcore : I core) (hreact : ∀ event S S', I S.core →
      P.react event S = .ok () S' → I S'.core) : I core' := by
  induction h with
  | nil => exact hcore
  | react _ h _ ih => exact hreact _ _ _ ih h

end Statemachine.Fsm

namespace ActiveObjects

open Statemachine

/-- The occurrence that `React` has worked on already, in a dispatch that goes on. -/
def Phase.done {σ ε α : Type} : Phase σ ε α → List (Occurrence ε)
  | .reacting o kept calls | .recalling o kept calls _ =>
    if kept ∧ ∀ c ∈ calls, c.isDefer = false then [o] else []
  | .waiting | .elsewhere | .stopped => []

theorem Phase.Outside.done_eq {σ ε α : Type} {phase : Phase σ ε α} (h : phase.Outside) :
    phase.done = [] := by
  cases phase with
  | reacting o kept calls | recalling o kept calls rest => exact h.elim
  | _ => rfl

namespace Hsm

variable {M : Semaphore} {T O σ ε α ι ω : Type} [DecidableEq T] [DecidableEq σ] [Fintype σ]
  {P : Fsm σ ε α ι ω} {domain : T} {capacity : Option ℕ} {s s' : Hsm M T O σ ε α ι}
  {core : Core σ ι}

/-- The machine of the object is that of a serial run. -/
def IsSerial (P : Fsm σ ε α ι ω) (core : Core σ ι) (s : Hsm M T O σ ε α ι) : Prop :=
  P.Serial core ((s.consumed ++ s.phase.done).map Occurrence.event) s.core

omit [DecidableEq T] in
theorem IsSerial.congr (hs : IsSerial P core s) (hcore : s'.core = s.core)
    (hevents : s'.consumed ++ s'.phase.done = s.consumed ++ s.phase.done) :
    IsSerial P core s' := by
  rw [IsSerial, hcore, hevents]
  exact hs

/-- **One step.** -/
theorem Step.isSerial (hs : IsSerial P core s) (h : Step P domain capacity s s') :
    IsSerial P core s' := by
  cases h with
  | take hq => exact hs
  | takeHighPrio hq => exact hs
  | enqueueBack hentry hq => exact hs
  | enqueueFront hentry hq => exact hs
  | release hq => exact hs
  | acquire hphase hq => exact hs
  | stop hphase hfront hq => exact hs.congr rfl (by simp [hphase, Phase.done])
  | dispatchOther hphase hfront hq => exact hs.congr rfl (by simp [hphase, Phase.done])
  | dispatchedOther hphase => exact hs.congr rfl (by simp [hphase, Phase.done])
  | @dispatch queue o w S' hphase hfront hq hreact =>
    have hserial : P.Serial core (s.consumed.map Occurrence.event) s.core := by
      have hevents : s.consumed ++ s.phase.done = s.consumed := by simp [hphase, Phase.done]
      rwa [IsSerial, hevents] at hs
    by_cases hkept : ∀ c ∈ S'.trace, c.isDefer = false
    · -- the event is going to be consumed
      have hdone : (Phase.reacting o true S'.trace).done = [o] := if_pos ⟨rfl, hkept⟩
      rw [IsSerial, hdone, List.map_append]
      exact hserial.react hreact hkept
    · have hdone : (Phase.reacting o true S'.trace).done = [] := if_neg fun h => hkept h.2
      have hdefer : ∃ c ∈ S'.trace, c.isDefer = true := by simpa using hkept
      rw [IsSerial, hdone, List.append_nil]
      rwa [P.react_deferred hreact (List.nil_append _).symm hdefer]
  | @called o kept c calls hphase hc =>
    exact hs.congr rfl (by simp [hphase, Phase.done, hc])
  | @deferEvent o kept x event calls hphase =>
    exact hs.congr rfl (by simp [hphase, Phase.done, Call.isDefer])
  | recallEvents hphase hc => exact hs.congr rfl (by simp [hphase, Phase.done])
  | recallNext hphase hq => exact hs.congr rfl (by simp [hphase, Phase.done])
  | recalled hphase => exact hs.congr rfl (by simp [hphase, Phase.done])
  | dispatched hphase =>
    exact hs.congr rfl (by simp [hphase, Phase.done])

/-- The runs of an object, from its first state on. -/
abbrev Runs (P : Fsm σ ε α ι ω) (domain : T) (capacity : Option ℕ) (core : Core σ ι) :
    Hsm M T O σ ε α ι → Prop :=
  Relation.ReflTransGen (Step P domain capacity) { core }

theorem Runs.isSerial (h : Runs P domain capacity core s) : IsSerial P core s := by
  induction h with
  | refl => exact .nil
  | tail _ hstep ih => exact hstep.isSerial ih

omit [DecidableEq T] in
/-- In an idle machine that can defer, only a callback stops a React. -/
theorem react_thrown (hP : P.chart.WellNested) (hdefer : P.onDeferEvent.isSome)
    {S S' : Sys σ ε α ι ω} {c : σ} (hS : P.Idle S c) {event : ε} {f : TracedProgram.Failure}
    (h : P.react event S = .error f S') : f = .thrown := by
  obtain ⟨asked, last, -, hruns⟩ := Fsm.react_runs hP hS event
  cases hanswer : P.answer event S with
  | none =>
    rw [hanswer] at hruns
    exact (hruns.of_error h).1.1
  | some response =>
    rw [hanswer] at hruns
    obtain hthrown | ⟨-, -, hnone⟩ := (hruns.of_error h).1.1
    · exact hthrown
    · rw [hnone] at hdefer
      exact nomatch hdefer

/-- **The object is a serial machine.** Under every interleaving, between two dispatches the
machine of the object is the one that has run `React` on the consumed events alone, one after the
other. If it was idle at first it is idle again, and then a dispatch of any event, in any world,
returns unless a callback throws. -/
theorem run_serial {S₀ : Sys σ ε α ι ω} (h : Runs P domain capacity S₀.core s)
    (hphase : s.phase.Outside) :
    P.Serial S₀.core (s.consumed.map Occurrence.event) s.core ∧
    (P.chart.WellNested → ∀ c₀, P.Idle S₀ c₀ → ∀ S : Sys σ ε α ι ω, S.core = s.core →
      (∃ c, P.Idle S c) ∧
      (P.onDeferEvent.isSome → ∀ event f S', P.react event S = .error f S' → f = .thrown)) := by
  have hserial : P.Serial S₀.core (s.consumed.map Occurrence.event) s.core := by
    have hall := h.isSerial
    rwa [IsSerial, hphase.done_eq, List.append_nil] at hall
  refine ⟨hserial, fun hP c₀ hc₀ S hS => ?_⟩
  have hidle : ∃ c, P.Idle S c :=
    hserial.invariant (I := fun core => ∀ S : Sys σ ε α ι ω, S.core = core → ∃ c, P.Idle S c)
      (fun S hS => ⟨c₀, hc₀.of_core hS⟩)
      (fun event S₁ S₂ h₁ hreact S hS => by
        obtain ⟨c, hc⟩ := h₁ S₁ rfl
        obtain ⟨c', hc'⟩ := Fsm.react_idle hP hc hreact
        exact ⟨c', hc'.of_core hS⟩) S hS
  refine ⟨hidle, fun hdefer event f S' hreact => ?_⟩
  obtain ⟨c, hc⟩ := hidle
  exact react_thrown hP hdefer hc hreact

/-- The traffic light at green, with one event taken and dispatched. -/
theorem trafficLight_serial : ∃ s : Hsm (stdSemaphore 1) ℕ ℕ Light (Response Light LightAction)
    LightAction Unit, s.consumed.map Occurrence.event = [.noTransitionAction (some .walk)] ∧
      trafficLight.Serial { currentState := some (.user .green), impl := some () }
        [.noTransitionAction (some .walk)] s.core := by
  let S₀ : Sys Light (Response Light LightAction) LightAction Unit Unit :=
    ⟨{ currentState := some (.user .green), impl := some () }, (), []⟩
  set S := TracedProgram.stateOf (trafficLight.react (.noTransitionAction (some .walk)) S₀)
  have hreact : trafficLight.react (.noTransitionAction (some .walk)) S₀ = .ok () S :=
    TracedProgram.ok_of_returns (by decide +kernel)
  have htrace : S.trace = [.handler .green (.noTransitionAction (some .walk)),
      .action .walk (.noTransitionAction (some .walk))] := by
    decide +kernel
  have hinit : Runs (M := stdSemaphore 1) (T := ℕ) (O := ℕ) trafficLight 1 none S₀.core _ := .refl
  have htaken := hinit.tail (.take (.pushBack (M := stdSemaphore 1) (t := 0)
    (e := Entry.own ⟨.noTransitionAction (some .walk), 0, true⟩) ⟨by decide, by decide⟩
    (EventQueue.room_none _)))
  have hreleased := htaken.tail (.release (.release (t := 0) (m := SemState.counter 1)
    (by decide) ⟨0, rfl, rfl⟩))
  have hacquired := hreleased.tail (.acquire rfl (.acquire (m := SemState.counter 0)
    ⟨by decide, by decide⟩ ⟨0, rfl, rfl⟩))
  have hdispatch := hacquired.tail (.dispatch rfl rfl (.pop (by decide) rfl) hreact)
  have hhandler := hdispatch.tail (.called (congrArg _ htrace) rfl)
  have haction := hhandler.tail (.called rfl rfl)
  have hdone := haction.tail (.dispatched rfl)
  exact ⟨_, rfl, (run_serial hdone trivial).1⟩

end Hsm

end ActiveObjects

end EventFramework
