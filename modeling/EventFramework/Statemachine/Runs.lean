import EventFramework.Statemachine.Reactions

/-!
# Whole runs refine the abstract machine

The enter and exit marks of a trace (`marks`), together with the current state and the
history map, are those of an abstract configuration: `Refines`. `Start` begins the abstract
machine (`start_refines`), and a completed `React` is one abstract step, a move to the target
of the transition the event selects (`target`) or none (`react_refines`).

So every completed run from a ready machine is a run of the abstract machine
(`run_simulated`), whose moments are the current states after `Start` and after each `React`
(`moments`). An interrupted call leaves a prefix of the marks of the completed one
(`react_marks`, `start_marks`).
-/

namespace EventFramework.Statemachine

open TracedProgram PointerChain ParentForest StateHierarchy EnterExit

/-! ### Marks -/

/-- The mark a call leaves. -/
def Call.toMark {σ ε α : Type} : Call σ ε α → Option (Mark (StateObj σ))
  | .enterState s => some (.enter s)
  | .exitState s => some (.exit s)
  | _ => none

/-- The states entered and left in a trace. -/
def marks {σ ε α : Type} (trace : List (Call σ ε α)) : List (Mark (StateObj σ)) :=
  trace.filterMap Call.toMark

namespace Fsm

section Marks

variable {σ ε α : Type}

theorem marks_append (T T' : List (Call σ ε α)) : marks (T ++ T') = marks T ++ marks T' :=
  List.filterMap_append

theorem marks_eq_nil {T : List (Call σ ε α)} (h : ∀ c ∈ T, c.toMark = none) : marks T = [] :=
  List.filterMap_eq_nil_iff.mpr h

theorem marks_mono {T T' : List (Call σ ε α)} (h : T <+: T') : marks T <+: marks T' :=
  h.filterMap _

theorem marks_questions {asked : List (Call σ ε α)} (h : ∀ c ∈ asked, c.IsQuestion) :
    marks asked = [] := by
  refine marks_eq_nil fun c hc => ?_
  have hq := h c hc
  cases c <;> first | rfl | exact hq.elim

theorem marks_deferCalls (event : ε) (last : StateObj σ) (response : Response σ α) :
    marks (deferCalls event last response) = [] := by
  cases response <;> rfl

theorem marks_callsIf {b : Bool} {c : Call σ ε α} (hc : c.toMark = none) :
    marks (callsIf b c) = [] := by
  cases b with
  | false => rfl
  | true => simp [callsIf, marks, hc]

theorem marks_actions (actions : List α) (event : ε) :
    marks (actions.map fun action => (.action action event : Call σ ε α)) = [] := by
  refine marks_eq_nil fun c hc => ?_
  obtain ⟨action, -, rfl⟩ := List.mem_map.mp hc
  rfl

end Marks

variable {σ ε α ι ω : Type} (P : Fsm σ ε α ι ω) {event : ε}

theorem marks_exitCalls (x : StateObj σ) : marks (P.exitCalls event x) = [.exit x] := by
  have hactions : marks ((P.onExit x).map fun action => Call.exitAction x action event) = [] := by
    refine marks_eq_nil fun c hc => ?_
    obtain ⟨action, -, rfl⟩ := List.mem_map.mp hc
    rfl
  have hhook : marks (callsIf P.onStateExit.isSome (Call.onStateExit (ε := ε) (α := α) x)) = [] :=
    marks_callsIf rfl
  unfold exitCalls
  rw [← List.singleton_append, marks_append, marks_append, hactions, hhook]
  rfl

theorem marks_entryCalls (x : StateObj σ) : marks (P.entryCalls event x) = [.enter x] := by
  have hactions :
      marks ((P.onEntry x).map fun action => Call.entryAction x action event) = [] := by
    refine marks_eq_nil fun c hc => ?_
    obtain ⟨action, -, rfl⟩ := List.mem_map.mp hc
    rfl
  have hhook :
      marks (callsIf P.onStateEntry.isSome (Call.onStateEntry (ε := ε) (α := α) x)) = [] :=
    marks_callsIf rfl
  unfold entryCalls
  rw [← List.singleton_append, marks_append, marks_append, hactions, hhook]
  rfl

theorem marks_exits (l : List (StateObj σ)) :
    marks (l.flatMap (P.exitCalls event)) = l.map .exit := by
  induction l with
  | nil => rfl
  | cons x l ih => rw [List.flatMap_cons, marks_append, ih, P.marks_exitCalls]; rfl

theorem marks_entries (l : List (StateObj σ)) :
    marks (l.flatMap (P.entryCalls event)) = l.map .enter := by
  induction l with
  | nil => rfl
  | cons x l ih => rw [List.flatMap_cons, marks_append, ih, P.marks_entryCalls]; rfl

variable [Fintype σ] [DecidableEq σ]

theorem marks_startCalls (event : ε) (s : StateObj σ) :
    marks (P.startCalls event s) = (P.chart.begin s).marks := P.marks_entries _

theorem marks_transitionCalls (h : StateObj σ → Option (StateObj σ)) (c t : StateObj σ)
    (actions : List α) :
    marks (P.transitionCalls h c t actions event) = (P.chart.exitPath c t).map .exit ++
      (P.chart.entryPath c t ++ P.chart.descent (P.chart.recordExits h c t) t).map .enter := by
  unfold transitionCalls
  rw [marks_append, marks_append, marks_append, P.marks_exits, P.marks_entries, marks_actions,
    marks_callsIf rfl]
  rfl

theorem marks_dispatchCalls (h : StateObj σ → Option (StateObj σ)) (c : StateObj σ)
    (response : Response σ α) : marks (P.dispatchCalls h c event response) =
      match response.target? with
      | some t => (P.chart.exitPath c (.user t)).map .exit ++ (P.chart.entryPath c (.user t) ++
          P.chart.descent (P.chart.recordExits h c (.user t)) (.user t)).map .enter
      | none => [] := by
  cases response with
  | unhandledEvent => exact marks_callsIf rfl
  | deferEvent => rfl
  | noTransition => rfl
  | noTransitionAction action => exact marks_actions action.toList event
  | noTransitionActions actions => exact marks_actions actions event
  | transitionTo t => exact P.marks_transitionCalls h c (.user t) []
  | transitionToAction t action => exact P.marks_transitionCalls h c (.user t) action.toList
  | transitionToActions t actions => exact P.marks_transitionCalls h c (.user t) actions

/-! ### Refinement -/

/-- The target of the transition that an event selects, when it selects one. -/
def target (event : ε) (S : Sys σ ε α ι ω) : Option (StateObj σ) :=
  ((P.answer event S).bind Response.target?).map .user

/-- The machine is in the state of an abstract configuration. -/
structure Refines (S : Sys σ ε α ι ω) (K : Conf (StateObj σ)) : Prop where
  current : S.core.currentState = some K.current
  memory : S.core.initial = K.memory
  marks : marks S.trace = K.marks

variable {P} {S S' : Sys σ ε α ι ω} {K : Conf (StateObj σ)} {c s : σ}

omit [Fintype σ] [DecidableEq σ] in
theorem Refines.current_eq (hK : Refines S K) (hS : P.Idle S c) : K.current = .user c :=
  Option.some.inj (hK.current.symm.trans hS.current)

/-- The marks of a completed call are those of an abstract step. -/
theorem marks_step {response : Response σ α} (hS : P.Idle S c) (hK : Refines S K)
    (hanswer : P.answer event S = some response) {asked : List (Call σ ε α)} {last : StateObj σ}
    (hasked : ∀ x ∈ asked, x.IsQuestion) :
    marks (S.trace ++ (asked ++ (deferCalls event last response ++
      P.dispatchCalls S.core.initial (.user c) event response))) =
      (P.chart.step K (P.target event S)).marks := by
  unfold target
  rw [marks_append, marks_append, marks_append, marks_questions hasked, marks_deferCalls,
    marks_dispatchCalls, hK.marks, hanswer, Option.bind_some, hK.memory, ← hK.current_eq hS]
  cases response.target? with
  | none => simp [Chart.step, Chart.stay]
  | some t => simp [Chart.step, Chart.move]

/-- **One call is one abstract step.** -/
theorem react_refines (hP : P.chart.WellNested) (hS : P.Idle S c) (hK : Refines S K)
    (h : P.react event S = .ok () S') :
    Refines S' (P.chart.step K (P.target event S)) := by
  obtain ⟨response, asked, last, hanswer, hasked, htrace, hcore⟩ := react_ok hP hS h
  have hmarks : marks S'.trace = (P.chart.step K (P.target event S)).marks := by
    rw [htrace]
    exact marks_step hS hK hanswer hasked
  unfold target at hmarks ⊢
  rw [hanswer, Option.bind_some] at hmarks ⊢
  unfold dispatchCore at hcore
  cases htarget : response.target? with
  | none =>
    rw [htarget] at hmarks hcore
    exact ⟨by rw [hcore]; exact hK.current, by rw [hcore]; exact hK.memory, hmarks⟩
  | some t =>
    rw [htarget] at hmarks hcore
    refine ⟨?_, ?_, hmarks⟩
    · rw [hcore, ← hK.current_eq hS]
      simp [transitionCore, Chart.step, Chart.move, hK.memory]
    · rw [hcore, ← hK.current_eq hS]
      simp [transitionCore, Chart.step, Chart.move, hK.memory]

/-- An interrupted call leaves a prefix of the marks of the step. -/
theorem react_marks (hP : P.chart.WellNested) (hS : P.Idle S c) (hK : Refines S K) (event : ε) :
    marks (stateOf (P.react event S)).trace <+:
      (P.chart.step K (P.target event S)).marks := by
  obtain ⟨asked, last, hasked, hruns⟩ := react_runs hP hS event
  cases hanswer : P.answer event S with
  | none =>
    rw [hanswer] at hruns
    obtain ⟨L', hpre, htrace⟩ := hruns.stateOf_trace
    have hL' : marks L' = [] :=
      marks_questions fun c hc => hasked c (hpre.subset hc)
    rw [htrace, marks_append, hL', List.append_nil, hK.marks, target, hanswer]
    exact List.prefix_rfl
  | some response =>
    rw [hanswer] at hruns
    obtain ⟨L', hpre, htrace⟩ := hruns.stateOf_trace
    rw [htrace, ← marks_step hS hK hanswer hasked]
    exact marks_mono ((List.prefix_append_right_inj _).mpr hpre)

theorem react_idle (hP : P.chart.WellNested) (hS : P.Idle S c)
    (h : P.react event S = .ok () S') : ∃ c', P.Idle S' c' := by
  obtain ⟨response, -, -, -, -, -, hcore⟩ := react_ok hP hS h
  exact dispatchCore_idle hP hS response hcore

variable [Inhabited ε] {events : List ε}

theorem start_refines (hP : P.chart.WellNested) (hS : Ready S)
    (h : P.start (some (.user s)) S = .ok () S') :
    Refines S' (P.chart.begin (.user s)) := by
  obtain ⟨htrace, hcore⟩ := start_ok hP hS.impl h
  refine ⟨by rw [hcore]; rfl, by rw [hcore]; rfl, ?_⟩
  rw [htrace, P.marks_startCalls]

theorem start_marks (hP : P.chart.WellNested) (himpl : S.core.impl.isSome) (s : σ) :
    marks (stateOf (P.start (some (.user s)) S)).trace <+: (P.chart.begin (.user s)).marks := by
  obtain ⟨L', hpre, htrace⟩ := (start_runs hP S s).stateOf_trace
  rw [start_apply himpl, htrace, ← P.marks_startCalls default]
  exact marks_mono hpre

/-! ### Runs -/

theorem run_nil (s : σ) (S : Sys σ ε α ι ω) : P.run s [] S = P.start (some (.user s)) S := by
  unfold run
  rw [bind_apply, List.forM_nil]
  cases P.start (some (.user s)) S <;> rfl

/-- A run goes on where it has stopped. -/
theorem run_concat (s : σ) (events : List ε) (event : ε) (S : Sys σ ε α ι ω) :
    P.run s (events ++ [event]) S = match P.run s events S with
      | .ok _ S' => P.react event S'
      | .error f S' => .error f S' := by
  unfold run
  rw [List.forM_append, ← bind_assoc, bind_apply]
  cases (P.start (some (.user s)) >>= fun _ => forM events P.react) S with
  | error f S' => rfl
  | ok _ S' => simp

theorem run_concat_ok_iff {event : ε} : P.run s (events ++ [event]) S = .ok () S' ↔
    ∃ S₁, P.run s events S = .ok () S₁ ∧ P.react event S₁ = .ok () S' := by
  rw [run_concat]
  cases P.run s events S <;> simp

variable (P) in
/-- The current states after `Start` and after each `React` of a run, the latest first. -/
def moments (s : σ) (events : List ε) (S : Sys σ ε α ι ω) : List (StateObj σ) :=
  events.inits.reverse.filterMap fun earlier =>
    (stateOf (P.run s earlier S)).core.currentState

theorem moments_concat {event : ε} (h : P.run s (events ++ [event]) S = .ok () S')
    {x : StateObj σ} (hx : S'.core.currentState = some x) :
    P.moments s (events ++ [event]) S = x :: P.moments s events S := by
  unfold moments
  rw [List.inits_append]
  simp [h, stateOf, hx]

/-- **A completed run is a run of the abstract machine**, with the same marks and moments, and
leaves the machine idle. -/
theorem run_simulated (hP : P.chart.WellNested) (hS : Ready S)
    (h : P.run s events S = .ok () S') :
    ∃ ls c, P.Idle S' c ∧ Refines S' (P.chart.run (.user s) ls) ∧
      P.moments s events S = (P.chart.run (.user s) ls).seen := by
  induction events using List.reverseRecOn generalizing S' with
  | nil =>
    have hstart := h
    rw [run_nil] at hstart
    obtain ⟨c, hidle⟩ := startCore_idle hP hS (start_ok hP hS.impl hstart).2
    have hrefines := start_refines hP hS hstart
    refine ⟨[], c, hidle, hrefines, ?_⟩
    simp [moments, h, stateOf, hrefines.current]
    rfl
  | append_singleton events event ih =>
    obtain ⟨S₁, hrun, hreact⟩ := run_concat_ok_iff.mp h
    obtain ⟨ls, c, hidle, hrefines, hseen⟩ := ih hrun
    obtain ⟨c', hidle'⟩ := react_idle hP hidle hreact
    have hrefines' := react_refines hP hidle hrefines hreact
    refine ⟨ls ++ [P.target event S₁], c', hidle', ?_, ?_⟩
    · rwa [Chart.run_concat]
    · rw [Chart.run_concat, Chart.step_seen, moments_concat h hrefines'.current, hseen]

/-! ### Conditions on the calls of a run -/

variable (P) in
/-- Every `React` of a run, as far as the run gets, is called in a state in which `good` holds
of its event. -/
def AtEachCall (s : σ) (events : List ε) (S : Sys σ ε α ι ω)
    (good : ε → Sys σ ε α ι ω → Prop) : Prop :=
  ∀ earlier event S', earlier ++ [event] <+: events → P.run s earlier S = .ok () S' →
    good event S'

variable {good : ε → Sys σ ε α ι ω → Prop}

theorem atEachCall_nil : P.AtEachCall s [] S good := by
  intro earlier event S' hpre
  simp at hpre

theorem AtEachCall.of_concat (h : P.AtEachCall s (events ++ [event]) S good) :
    P.AtEachCall s events S good := fun earlier e S₁ hpre =>
  h earlier e S₁ (hpre.trans (List.prefix_append events [event]))

theorem AtEachCall.last (h : P.AtEachCall s (events ++ [event]) S good)
    (hrun : P.run s events S = .ok () S') : good event S' :=
  h events event S' List.prefix_rfl hrun

theorem atEachCall_concat_iff (hrun : P.run s events S = .ok () S') :
    P.AtEachCall s (events ++ [event]) S good ↔ P.AtEachCall s events S good ∧ good event S' := by
  refine ⟨fun h => ⟨h.of_concat, h.last hrun⟩, fun ⟨h, hlast⟩ earlier e S₁ hpre hearlier => ?_⟩
  rcases List.prefix_concat_iff.mp hpre with heq | hpre
  · obtain ⟨rfl, he⟩ := List.append_inj' heq rfl
    obtain rfl := List.singleton_inj.mp he
    rw [hrun] at hearlier
    cases hearlier
    exact hlast
  · exact h earlier e S₁ hpre hearlier

variable (P) in
/-- `good` holds after `Start` and after every completed `React` of a run. -/
def AfterEachCall (s : σ) (events : List ε) (S : Sys σ ε α ι ω)
    (good : Sys σ ε α ι ω → Prop) : Prop :=
  ∀ earlier S', earlier <+: events → P.run s earlier S = .ok () S' → good S'

variable {good : Sys σ ε α ι ω → Prop}

theorem AfterEachCall.last (h : P.AfterEachCall s events S good)
    (hrun : P.run s events S = .ok () S') : good S' :=
  h events S' List.prefix_rfl hrun

theorem afterEachCall_nil_iff : P.AfterEachCall s [] S good ↔
    ∀ S', P.start (some (.user s)) S = .ok () S' → good S' := by
  refine ⟨fun h S' hstart => h [] S' List.prefix_rfl (by rwa [run_nil]), ?_⟩
  intro h earlier S' hpre hrun
  obtain rfl := List.prefix_nil.mp hpre
  rw [run_nil] at hrun
  exact h S' hrun

theorem afterEachCall_concat_iff (hrun : P.run s (events ++ [event]) S = .ok () S') :
    P.AfterEachCall s (events ++ [event]) S good ↔
      P.AfterEachCall s events S good ∧ good S' := by
  refine ⟨fun h => ⟨fun earlier S₁ hpre => ?_, h.last hrun⟩, ?_⟩
  · exact h earlier S₁ (hpre.trans (List.prefix_append events [event]))
  · rintro ⟨h, hlast⟩ earlier S₁ hpre hearlier
    rcases List.prefix_concat_iff.mp hpre with rfl | hpre
    · rw [hrun] at hearlier
      cases hearlier
      exact hlast
    · exact h earlier S₁ hpre hearlier

end Fsm

/-! ### The machine of the unit test -/

/-- The states of the traffic light. -/
inductive Light
  | off | on | green | yellow | red | redYellow
  deriving DecidableEq, Repr

instance : Fintype Light :=
  ⟨{.off, .on, .green, .yellow, .red, .redYellow}, by intro x; cases x <;> decide⟩

/-- Its entry, exit and transition actions. -/
inductive LightAction
  | offEntry | offEntry2 | offExit | offExit2 | onEntry | onExit | walk
  deriving DecidableEq, Repr

/-- Its state table. -/
def Light.state : Light → State Light LightAction
  | .off => { onEntry := [.offEntry, .offEntry2], onExit := [.offExit, .offExit2] }
  | .on => {
      flags := .kHistory
      initial := some .green
      onEntry := [.onEntry]
      onExit := [.onExit] }
  | _ => { parent := some .on }

/-- A machine whose handlers give the answer that the event carries, and whose actions do
nothing. -/
def driven {σ α : Type} (state : σ → State σ α) : Fsm σ (Response σ α) α Unit Unit where
  state := state
  handler := fun _ response _ => pure response
  action := fun _ _ _ => pure ()
  onDeferEvent := some fun _ _ _ => pure ()

/-- The traffic light, driven by answers. -/
def trafficLight : Fsm Light (Response Light LightAction) LightAction Unit Unit :=
  driven Light.state

/-- A machine after `Init`. -/
def initialised {σ ε α : Type} : Sys σ ε α Unit Unit := ⟨{ impl := some () }, (), []⟩

theorem initialised_ready {σ ε α : Type} : Fsm.Ready (initialised : Sys σ ε α Unit Unit) :=
  ⟨rfl, rfl⟩

theorem trafficLight_wellFormed : trafficLight.chart.WellFormed where
  acyclic := acyclic_of_measure (fun x => if x = .user .on then 1 else 0) (by decide)
  initial_child := by decide

end EventFramework.Statemachine
