import EventFramework.Statemachine.Failures

/-!
# The life of a machine

A client may call `Init`, `Start` and `React` in any order, and go on after a call in which an
assertion has failed or a callback has thrown. `session` is the machine after such a sequence
of calls, `transcript` lists the calls that were served; both end at a call that does not come
back.

The abstract model is a small automaton (`Life`): where the machine is between its construction
and a running chart (`Phase`), and whether it is dead, that is, busy for ever. `session_life`
connects the two. The outcome of every call is one the automaton allows, so a client can know
what the machine will accept from the outcomes alone. A machine dies in the first `React` that
is accepted and fails, in no other way, and nothing the client can call brings it back.
-/

namespace TracedProgram

/-- Whether the caller does not get the control back. -/
def Failure.isFatal : Failure → Bool
  | .nullPointer | .diverged => true
  | .assertion | .thrown => false

/-- The failure a computation ends with, if any. -/
def failureOf {Γ ω C A : Type} : EStateM.Result Failure (Traced Γ ω C) A → Option Failure
  | .ok _ _ => none
  | .error f _ => some f

end TracedProgram

namespace EventFramework.Statemachine

open TracedProgram ParentForest StateHierarchy

/-! ### The abstract life -/

/-- The calls a client makes; a null pointer is `none`. -/
inductive Request (σ ε ι : Type)
  | init (impl : Option ι)
  | start (initial : Option σ)
  | react (event : ε)

/-- How far a machine has come. -/
inductive Phase
  /-- `Init` has not been called -/
  | constructed
  /-- `Start` has not been called -/
  | initialised
  /-- in a state of the chart -/
  | running
  /-- a callback has thrown between two states -/
  | interrupted
  /-- a call has not come back -/
  | crashed
  deriving DecidableEq, Repr

/-- The life of a machine: its phase, and whether it refuses every event from now on. -/
structure Life where
  phase : Phase := .constructed
  dead : Bool := false
  deriving DecidableEq, Repr

namespace Life

/-- `Init` has been called. -/
def initialise (l : Life) : Life :=
  if l.phase = .constructed then { l with phase := .initialised } else l

/-- Whether a `React` gets past the assertions. -/
def Accepts (l : Life) : Prop := (l.phase = .running ∨ l.phase = .interrupted) ∧ l.dead = false

/-- The outcomes of a call at each point of a life, and where the life goes on. -/
inductive Step {σ ε ι : Type} : Life → Request σ ε ι → Option Failure → Life → Prop
  | initNull {l} : Step l (.init none) (some .assertion) l
  | init {l i} : Step l (.init (some i)) none l.initialise
  | startEarly {l s} (h : l.phase = .constructed) : Step l (.start s) (some .assertion) l
  | startNull {l} (h : l.phase ≠ .constructed) :
      Step l (.start none) (some .nullPointer) { l with phase := .crashed }
  | start {l s} (h : l.phase ≠ .constructed) :
      Step l (.start (some s)) none { l with phase := .running }
  | startThrows {l s} (h : l.phase ≠ .constructed) :
      Step l (.start (some s)) (some .thrown) { l with phase := .interrupted }
  | refused {l event} (h : ¬ l.Accepts) : Step l (.react event) (some .assertion) l
  | react {event} : Step ⟨.running, false⟩ (.react event) none ⟨.running, false⟩
  | reactFails {event f p} (hf : f = .thrown ∨ f = .assertion)
      (hp : p = .running ∨ p = .interrupted) :
      Step ⟨.running, false⟩ (.react event) (some f) ⟨p, true⟩
  | reactInTransition {event} :
      Step ⟨.interrupted, false⟩ (.react event) (some .nullPointer) ⟨.crashed, true⟩
  | hookThrows {event} :
      Step ⟨.interrupted, false⟩ (.react event) (some .thrown) ⟨.interrupted, true⟩

/-- The calls of a life, with their outcomes. -/
inductive Path {σ ε ι : Type} : Life → List (Request σ ε ι × Option Failure) → Life → Prop
  | nil {l} : Path l [] l
  | cons {l l₁ l₂ request outcome rest} (h : Step l request outcome l₁) (hrest : Path l₁ rest l₂) :
      Path l ((request, outcome) :: rest) l₂

section

variable {σ ε ι : Type} {l l' : Life} {request : Request σ ε ι} {outcome : Option Failure}

@[simp]
theorem initialise_dead (l : Life) : l.initialise.dead = l.dead := by
  unfold initialise
  split <;> rfl

theorem initialise_ne_crashed (h : l.phase ≠ .crashed) : l.initialise.phase ≠ .crashed := by
  unfold initialise
  split
  · exact Phase.noConfusion
  · exact h

/-- **Death is for ever**, and its only cause is a `React` that is accepted and fails. -/
theorem Step.dead_iff (h : Step l request outcome l') :
    l'.dead = true ↔
      l.dead = true ∨ (∃ event, request = .react event) ∧ outcome.isSome ∧ l.Accepts := by
  cases h with
  | refused hnot => simp [hnot]
  | _ => simp [Accepts]

/-- A life goes on after a call that comes back. -/
theorem Step.alive (h : Step l request outcome l') (halive : l.phase ≠ .crashed)
    (hback : outcome.any Failure.isFatal = false) : l'.phase ≠ .crashed := by
  cases h with
  | init => exact initialise_ne_crashed halive
  | startNull => cases hback
  | reactInTransition => cases hback
  | reactFails _ hp =>
    rcases hp with rfl | rfl
    · exact Phase.noConfusion
    · exact Phase.noConfusion
  | _ => first | exact halive | exact Phase.noConfusion

end

end Life

namespace Fsm

variable {σ ε α ι ω : Type} (P : Fsm σ ε α ι ω)

/-! ### The machine at a point of its life -/

/-- A machine after its construction. -/
def constructed (w : ω) : Sys σ ε α ι ω := ⟨{}, w, []⟩

/-- What a phase says about the machine. -/
def InPhase (dead : Bool) (g : Core σ ι) : Phase → Prop
  | .constructed => g.impl = none ∧ g.currentState = none
  | .initialised => g.impl.isSome ∧ g.currentState = none
  | .running => g.impl.isSome ∧ (∃ c, g.currentState = some (.user c)) ∧
      (dead = false → P.chart.GoodMemory g.initial)
  | .interrupted => g.impl.isSome ∧ g.currentState = some .kInTransition
  | .crashed => True

/-- The machine is at this point of its life. -/
structure At (l : Life) (S : Sys σ ε α ι ω) : Prop where
  working : S.core.working = l.dead
  phase : P.InPhase l.dead S.core l.phase

variable {P} {l : Life} {S : Sys σ ε α ι ω}

theorem constructed_at (w : ω) : P.At {} (constructed w) := ⟨rfl, rfl, rfl⟩

theorem At.impl (h : P.At l S) (hinit : l.phase ≠ .constructed) (halive : l.phase ≠ .crashed) :
    S.core.impl.isSome := by
  have hphase := h.phase
  cases hl : l.phase with
  | constructed => exact absurd hl hinit
  | crashed => exact absurd hl halive
  | _ =>
    rw [hl] at hphase
    exact hphase.1

/-- A running machine that is not dead is idle. -/
theorem At.idle (h : P.At l S) (hrunning : l.phase = .running) (hdead : l.dead = false) :
    ∃ c, P.Idle S c := by
  have hphase := h.phase
  rw [hrunning] at hphase
  obtain ⟨himpl, ⟨c, hc⟩, hmemory⟩ := hphase
  exact ⟨c, ⟨himpl, h.working.trans hdead⟩, hc, hmemory hdead⟩

theorem Idle.at {c : σ} (h : P.Idle S c) : P.At ⟨.running, false⟩ S :=
  ⟨h.working, h.impl, ⟨c, h.current⟩, fun _ => h.memory⟩

/-- The assertions of `React` follow the life of the machine. -/
theorem At.accepts_iff (h : P.At l S) (halive : l.phase ≠ .crashed) :
    l.Accepts ↔ S.core.currentState.isSome ∧ S.core.working = false := by
  unfold Life.Accepts
  rw [h.working]
  refine and_congr_left fun _ => ?_
  have hphase := h.phase
  cases hl : l.phase with
  | crashed => exact absurd hl halive
  | running =>
    rw [hl] at hphase
    obtain ⟨-, ⟨c, hc⟩, -⟩ := hphase
    simp [hc]
  | _ =>
    rw [hl] at hphase
    simp [hphase.2]

theorem At.refused (h : P.At l S) (halive : l.phase ≠ .crashed) (hnot : ¬ l.Accepts) :
    S.core.currentState = none ∨ S.core.working = true := by
  rw [h.accepts_iff halive, not_and_or] at hnot
  exact hnot.imp (by simp) (by simp)

/-! ### Sessions -/

variable [DecidableEq σ] [Fintype σ] [Inhabited ε]

variable (P) in
/-- What a request runs. -/
def serve : Request σ ε ι → M σ ε α ι ω Unit
  | .init impl => Fsm.init impl
  | .start initial => P.start (initial.map .user)
  | .react event => P.react event

/-- A call that was made: the machine before it, the request and how it ended. -/
structure Served (σ ε α ι ω : Type) where
  before : Sys σ ε α ι ω
  request : Request σ ε ι
  outcome : Option Failure

/-- A `React` that gets past the assertions and fails. -/
def Served.Kills (call : Served σ ε α ι ω) : Prop :=
  (∃ event, call.request = .react event) ∧ call.outcome.isSome ∧
    call.before.core.currentState.isSome ∧ call.before.core.working = false

variable (P) in
/-- The calls of a session that are served. -/
def transcript : List (Request σ ε ι) → Sys σ ε α ι ω → List (Served σ ε α ι ω)
  | [], _ => []
  | request :: rest, S =>
    let result := P.serve request S
    ⟨S, request, failureOf result⟩ ::
      if (failureOf result).any Failure.isFatal then [] else transcript rest (stateOf result)

variable (P) in
/-- The machine after a session. -/
def session : List (Request σ ε ι) → Sys σ ε α ι ω → Sys σ ε α ι ω
  | [], S => S
  | request :: rest, S =>
    let result := P.serve request S
    if (failureOf result).any Failure.isFatal then stateOf result
    else session rest (stateOf result)

/-! ### One call -/

variable {l : Life} {S : Sys σ ε α ι ω}

omit [DecidableEq σ] [Fintype σ] [Inhabited ε] in
theorem init_step (h : P.At l S) (impl : Option ι) :
    ∃ l', l.Step (.init impl : Request σ ε ι) (failureOf ((init impl : M σ ε α ι ω Unit) S)) l' ∧
      P.At l' (stateOf ((init impl : M σ ε α ι ω Unit) S)) := by
  cases impl with
  | none => exact ⟨l, .initNull, h⟩
  | some i =>
    refine ⟨l.initialise, .init, ?_⟩
    have hphase := h.phase
    unfold Life.initialise
    cases hl : l.phase with
    | constructed =>
      rw [hl] at hphase
      exact ⟨h.working, rfl, hphase.2⟩
    | crashed =>
      rw [if_neg Phase.noConfusion]
      exact ⟨h.working, hl ▸ trivial⟩
    | _ =>
      rw [hl] at hphase
      rw [if_neg Phase.noConfusion]
      refine ⟨h.working, ?_⟩
      rw [hl]
      exact ⟨rfl, hphase.2⟩

theorem start_step (hP : P.chart.WellNested) (h : P.At l S) (halive : l.phase ≠ .crashed)
    (s : Option σ) :
    ∃ l', l.Step (.start s : Request σ ε ι) (failureOf (P.start (s.map .user) S)) l' ∧
      P.At l' (stateOf (P.start (s.map .user) S)) := by
  by_cases hinit : l.phase = .constructed
  · have hphase := h.phase
    rw [hinit] at hphase
    rw [start_refused hphase.1]
    exact ⟨l, .startEarly hinit, h⟩
  · have himpl := h.impl hinit halive
    rw [start_apply himpl]
    cases s with
    | none => exact ⟨_, .startNull hinit, h.working, trivial⟩
    | some s =>
      rw [Option.map_some]
      have hruns := start_runs hP S s
      cases hstart : P.enterStatesFromDownTo none (some (.user s)) default (cleared S) with
      | ok _ S' =>
        have hcore : S'.core = P.startCore S.core (.user s) := (hruns.of_ok hstart).2
        obtain ⟨u, hu⟩ := landing_user hP Chart.goodMemory_empty s
        refine ⟨{ l with phase := .running }, .start hinit, ?_, ?_, ⟨u, ?_⟩, fun _ => ?_⟩
        · simpa [stateOf, hcore, startCore] using h.working
        · simpa [stateOf, hcore, startCore] using himpl
        · simp [stateOf, hcore, startCore, hu]
        · simpa [stateOf, hcore, startCore] using Chart.goodMemory_empty
      | error f S' =>
        obtain ⟨⟨rfl, hagrees⟩, -⟩ := hruns.of_error hstart
        exact ⟨{ l with phase := .interrupted }, .startThrows hinit,
          hagrees.working.trans h.working, hagrees.impl ▸ himpl, hagrees.currentState⟩

omit [Inhabited ε] in
/-- A `React` of an idle machine stops where the machine was, or between two states. -/
theorem react_stops (hP : P.chart.WellNested) {c : σ} (hidle : P.Idle S c) {event : ε}
    {f : Failure} {S' : Sys σ ε α ι ω} (h : P.react event S = .error f S') :
    (f = .thrown ∨ f = .assertion) ∧ (busy S).core.Interrupted S'.core := by
  obtain ⟨asked, last, -, hruns⟩ := react_runs hP hidle event
  cases hanswer : P.answer event S with
  | none =>
    rw [hanswer] at hruns
    obtain ⟨⟨hf, hcore⟩, -⟩ := hruns.of_error h
    exact ⟨.inl hf, hcore ▸ ⟨.inl rfl, rfl, rfl⟩⟩
  | some response =>
    rw [hanswer] at hruns
    obtain ⟨⟨hf, hinterrupted⟩, -⟩ := hruns.of_error h
    exact ⟨hf.imp_right And.left, hinterrupted⟩

omit [Inhabited ε] in
theorem react_step (hP : P.chart.WellNested) (h : P.At l S) (halive : l.phase ≠ .crashed)
    (event : ε) :
    ∃ l', l.Step (.react event : Request σ ε ι) (failureOf (P.react event S)) l' ∧
      P.At l' (stateOf (P.react event S)) := by
  by_cases haccepts : l.Accepts
  · obtain ⟨hphase, hdead⟩ := haccepts
    obtain ⟨phase, dead⟩ := l
    obtain rfl : dead = false := hdead
    rcases hphase with hrunning | hinterrupted
    · obtain rfl : phase = .running := hrunning
      obtain ⟨c, hidle⟩ := h.idle rfl rfl
      cases hreact : P.react event S with
      | ok _ S' =>
        obtain ⟨c', hidle'⟩ := react_idle hP hidle hreact
        exact ⟨_, .react, hidle'.at⟩
      | error f S' =>
        obtain ⟨hf, hcurrent, hworking, himpl⟩ := react_stops hP hidle hreact
        have himpl' : S'.core.impl.isSome := himpl ▸ hidle.impl
        rcases hcurrent with hsame | hmoving
        · exact ⟨⟨.running, true⟩, .reactFails hf (.inl rfl), hworking, himpl',
            ⟨c, hsame.trans hidle.current⟩, Bool.noConfusion⟩
        · exact ⟨⟨.interrupted, true⟩, .reactFails hf (.inr rfl), hworking, himpl', hmoving⟩
    · obtain rfl : phase = .interrupted := hinterrupted
      have hruns := react_inTransition_runs (P := P) h.phase.2 h.working event
      cases hreact : P.react event S with
      | ok _ S' => exact (hruns.of_ok hreact).2.elim
      | error f S' =>
        obtain ⟨⟨hf, hcore⟩, -⟩ := hruns.of_error hreact
        rcases hf with rfl | ⟨-, rfl⟩
        · refine ⟨_, .reactInTransition, ?_, trivial⟩
          simp [stateOf, hcore, busy]
        · refine ⟨_, .hookThrows, ?_, ?_, ?_⟩
          · simp [stateOf, hcore, busy]
          · simpa [stateOf, hcore, busy] using h.phase.1
          · simpa [stateOf, hcore, busy] using h.phase.2
  · rw [react_refused (h.refused halive haccepts)]
    exact ⟨l, .refused haccepts, h⟩

/-- **Every call is a step of the life**, with an outcome the life allows. -/
theorem serve_step (hP : P.chart.WellNested) (h : P.At l S) (halive : l.phase ≠ .crashed)
    (request : Request σ ε ι) :
    ∃ l', l.Step request (failureOf (P.serve request S)) l' ∧
      P.At l' (stateOf (P.serve request S)) := by
  cases request with
  | init impl => exact init_step h impl
  | start s => exact start_step hP h halive s
  | react event => exact react_step hP h halive event

omit [DecidableEq σ] [Fintype σ] [Inhabited ε] in
theorem kills_iff (h : P.At l S) (halive : l.phase ≠ .crashed) (request : Request σ ε ι)
    (outcome : Option Failure) :
    (⟨S, request, outcome⟩ : Served σ ε α ι ω).Kills ↔
      (∃ event, request = .react event) ∧ outcome.isSome ∧ l.Accepts := by
  rw [h.accepts_iff halive]
  rfl

/-! ### Whole sessions -/

theorem session_path (hP : P.chart.WellNested) (requests : List (Request σ ε ι)) (h : P.At l S)
    (halive : l.phase ≠ .crashed) :
    ∃ l', Life.Path l ((P.transcript requests S).map fun call => (call.request, call.outcome)) l' ∧
      P.At l' (P.session requests S) := by
  induction requests generalizing l S with
  | nil => exact ⟨l, .nil, h⟩
  | cons request rest ih =>
    obtain ⟨l₁, hstep, hat⟩ := serve_step hP h halive request
    simp only [transcript, session]
    by_cases hback : (failureOf (P.serve request S)).any Failure.isFatal = true
    · simp only [if_pos hback]
      exact ⟨l₁, .cons hstep .nil, hat⟩
    · simp only [if_neg hback]
      obtain ⟨l₂, hpath, hat'⟩ := ih hat (hstep.alive halive (Bool.eq_false_iff.mpr hback))
      exact ⟨l₂, .cons hstep hpath, hat'⟩

theorem working_session_iff (hP : P.chart.WellNested) (requests : List (Request σ ε ι))
    (h : P.At l S) (halive : l.phase ≠ .crashed) :
    (P.session requests S).core.working = true ↔
      S.core.working = true ∨ ∃ call ∈ P.transcript requests S, call.Kills := by
  induction requests generalizing l S with
  | nil => simp [session, transcript]
  | cons request rest ih =>
    obtain ⟨l₁, hstep, hat⟩ := serve_step hP h halive request
    have hfirst : (stateOf (P.serve request S)).core.working = true ↔
        S.core.working = true ∨
          (⟨S, request, failureOf (P.serve request S)⟩ : Served σ ε α ι ω).Kills := by
      rw [hat.working, hstep.dead_iff, h.working, kills_iff h halive]
    simp only [transcript, session]
    by_cases hback : (failureOf (P.serve request S)).any Failure.isFatal = true
    · simp only [if_pos hback, List.mem_singleton, exists_eq_left, hfirst]
    · simp only [if_neg hback, List.mem_cons, exists_eq_or_imp, ← or_assoc, ← hfirst]
      exact ih hat (hstep.alive halive (Bool.eq_false_iff.mpr hback))

theorem working_of_mem_transcript (hP : P.chart.WellNested) {requests : List (Request σ ε ι)}
    (h : P.At l S) (halive : l.phase ≠ .crashed) (hbusy : S.core.working = true) :
    ∀ call ∈ P.transcript requests S, call.before.core.working = true := by
  induction requests generalizing l S with
  | nil => simp [transcript]
  | cons request rest ih =>
    obtain ⟨l₁, hstep, hat⟩ := serve_step hP h halive request
    have hbusy₁ : (stateOf (P.serve request S)).core.working = true := by
      rw [hat.working, hstep.dead_iff, ← h.working]
      exact .inl hbusy
    refine List.forall_mem_cons.mpr ⟨hbusy, ?_⟩
    split
    · simp
    · rename_i hback
      exact ih hat (hstep.alive halive (Bool.eq_false_iff.mpr hback)) hbusy₁

theorem refused_after_death (hP : P.chart.WellNested) (requests : List (Request σ ε ι))
    (h : P.At l S) (halive : l.phase ≠ .crashed) :
    (P.transcript requests S).Pairwise fun earlier later => earlier.Kills →
      ∀ event, P.react event later.before = .error .assertion later.before := by
  induction requests generalizing l S with
  | nil => exact .nil
  | cons request rest ih =>
    obtain ⟨l₁, hstep, hat⟩ := serve_step hP h halive request
    simp only [transcript]
    by_cases hback : (failureOf (P.serve request S)).any Failure.isFatal = true
    · rw [if_pos hback]
      exact List.pairwise_singleton _ _
    · rw [if_neg hback]
      have halive₁ := hstep.alive halive (Bool.eq_false_iff.mpr hback)
      refine .cons (fun later hlater hkills event => ?_) (ih hat halive₁)
      have hbusy : (stateOf (P.serve request S)).core.working = true := by
        rw [hat.working, hstep.dead_iff, ← kills_iff h halive]
        exact .inr hkills
      exact react_refused (.inr (working_of_mem_transcript hP hat halive₁ hbusy later hlater))

/-- **The life of a machine**, for every well-nested chart. Over every sequence of calls of `Init`,
`Start` and `React` on a machine that has just been constructed: the outcomes of the calls are
those of a path of the automaton, which leads to what the machine is in the end; the machine is
busy in the end if and only if some `React` was accepted and failed; and after such a `React`
every other one is refused without an effect, at whatever time it is called. -/
theorem session_life (hP : P.chart.WellNested) (requests : List (Request σ ε ι)) (w : ω) :
    (∃ l, Life.Path {} ((P.transcript requests (constructed w)).map
        fun call => (call.request, call.outcome)) l ∧
      P.At l (P.session requests (constructed w))) ∧
    ((P.session requests (constructed w)).core.working = true ↔
      ∃ call ∈ P.transcript requests (constructed w), call.Kills) ∧
    (P.transcript requests (constructed w)).Pairwise fun earlier later => earlier.Kills →
      ∀ event, P.react event later.before = .error .assertion later.before := by
  have hat : P.At {} (constructed w : Sys σ ε α ι ω) := constructed_at w
  have halive : ({} : Life).phase ≠ .crashed := Phase.noConfusion
  refine ⟨session_path hP requests hat halive, ?_, refused_after_death hP requests hat halive⟩
  have hiff := working_session_iff hP requests hat halive
  simpa [constructed] using hiff

theorem casting_wellNested : casting.chart.WellNested where
  acyclic := acyclic_of_measure (fun _ => 0) (by decide)
  initial_below x i h := by cases x <;> cases h

/-- An event of another class between two that would be handled: the outcomes are those of a path
to a dead machine, and the last event is refused. -/
theorem casting_life : ∃ l : Life,
    Life.Path {} [(.init (some ()), none), (.start (some ()), none), (.react true, none),
      (.react false, some .thrown), (.react true, some .assertion)] l ∧ l.dead = true ∧
    (casting.transcript [.init (some ()), .start (some ()), .react true, .react false,
      .react true] (constructed ())).Pairwise fun earlier later => earlier.Kills →
        ∀ event, casting.react event later.before = .error .assertion later.before := by
  obtain ⟨⟨l, hpath, hat⟩, -, hrefused⟩ := session_life casting_wellNested
    [.init (some ()), .start (some ()), .react true, .react false, .react true] ()
  exact ⟨l, hpath, hat.working.symm, hrefused⟩

end Fsm

end EventFramework.Statemachine
