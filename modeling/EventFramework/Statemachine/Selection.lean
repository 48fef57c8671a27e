import EventFramework.Statemachine.Walks

/-!
# Which transition an event selects

`ask` says, without the machine, what the user's handlers answer to an event: the states of a
chain are offered the event one after the other until one does not leave it unhandled. The
loop of `React` computes just that on the chain of the current state (`bubble_runs`), and the
transition it hands on is the one built from the answer (`Response.target_assign`,
`Response.actionList_assign`): copying transitions around loses neither target nor actions.
-/

namespace EventFramework.Statemachine

open TracedProgram PointerChain ParentForest

/-! ### Answers -/

namespace Response

variable {σ α : Type}

/-- The state an answer asks to go to. -/
def target? : Response σ α → Option σ
  | .transitionTo target | .transitionToAction target _ | .transitionToActions target _ =>
    some target
  | _ => none

/-- The actions an answer asks for. -/
def actions : Response σ α → List α
  | .noTransitionAction action | .transitionToAction _ action => action.toList
  | .noTransitionActions actions | .transitionToActions _ actions => actions
  | _ => []

/-- The target pointer of the transition an answer stands for. -/
def targetObj (response : Response σ α) : Option (StateObj σ) :=
  match response, response.target? with
  | _, some target => some (.user target)
  | .unhandledEvent, none => none
  | .deferEvent, none => some .kDeferEvent
  | _, none => some .kNone

theorem target_assign (response : Response σ α) :
    response.transition.assign.target = response.targetObj := by
  cases response <;> rfl

/-- The span survives the assignment, also when it points into the copied transition. -/
theorem actionList_assign (response : Response σ α) :
    response.transition.assign.actionList = response.actions := by
  cases response with
  | noTransitionAction action => cases action <;> rfl
  | transitionToAction target action => cases action <;> rfl
  | _ => rfl

end Response

namespace Call

variable {σ ε α : Type}

/-- Calls that ask for an answer. -/
def IsQuestion : Call σ ε α → Prop
  | .onHandleEvent _ _ | .handler _ _ => True
  | _ => False

/-- The user's entry, exit and transition actions among the calls. -/
def isAction : Call σ ε α → Bool
  | .exitAction _ _ _ | .action _ _ | .entryAction _ _ _ => true
  | _ => false

theorem IsQuestion.isAction {c : Call σ ε α} (h : c.IsQuestion) : c.isAction = false := by
  cases c <;> first | rfl | exact h.elim

end Call

namespace Fsm

variable {σ ε α ι ω : Type} (P : Fsm σ ε α ι ω)

/-- What a callback that may be null does to the world. -/
def hook (f : Option (Callback (Core σ ι) ω Unit)) : Callback (Core σ ι) ω Unit :=
  f.getD fun _ => pure ()

/-- What the callback for handled events and the handler of one state do. -/
def askState (event : ε) (s : σ) : Callback (Core σ ι) ω (Response σ α) := fun core => do
  hook (P.onHandleEvent.map fun f => f (.user s) event) core
  P.handler s event core

/-- The first answer other than `UnhandledEvent` along a chain of states. -/
def ask (event : ε) : List (StateObj σ) → Callback (Core σ ι) ω (Response σ α)
  | [], _ => pure .unhandledEvent
  | .user s :: chain, core => do
    match ← P.askState event s core with
    | .unhandledEvent => ask event chain core
    | response => pure response
  | _ :: chain, core => ask event chain core

variable {P} {S : Sys σ ε α ι ω} {event : ε}

theorem ask_cons (s : σ) (chain : List (StateObj σ)) (core : Core σ ι) (w : ω) :
    P.ask event (.user s :: chain) core w = match P.askState event s core w with
      | .ok .unhandledEvent w => P.ask event chain core w
      | .ok response w => .ok response w
      | .error e w => .error e w := by
  simp only [ask, bind, EStateM.bind]
  cases P.askState event s core w with
  | error e w => rfl
  | ok response w => cases response <;> rfl

/-- The effect of an optional callback, without the trace. -/
theorem callIfSet_apply (c : Call σ ε α) (f : Option (Callback (Core σ ι) ω Unit)) :
    callIfSet c f S = match hook f S.core S.world with
      | .ok _ w => .ok () { S with world := w, trace := S.trace ++ callsIf f.isSome c }
      | .error _ w =>
        .error .thrown { S with world := w, trace := S.trace ++ callsIf f.isSome c } := by
  cases f with
  | none =>
    have hempty : S.trace ++ callsIf false c = S.trace := List.append_nil _
    simp only [callIfSet, hook, Option.getD_none, Option.isSome_none, hempty]
    rfl
  | some f =>
    simp only [callIfSet, call, hook, Option.getD_some, Option.isSome_some, callsIf, if_true]
    cases f S.core S.world <;> rfl

/-- The effect of calling a handler. -/
theorem callHandler_apply (s : σ) (event : ε) :
    P.callHandler (.user s) event S = match P.handler s event S.core S.world with
      | .ok response w =>
        .ok response.transition.assign { S with world := w, trace := S.trace ++ [.handler s event] }
      | .error _ w =>
        .error .thrown { S with world := w, trace := S.trace ++ [.handler s event] } := by
  simp only [callHandler]
  rw [bind_apply]
  unfold call
  cases P.handler s event S.core S.world <;> rfl

variable (P) in
/-- The calls of offering the event to one state. -/
def offerCalls (event : ε) (s : σ) : List (Call σ ε α) :=
  callsIf P.onHandleEvent.isSome (.onHandleEvent (.user s) event) ++ [.handler s event]

theorem isQuestion_of_mem_offerCalls {asked : List σ} :
    ∀ c ∈ asked.flatMap (P.offerCalls event), c.IsQuestion := by
  intro c hc
  obtain ⟨s, -, hc⟩ := List.mem_flatMap.mp hc
  rcases List.mem_append.mp hc with hc | hc
  · rw [eq_of_mem_callsIf hc]
    trivial
  · rw [List.mem_singleton.mp hc]
    trivial

variable (P) in
/-- Offered to the states of a chain in turn, an event is passed on by those that leave it
unhandled and stops at the first other answer: from the world `w` on, the states `asked` are
offered the event, the last of them answers `response` (or all leave it unhandled), and the
world ends as the last argument. -/
inductive Selects (event : ε) (core : Core σ ι) :
    List (StateObj σ) → ω → List σ → Response σ α → ω → Prop
  | unhandled {w : ω} : Selects event core [] w [] .unhandledEvent w
  | pass {s : σ} {chain : List (StateObj σ)} {w w₁ w₂ : ω} {asked : List σ}
      {response : Response σ α} (h : P.askState event s core w = .ok .unhandledEvent w₁)
      (rest : Selects event core chain w₁ asked response w₂) :
      Selects event core (.user s :: chain) w (s :: asked) response w₂
  | answer {s : σ} {chain : List (StateObj σ)} {w w₁ : ω} {response : Response σ α}
      (h : P.askState event s core w = .ok response w₁) (hne : response ≠ .unhandledEvent) :
      Selects event core (.user s :: chain) w [s] response w₁

/-- One round of the loop, up to the answer of the state. -/
theorem askState_runs {A : Type} (s : σ) (event : ε) :
    match P.askState event s S.core S.world with
      | .ok response w => ∀ {k : Transition σ α → M σ ε α ι ω A} {L Q E},
        Runs (k response.transition.assign)
          { S with world := w, trace := S.trace ++ P.offerCalls event s } L Q E →
        Runs (do
          callIfSet (.onHandleEvent (.user s) event)
            (P.onHandleEvent.map fun f => f (.user s) event)
          k (← P.callHandler (.user s) event)) S (P.offerCalls event s ++ L) Q E
      | .error _ _ => ∀ {k : Transition σ α → M σ ε α ι ω A} {L Q E}, E .thrown S.core →
        Runs (do
          callIfSet (.onHandleEvent (.user s) event)
            (P.onHandleEvent.map fun f => f (.user s) event)
          k (← P.callHandler (.user s) event)) S (P.offerCalls event s ++ L) Q E := by
  have hhook := callIfSet_apply (S := S) (.onHandleEvent (.user s) event)
    (P.onHandleEvent.map fun f => f (.user s) event)
  rw [Option.isSome_map] at hhook
  simp only [askState, bind, EStateM.bind, offerCalls]
  cases hh : hook (P.onHandleEvent.map fun f => f (.user s) event) S.core S.world with
  | error e w =>
    rw [hh] at hhook
    intro k L Q E hE
    refine Runs.bind_error hhook ?_ rfl hE
    rw [List.append_assoc]
    exact List.prefix_append _ _
  | ok _ w =>
    rw [hh] at hhook
    have hhandler := P.callHandler_apply s event (S := { S with
      world := w
      trace := S.trace ++ callsIf P.onHandleEvent.isSome (.onHandleEvent (.user s) event) })
    simp only
    cases hr : P.handler s event S.core w with
    | error e w₂ =>
      simp only [hr] at hhandler
      intro k L Q E hE
      rw [List.append_assoc]
      exact Runs.bind_ok hhook rfl (Runs.bind_error hhandler (List.prefix_append _ _) rfl hE)
    | ok response w₂ =>
      simp only [hr] at hhandler
      intro k L Q E hk
      rw [← List.append_assoc] at hk
      rw [List.append_assoc]
      exact Runs.bind_ok hhook rfl (Runs.bind_ok hhandler rfl hk)

/-- The call of the deferral callback, when the answer is to defer. -/
def deferCalls (event : ε) (s : StateObj σ) : Response σ α → List (Call σ ε α)
  | .deferEvent => [.onDeferEvent s event]
  | _ => []

/-- What the loop leaves for an answer: nothing after a deferral, else the transition. -/
def Leaves (response : Response σ α) (left : Option (Transition σ α)) : Prop :=
  match response with
  | .deferEvent => left = none
  | _ => left = some response.transition.assign

theorem deferCalls_of_ne {response : Response σ α} (h : response ≠ .deferEvent)
    (s : StateObj σ) : deferCalls event s response = [] := by
  cases response <;> first | rfl | exact absurd rfl h

theorem Leaves.eq_some {response : Response σ α} {left : Option (Transition σ α)}
    (h : Leaves response left) (hne : response ≠ .deferEvent) :
    left = some response.transition.assign := by
  cases response <;> first | exact h | exact absurd rfl hne

variable (P) in
/-- Failures of the loop: a callback throws, or an event is deferred with no callback for
it. -/
def SelectionFails (response : Response σ α) (f : Failure) : Prop :=
  f = .thrown ∨ f = .assertion ∧ response = .deferEvent ∧ P.onDeferEvent = none

/-! ### The loop -/

section Rounds

variable {n : ℕ} {u : σ} {w : ω} {response : Response σ α}

/-- A state whose handler, or the callback before it, throws. -/
theorem bubble_throws {e : Unit} (h : P.askState event u S.core S.world = .error e w) :
    Runs (P.bubble event (n + 1) (.user u)) S (P.offerCalls event u) (fun _ _ => False)
      (fun f g => f = .thrown ∧ g = S.core) := by
  have hround := askState_runs (P := P) (S := S) (A := Option (Transition σ α)) u event
  rw [h] at hround
  unfold bubble
  rw [← List.append_nil (P.offerCalls event u)]
  exact hround ⟨rfl, rfl⟩

/-- A state that answers ends the loop. -/
theorem bubble_answers (h : P.askState event u S.core S.world = .ok response w)
    (hne : response ≠ .unhandledEvent) :
    Runs (P.bubble event (n + 1) (.user u)) S
      (P.offerCalls event u ++ deferCalls event (.user u) response)
      (fun left g => Leaves response left ∧ g = S.core)
      (fun f g => P.SelectionFails response f ∧ g = S.core) := by
  have hround := askState_runs (P := P) (S := S) (A := Option (Transition σ α)) u event
  rw [h] at hround
  unfold bubble
  cases response with
  | unhandledEvent => exact absurd rfl hne
  | deferEvent =>
    refine hround ?_
    simp only [Response.target_assign, Response.targetObj, Response.target?, deferCalls]
    cases hdefer : P.onDeferEvent with
    | none => exact ⟨⟨.inr ⟨rfl, rfl, hdefer⟩, rfl⟩, [], List.nil_prefix, by simp⟩
    | some f =>
      rw [← List.append_nil [_]]
      exact Runs.bind ((Quiet.call _ _).runs ⟨.inl rfl, rfl⟩) fun _ _ _ hcore =>
        Runs.pure ⟨rfl, hcore⟩
  | _ => exact hround (Runs.pure ⟨rfl, rfl⟩)

/-- A root that leaves the event unhandled ends the loop. -/
theorem bubble_unhandled (h : P.askState event u S.core S.world = .ok .unhandledEvent w)
    (hparent : P.parent (.user u) = none) {E : Failure → Core σ ι → Prop} :
    Runs (P.bubble event (n + 1) (.user u)) S (P.offerCalls event u)
      (fun left g => Leaves (.unhandledEvent : Response σ α) left ∧ g = S.core) E := by
  have hround := askState_runs (P := P) (S := S) (A := Option (Transition σ α)) u event
  rw [h] at hround
  unfold bubble
  rw [hparent, ← List.append_nil (P.offerCalls event u)]
  refine hround ?_
  simp only [Response.target_assign, Response.targetObj, Response.target?]
  exact Runs.pure ⟨rfl, rfl⟩

/-- After a state that leaves the event unhandled, the loop goes on with the parent. -/
theorem bubble_passes (h : P.askState event u S.core S.world = .ok .unhandledEvent w)
    {parent : StateObj σ} (hparent : P.parent (.user u) = some parent) {L : List (Call σ ε α)}
    {Q : Option (Transition σ α) → Core σ ι → Prop} {E : Failure → Core σ ι → Prop}
    (hrest : Runs (P.bubble event n parent)
      { S with world := w, trace := S.trace ++ P.offerCalls event u } L Q E) :
    Runs (P.bubble event (n + 1) (.user u)) S (P.offerCalls event u ++ L) Q E := by
  have hround := askState_runs (P := P) (S := S) (A := Option (Transition σ α)) u event
  rw [h] at hround
  unfold bubble
  rw [hparent]
  refine hround ?_
  simp only [Response.target_assign, Response.targetObj, Response.target?]
  exact hrest

end Rounds

/-- **Selection.** On a chain of user states the loop of `React` asks as `ask` does: it offers
the event to the states of the chain up to the first answer other than `UnhandledEvent`, and
when the answer is to defer it calls the callback for the state that answered. -/
theorem bubble_runs (event : ε) {chain : List (StateObj σ)} :
    ∀ {n s} {S : Sys σ ε α ι ω}, Seg P.parent (some s) none chain → chain.length < n →
      (∀ x ∈ chain, ∃ u, x = .user u) →
      ∃ asked last, asked.map .user <+: chain ∧
        match P.ask event chain S.core S.world with
        | .ok response w =>
          P.Selects event S.core chain S.world asked response w ∧ asked.getLast? = some last ∧
          Runs (P.bubble event n s) S
            (asked.flatMap (P.offerCalls event) ++ deferCalls event (.user last) response)
            (fun left g => Leaves response left ∧ g = S.core)
            (fun f g => P.SelectionFails response f ∧ g = S.core)
        | .error _ _ =>
          Runs (P.bubble event n s) S (asked.flatMap (P.offerCalls event)) (fun _ _ => False)
            (fun f g => f = .thrown ∧ g = S.core) := by
  induction chain with
  | nil => exact fun hseg _ _ => nomatch Seg.nil_iff.mp hseg
  | cons x chain ih =>
    intro n s S hseg hn huser
    obtain ⟨hx, hchain⟩ := Seg.cons_iff.mp hseg
    obtain rfl := Option.some.inj hx
    obtain ⟨⟨u, rfl⟩, husers⟩ := List.forall_mem_cons.mp huser
    obtain ⟨n, rfl⟩ := Nat.exists_eq_succ_of_ne_zero (Nat.ne_zero_of_lt hn)
    have hself : [u].map .user <+: StateObj.user u :: chain := by simp
    have hcalls : [u].flatMap (P.offerCalls event) = P.offerCalls event u :=
      List.flatMap_singleton _ _
    rw [ask_cons]
    cases hanswer : P.askState event u S.core S.world with
    | error e w => exact ⟨[u], u, hself, by rw [hcalls]; exact bubble_throws hanswer⟩
    | ok response w =>
      by_cases hne : response = .unhandledEvent
      · subst hne
        cases hp : P.parent (.user u) with
        | none =>
          rw [hp] at hchain
          obtain rfl := hchain.eq_nil_of_none.1
          refine ⟨[u], u, hself, .pass hanswer .unhandled, rfl, ?_⟩
          rw [hcalls]
          exact (List.append_nil (P.offerCalls event u)).symm ▸ bubble_unhandled hanswer hp
        | some p =>
          rw [hp] at hchain
          obtain ⟨asked, last, hpre, hrest⟩ := ih (n := n)
            (S := { S with world := w, trace := S.trace ++ P.offerCalls event u }) hchain
            (Nat.lt_of_succ_lt_succ hn) husers
          refine ⟨u :: asked, last, List.cons_prefix_cons.mpr ⟨rfl, hpre⟩, ?_⟩
          rw [List.flatMap_cons]
          simp only at hrest ⊢
          cases hask : P.ask event chain S.core w with
          | error e w' =>
            rw [hask] at hrest
            exact bubble_passes hanswer hp hrest
          | ok response w' =>
            rw [hask] at hrest
            obtain ⟨hselects, hlast, hrest⟩ := hrest
            refine ⟨.pass hanswer hselects, by simp [List.getLast?_cons, hlast], ?_⟩
            rw [List.append_assoc]
            exact bubble_passes hanswer hp hrest
      · have hanswers := bubble_answers (n := n) hanswer hne
        cases response with
        | unhandledEvent => exact absurd rfl hne
        | _ =>
          refine ⟨[u], u, hself, .answer hanswer hne, rfl, ?_⟩
          rw [hcalls]
          exact hanswers

end Fsm

end EventFramework.Statemachine
