import EventFramework.Statemachine.Effects
import Mathlib.Data.Fintype.Pi
import Mathlib.Data.Fintype.Sum
import Mathlib.Data.Fintype.Prod

/-!
# Hierarchy is notation

A machine with nested states, history and bubbling is an ordinary flat machine written down
briefly. `P.flatten` is that machine, run by the same code: its states have no parents, no
initial states, no history and no exit actions.

A state of the flat machine is a state of the chart together with a history map. Its handler
is the handlers of the state and of those above it put together, and the actions of its
transitions are all the calls of the original transition. A further state for each place where
`Start` can begin has the calls of that `Start` as its entry actions.

The two machines cannot be told apart (`session_flatten`): over every sequence of `Init`, `Start`
and `React` calls, with callbacks that may throw at any point, all calls have the same outcome
and find the same world, and the flat machine is in the state that stands for the original one.
-/

namespace EventFramework.Statemachine

open TracedProgram PointerChain ParentForest StateHierarchy

/-- The states of the flat machine. -/
inductive FlatState (σ : Type)
  /-- where `Start` begins -/
  | entrance (s : σ)
  /-- a state of the chart with a history map -/
  | config (s : σ) (memory : StateObj σ → Option (StateObj σ))

namespace FlatState

variable {σ : Type}

def equiv : FlatState σ ≃ σ ⊕ σ × (StateObj σ → Option (StateObj σ)) where
  toFun
    | .entrance s => .inl s
    | .config s memory => .inr (s, memory)
  invFun
    | .inl s => .entrance s
    | .inr (s, memory) => .config s memory
  left_inv x := by cases x <;> rfl
  right_inv x := by cases x <;> rfl

instance [DecidableEq σ] [Fintype σ] : DecidableEq (FlatState σ) := equiv.decidableEq

instance [DecidableEq σ] [Fintype σ] : Fintype (FlatState σ) := Fintype.ofEquiv _ equiv.symm

/-- The history map a state stands for. -/
def memory : FlatState σ → StateObj σ → Option (StateObj σ)
  | .entrance _ => fun _ => none
  | .config _ memory => memory

end FlatState

/-- A renaming of the user's states. -/
def StateObj.map {σ τ : Type} (f : σ → τ) : StateObj σ → StateObj τ
  | .kInTransition => .kInTransition
  | .kNone => .kNone
  | .kDeferEvent => .kDeferEvent
  | .user s => .user (f s)

/-- A call to the flat machine. -/
def Request.flatten {σ ε ι : Type} : Request σ ε ι → Request (FlatState σ) ε ι
  | .init impl => .init impl
  | .start initial => .start (initial.map .entrance)
  | .react event => .react event

namespace Fsm

variable {σ ε α ι ω : Type} [DecidableEq σ] [Fintype σ] (P : Fsm σ ε α ι ω)

/-! ### The flat machine -/

/-- The user state in which a descent ends. -/
def settle (h : StateObj σ → Option (StateObj σ)) (t : σ) : σ :=
  match P.chart.landing h (.user t) with
  | .user u => u
  | _ => t

/-- The state of the chart that a flat state stands for. -/
def original : FlatState σ → σ
  | .entrance s => P.settle (fun _ => none) s
  | .config s _ => s

/-- The machine the callbacks of the original machine look at. -/
def originalCore (g : Core (FlatState σ) ι) : Core σ ι where
  currentState := g.currentState.map (StateObj.map P.original)
  working := g.working
  impl := g.impl

/-- The answer of a state, or else of the states above it, and the state that gave it. -/
def answerFrom (event : ε) (s : σ) : Callback (Core σ ι) ω (σ × Response σ α) := fun core => do
  match ← P.handler s event core with
  | .unhandledEvent => P.offer event s (ancestors P.parent (.user s)).tail core
  | response => pure (s, response)

/-- The answer of the flat machine in the state `x`: all calls of the original machine become
actions. -/
def flatResponse (event : ε) (x : FlatState σ) (answer : σ × Response σ α) :
    Response (FlatState σ) (Call σ ε α) :=
  let s : StateObj σ := .user (P.original x)
  let calls := deferCalls event (.user answer.1) answer.2 ++
    P.dispatchCalls x.memory s event answer.2
  match answer.2, answer.2.target? with
  | _, some t =>
    let memory := P.chart.recordExits x.memory s (.user t)
    .transitionToActions (.config (P.settle memory t) memory) calls
  | .unhandledEvent, none => .unhandledEvent
  | .deferEvent, none => if P.onDeferEvent.isSome then .noTransitionActions calls else .deferEvent
  | _, none => .noTransitionActions calls

/-- The flat machine. -/
def flatten [Inhabited ε] : Fsm (FlatState σ) ε (Call σ ε α) ι ω where
  state
    | .entrance s => { onEntry := P.startCalls default (.user s) }
    | .config _ _ => {}
  handler x event g :=
    P.flatResponse event x <$> P.answerFrom event (P.original x) (P.originalCore g)
  action call _ g := P.perform (P.originalCore g) call
  onHandleEvent := P.onHandleEvent.map fun f x event g =>
    f (x.map P.original) event (P.originalCore g)
  onUnhandledEvent := P.onUnhandledEvent.map fun f x event g =>
    f (x.map P.original) event (P.originalCore g)

variable {P}

theorem landing_eq_settle (hP : P.chart.WellNested) {h : StateObj σ → Option (StateObj σ)}
    (hgood : P.chart.GoodMemory h) (t : σ) :
    P.chart.landing h (.user t) = .user (P.settle h t) := by
  obtain ⟨u, hu⟩ := landing_user hP hgood t
  rw [settle, hu]

theorem originalCore_agrees {g g' : Core (FlatState σ) ι} (h : g.Agrees g') :
    P.originalCore g = P.originalCore g' := by
  simp only [originalCore, h.currentState, h.working, h.impl]

section Flat

variable [Inhabited ε]

theorem flatten_parent (x : StateObj (FlatState σ)) : P.flatten.parent x = none := by
  cases x with
  | user x => cases x <;> rfl
  | _ => rfl

theorem flatten_initial (x : StateObj (FlatState σ)) : P.flatten.initial x = none := by
  cases x with
  | user x => cases x <;> rfl
  | _ => rfl

theorem flatten_acyclic : Acyclic P.flatten.parent :=
  acyclic_of_measure (fun _ => 0) fun x y hy => by
    rw [flatten_parent] at hy
    cases hy

theorem flatten_wellNested : P.flatten.chart.WellNested where
  acyclic := flatten_acyclic
  initial_below x i hi := by
    have hnone : P.flatten.chart.initial x = none := P.flatten_initial x
    rw [hnone] at hi
    cases hi

theorem flatten_ancestors (x : StateObj (FlatState σ)) : ancestors P.flatten.parent x = [x] :=
  ancestors_eq_singleton flatten_acyclic (P.flatten_parent x)

theorem flatten_descent (h : StateObj (FlatState σ) → Option (StateObj (FlatState σ)))
    (x : StateObj (FlatState σ)) : P.flatten.chart.descent h x = [] := by
  have hflags : P.flatten.flags x = .kNone := by
    cases x with
    | user x => cases x <;> rfl
    | _ => rfl
  have hhistory : P.flatten.isHistory x = false := by
    rw [isHistory, hflags]
    decide
  have hresolve : P.flatten.chart.resolve h x = none :=
    (Chart.resolve_of_not_hasHistory hhistory).trans (P.flatten_initial x)
  rw [Chart.descent, hresolve]
  cases Fintype.card (StateObj (FlatState σ)) <;> rfl

theorem flatten_landing (h : StateObj (FlatState σ) → Option (StateObj (FlatState σ)))
    (x : StateObj (FlatState σ)) : P.flatten.chart.landing h x = x := by
  rw [Chart.landing, flatten_descent, List.getLastD_nil]

/-- The callbacks of the flat machine only see what stands for the original machine. -/
theorem flatten_historyIsPrivate : P.flatten.HistoryIsPrivate where
  handler x event g g' h := by
    funext w
    simp only [flatten, P.originalCore_agrees h]
  action call event g g' h := by simp only [flatten, originalCore_agrees h]
  onStateChange f hf := nomatch hf
  onStateEntry f hf := nomatch hf
  onStateExit f hf := nomatch hf
  onHandleEvent f hf x event g g' h := by
    obtain ⟨k, -, rfl⟩ := Option.map_eq_some_iff.mp hf
    simp only [originalCore_agrees h]
  onUnhandledEvent f hf x event g g' h := by
    obtain ⟨k, -, rfl⟩ := Option.map_eq_some_iff.mp hf
    simp only [originalCore_agrees h]
  onDeferEvent f hf := nomatch hf

/-! ### Answers -/

variable (hP : P.chart.WellNested) (event : ε) (x : FlatState σ) (g : Core (FlatState σ) ι)

omit [Inhabited ε] in
/-- The answers of the states above are the answer of the state itself, put together. -/
theorem offer_ancestors (hac : Acyclic P.parent) (last s : σ) (core : Core σ ι) (w : ω) :
    P.offer event last (ancestors P.parent (.user s)) core w =
      match hook (P.onHandleEvent.map fun f => f (.user s) event) core w with
      | .ok _ w => P.answerFrom event s core w
      | .error e w => .error e w := by
  rw [ancestors_eq_cons hac, offer_cons]
  simp only [askState, answerFrom, bind, EStateM.bind]
  cases hook (P.onHandleEvent.map fun f => f (.user s) event) core w with
  | error e w => rfl
  | ok _ w =>
    rw [ancestors_eq_cons hac, List.tail_cons]
    simp only
    cases P.handler s event core w with
    | error e w => rfl
    | ok response w => cases response <;> rfl

include hP in
/-- The flat machine gives the answer of the original one. -/
theorem flatten_askState (w : ω) :
    P.flatten.askState event x g w =
      match P.offer event (P.original x) (ancestors P.parent (.user (P.original x)))
        (P.originalCore g) w with
      | .ok answer w => .ok (P.flatResponse event x answer) w
      | .error e w => .error e w := by
  have hhook : hook (P.flatten.onHandleEvent.map fun f => f (.user x) event) g =
      hook (P.onHandleEvent.map fun f => f (.user (P.original x)) event) (P.originalCore g) := by
    rw [flatten, Option.map_map]
    cases P.onHandleEvent <;> rfl
  rw [offer_ancestors event hP.acyclic]
  simp only [askState, bind, EStateM.bind, hhook]
  cases hook (P.onHandleEvent.map fun f => f (.user (P.original x)) event) (P.originalCore g) w with
  | error e w => rfl
  | ok _ w =>
    simp only [flatten, Functor.map, EStateM.map]
    cases P.answerFrom event (P.original x) (P.originalCore g) w <;> rfl

theorem flatten_offer (w : ω) :
    P.flatten.offer event x (ancestors P.flatten.parent (.user x)) g w =
      match P.flatten.askState event x g w with
      | .ok response w => .ok (x, response) w
      | .error e w => .error e w := by
  rw [flatten_ancestors, offer_cons]
  cases P.flatten.askState event x g w with
  | error e w => rfl
  | ok response w => cases response <;> rfl

/-! ### Calls -/

omit hP in
theorem flatten_exit_idle (y : StateObj (FlatState σ)) :
    ∀ call ∈ P.flatten.exitCalls event y, P.flatten.perform g call = pure () := by
  have hexit : P.flatten.onExit y = [] := by
    cases y with
    | user y => cases y <;> rfl
    | _ => rfl
  have hcalls : P.flatten.exitCalls event y = [.exitState y] := by
    rw [exitCalls, hexit]
    rfl
  rw [hcalls, List.forall_mem_singleton]
  rfl

theorem flatten_entry_idle (s : σ) (memory : StateObj σ → Option (StateObj σ)) :
    ∀ call ∈ P.flatten.entryCalls event (.user (.config s memory)),
      P.flatten.perform g call = pure () := by
  have hcalls : P.flatten.entryCalls event (.user (.config s memory)) =
    [.enterState (.user (.config s memory))] := rfl
  rw [hcalls, List.forall_mem_singleton]
  rfl

theorem replay_actions (calls : List (Call σ ε α)) (w : ω) :
    replay (P.flatten.perform g) (calls.map fun call => .action call event) w =
      replay (P.perform (P.originalCore g)) calls w :=
  replay_map fun _ => rfl

/-- A transition of the flat machine does what its actions do. -/
theorem replay_transitionCalls (h : StateObj (FlatState σ) → Option (StateObj (FlatState σ)))
    (c : StateObj (FlatState σ)) (s : σ) (memory : StateObj σ → Option (StateObj σ))
    (calls : List (Call σ ε α)) (w : ω) :
    replay (P.flatten.perform g)
        (P.flatten.transitionCalls h c (.user (.config s memory)) calls event) w =
      replay (P.perform (P.originalCore g)) calls w := by
  have hexit : ∀ call ∈ (P.flatten.chart.exitPath c (.user (.config s memory))).flatMap
      (P.flatten.exitCalls event), P.flatten.perform g call = pure () := by
    intro call hcall
    obtain ⟨y, -, hcall⟩ := List.mem_flatMap.mp hcall
    exact flatten_exit_idle event g y call hcall
  have hentry : ∀ call ∈ (P.flatten.chart.entryPath c (.user (.config s memory)) ++
      P.flatten.chart.descent (P.flatten.chart.recordExits h c (.user (.config s memory)))
        (.user (.config s memory))).flatMap (P.flatten.entryCalls event),
      P.flatten.perform g call = pure () := by
    intro call hcall
    obtain ⟨y, hy, hcall⟩ := List.mem_flatMap.mp hcall
    rw [flatten_descent, List.append_nil] at hy
    have hmem := Chart.entryPath_subset flatten_acyclic hy
    rw [chart_parent, flatten_ancestors, List.mem_singleton] at hmem
    subst hmem
    exact flatten_entry_idle event g s memory call hcall
  have hcalls : P.flatten.transitionCalls h c (.user (.config s memory)) calls event =
      (P.flatten.chart.exitPath c (.user (.config s memory))).flatMap (P.flatten.exitCalls event) ++
        (calls.map (fun call => .action call event) ++
          (P.flatten.chart.entryPath c (.user (.config s memory)) ++
            P.flatten.chart.descent (P.flatten.chart.recordExits h c (.user (.config s memory)))
              (.user (.config s memory))).flatMap (P.flatten.entryCalls event)) := rfl
  rw [hcalls, replay_idle_append hexit, replay_append_idle hentry, replay_actions]

/-- The flat machine enters its first state with all calls of the original `Start`. -/
theorem replay_startCalls (s : σ) (w : ω) :
    replay (P.flatten.perform g) (P.flatten.startCalls default (.user (.entrance s))) w =
      replay (P.perform (P.originalCore g)) (P.startCalls default (.user s)) w := by
  have hentry : P.flatten.entryCalls default (.user (.entrance s)) =
      [.enterState (.user (.entrance s))] ++ (P.startCalls default (.user s)).map fun call =>
        .entryAction (.user (.entrance s)) call default := rfl
  have hidle : ∀ call ∈ [.enterState (.user (.entrance s))], P.flatten.perform g call = pure () :=
    List.forall_mem_singleton.mpr rfl
  rw [startCalls, flatten_ancestors, flatten_descent, List.reverse_singleton, List.append_nil,
    List.flatMap_singleton, hentry, replay_idle_append hidle]
  exact replay_map fun _ => rfl

/-! ### What a call does -/

section

variable (last : σ) (response : Response σ α)

omit hP [Inhabited ε] in
theorem flatResponse_target : (P.flatResponse event x (last, response)).target? =
    response.target?.map fun t =>
      .config (P.settle (P.chart.recordExits x.memory (.user (P.original x)) (.user t)) t)
        (P.chart.recordExits x.memory (.user (P.original x)) (.user t)) := by
  cases response with
  | deferEvent =>
    cases hset : P.onDeferEvent.isSome <;> simp [flatResponse, Response.target?, hset]
  | _ => rfl

omit [Inhabited ε] in
theorem flatResponse_stop : (P.flatResponse event x (last, response)).stop = response.stop := by
  rw [Response.stop, Response.stop, flatResponse_target]
  cases response.target? <;> rfl

theorem flatten_lacksDeferral :
    P.flatten.lacksDeferral (P.flatResponse event x (last, response)) =
      P.lacksDeferral response := by
  cases response <;> first | rfl | skip
  simp only [flatResponse, Response.target?, lacksDeferral]
  cases P.onDeferEvent <;> rfl

/-- The calls the flat machine makes for its answer do what the original calls do. -/
theorem replay_flatResponse (hlacks : P.lacksDeferral response = false)
    (h : StateObj (FlatState σ) → Option (StateObj (FlatState σ))) (w : ω) :
    replay (P.flatten.perform g)
        (deferCalls event (.user x) (P.flatResponse event x (last, response)) ++
          P.flatten.dispatchCalls h (.user x) event (P.flatResponse event x (last, response))) w =
      replay (P.perform (P.originalCore g)) (deferCalls event (.user last) response ++
        P.dispatchCalls x.memory (.user (P.original x)) event response) w := by
  cases response with
  | unhandledEvent =>
    have hset : P.flatten.onUnhandledEvent.isSome = P.onUnhandledEvent.isSome := Option.isSome_map
    have hcall : P.flatten.perform g (.onUnhandledEvent (.user x) event) =
        P.perform (P.originalCore g) (.onUnhandledEvent (.user (P.original x)) event) := by
      simp only [perform, flatten, Option.map_map]
      cases P.onUnhandledEvent <;> rfl
    simp only [flatResponse, deferCalls, dispatchCalls, Response.target?, List.nil_append, hset,
      callsIf]
    split
    · rw [replay_singleton, replay_singleton, hcall]
    · rfl
  | deferEvent =>
    have hset : P.onDeferEvent.isSome = true := by
      rwa [lacksDeferral, Option.isNone_eq_false_iff] at hlacks
    simp only [flatResponse, Response.target?, if_pos hset]
    exact replay_actions event g _ w
  | noTransition => exact replay_actions event g _ w
  | noTransitionAction action => exact replay_actions event g _ w
  | noTransitionActions actions => exact replay_actions event g _ w
  | transitionTo t => exact replay_transitionCalls event g h _ _ _ _ w
  | transitionToAction t action => exact replay_transitionCalls event g h _ _ _ _ w
  | transitionToActions t actions => exact replay_transitionCalls event g h _ _ _ _ w

end

omit [Inhabited ε] in
theorem originalCore_stop {core : Core σ ι} (h : core.Agrees (P.originalCore g)) (stop : Stop) :
    (stop.core core).Agrees (P.originalCore (stop.core g)) := by
  cases stop with
  | staying f => exact h
  | moving => exact ⟨rfl, h.working, h.impl⟩

include hP in
/-- **What a `React` does to the world** is the same for both machines. -/
theorem flatten_effect (hpriv : P.HistoryIsPrivate) {core : Core σ ι}
    (hagrees : core.Agrees (P.originalCore g)) (hmemory : core.initial = x.memory) (w : ω) :
    P.flatten.effect event x g w = match P.effect event (P.original x) core w with
      | .ok answer w => .ok (x, P.flatResponse event x answer) w
      | .error stop w => .error stop w := by
  have hoffer := P.flatten_offer event x g w
  rw [flatten_askState hP, ← offer_agrees hpriv hagrees] at hoffer
  unfold effect
  rw [hoffer]
  cases P.offer event (P.original x) (ancestors P.parent (.user (P.original x))) core w with
  | error e w => rfl
  | ok answer w =>
    obtain ⟨last, response⟩ := answer
    simp only [flatten_lacksDeferral, flatResponse_stop, hmemory]
    by_cases hlacks : P.lacksDeferral response = true
    · simp only [if_pos hlacks]
    · have hcore := originalCore_stop g hagrees response.stop
      have hperform : P.perform (P.originalCore (response.stop.core g)) =
          P.perform (response.stop.core core) :=
        funext fun call => (perform_agrees hpriv hcore call).symm
      have hreplay := replay_flatResponse event x (response.stop.core g) last response
        (Bool.eq_false_iff.mpr hlacks) g.initial w
      simp only [if_neg hlacks]
      rw [hreplay, hperform]
      cases replay (P.perform (response.stop.core core)) (deferCalls event (.user last) response ++
        P.dispatchCalls x.memory (.user (P.original x)) event response) w <;> rfl

/-! ### Related machines -/

omit hP

variable (P) in
/-- The flat machine stands for the original one: they are in the same world, the current
states, busy flags and implementation pointers agree, and so do the history maps between two
calls. -/
structure Flattens (S : Sys σ ε α ι ω) (T : Sys (FlatState σ) ε (Call σ ε α) ι ω) : Prop where
  world : S.world = T.world
  core : S.core.Agrees (P.originalCore T.core)
  memory : ∀ x, T.core.currentState = some (.user x) → S.core.initial = x.memory

variable (P) in
/-- Related machines with well-formed history maps. -/
structure Lockstep (S : Sys σ ε α ι ω) (T : Sys (FlatState σ) ε (Call σ ε α) ι ω) : Prop
    extends Flattens P S T where
  good : ∀ x, T.core.currentState = some (.user x) → P.chart.GoodMemory x.memory
  goodFlat : ∀ x, T.core.currentState = some (.user x) →
    P.flatten.chart.GoodMemory T.core.initial

variable {S S' : Sys σ ε α ι ω} {T T' : Sys (FlatState σ) ε (Call σ ε α) ι ω}

theorem Lockstep.of_not_user (hworld : S.world = T.world)
    (hcore : S.core.Agrees (P.originalCore T.core))
    (hnot : ∀ x, T.core.currentState ≠ some (.user x)) : P.Lockstep S T :=
  ⟨⟨hworld, hcore, fun x hx => absurd hx (hnot x)⟩, fun x hx => absurd hx (hnot x),
    fun x hx => absurd hx (hnot x)⟩

/-- Two related machines get busy. -/
theorem Lockstep.busy (h : P.Lockstep S T) (hworld : S'.world = T'.world)
    (hS : S'.core = (busy S).core) (hT : T'.core = (busy T).core) : P.Lockstep S' T' := by
  have hcurrent : T'.core.currentState = T.core.currentState := by rw [hT]; rfl
  refine ⟨⟨hworld, ⟨?_, ?_, ?_⟩, fun x hx => ?_⟩, fun x hx => ?_, fun x hx => ?_⟩
  · rw [hS, hT]
    exact h.core.currentState
  · rw [hS, hT]
    rfl
  · rw [hS, hT]
    exact h.core.impl
  · rw [hS]
    exact h.memory x (hcurrent ▸ hx)
  · exact h.good x (hcurrent ▸ hx)
  · rw [hT]
    exact h.goodFlat x (hcurrent ▸ hx)

include hP in
/-- After an answer the machines are still related. -/
theorem Lockstep.dispatch (h : P.Lockstep S T) (hx : T.core.currentState = some (.user x))
    {last : σ} {response : Response σ α} (hworld : S'.world = T'.world)
    (hS : S'.core = P.dispatchCore S.core (.user (P.original x)) response)
    (hT : T'.core = P.flatten.dispatchCore T.core (.user x)
      (P.flatResponse event x (last, response))) : P.Lockstep S' T' := by
  rw [dispatchCore] at hS
  rw [dispatchCore, flatResponse_target] at hT
  cases ht : response.target? with
  | none =>
    rw [ht] at hS hT
    simp only [Option.map_none] at hS hT
    exact ⟨⟨hworld, by rw [hS, hT]; exact h.core, by rw [hS, hT]; exact h.memory⟩,
      by rw [hT]; exact h.good, by rw [hT]; exact h.goodFlat⟩
  | some t =>
    rw [ht] at hS hT
    simp only [Option.map_some, transitionCore, flatten_landing] at hS hT
    have hgood := Chart.recordExits_goodMemory (h.good x hx) (.user (P.original x)) (.user t)
    rw [h.memory x hx, landing_eq_settle hP hgood] at hS
    have hcurrent : T'.core.currentState = some (.user (.config
        (P.settle (P.chart.recordExits x.memory (.user (P.original x)) (.user t)) t)
        (P.chart.recordExits x.memory (.user (P.original x)) (.user t)))) := by rw [hT]
    refine ⟨⟨hworld, ⟨?_, ?_, ?_⟩, fun y hy => ?_⟩, fun y hy => ?_, fun y hy => ?_⟩
    · rw [hS, originalCore, hcurrent]
      rfl
    · rw [hS, hT]
      exact h.core.working
    · rw [hS, hT]
      exact h.core.impl
    · rw [hcurrent] at hy
      cases hy
      rw [hS]
      rfl
    · rw [hcurrent] at hy
      cases hy
      exact hgood
    · rw [hT]
      exact Chart.recordExits_goodMemory (h.goodFlat x hx) _ _

include hP in
/-- After a `Start` the machines are related. -/
theorem Lockstep.start (h : P.Lockstep S T) (s : σ) (hworld : S'.world = T'.world)
    (hS : S'.core = P.startCore S.core (.user s))
    (hT : T'.core = P.flatten.startCore T.core (.user (.entrance s))) : P.Lockstep S' T' := by
  simp only [startCore, flatten_landing] at hS hT
  rw [landing_eq_settle hP Chart.goodMemory_empty] at hS
  have hcurrent : T'.core.currentState = some (.user (.entrance s)) := by rw [hT]
  refine ⟨⟨hworld, ⟨?_, ?_, ?_⟩, fun x hx => ?_⟩, fun x hx => ?_, fun x hx => ?_⟩
  · rw [hS, originalCore, hcurrent]
    rfl
  · rw [hS, hT]
    exact h.core.working
  · rw [hS, hT]
    exact h.core.impl
  · rw [hcurrent] at hx
    cases hx
    rw [hS]
    rfl
  · rw [hcurrent] at hx
    cases hx
    exact Chart.goodMemory_empty
  · rw [hT]
    exact Chart.goodMemory_empty

/-! ### One call -/

variable (hpriv : P.HistoryIsPrivate)

include hP hpriv

theorem react_user_lockstep (h : P.Lockstep S T) (hx : T.core.currentState = some (.user x))
    (hidle : T.core.working = false) :
    failureOf (P.react event S) = failureOf (P.flatten.react event T) ∧
      P.Lockstep (stateOf (P.react event S)) (stateOf (P.flatten.react event T)) := by
  have hcurrent : S.core.currentState = some (.user (P.original x)) := by
    rw [h.core.currentState, originalCore, hx]
    rfl
  have hmemory := h.memory x hx
  have hagrees : (busy S).core.Agrees (P.originalCore (busy T).core) :=
    ⟨h.core.currentState, rfl, h.core.impl⟩
  have hS := react_effect event hP hpriv (hmemory ▸ h.good x hx) hcurrent
    (h.core.working.trans hidle)
  have hT := react_effect event P.flatten_wellNested flatten_historyIsPrivate (h.goodFlat x hx) hx
    hidle
  rw [flatten_effect hP event x (busy T).core hpriv hagrees hmemory, ← h.world] at hT
  cases heffect : P.effect event (P.original x) (busy S).core S.world with
  | ok answer w =>
    obtain ⟨last, response⟩ := answer
    rw [heffect] at hS hT
    obtain ⟨S', hS', hw, hcore⟩ := hS
    obtain ⟨T', hT', hw', hcore'⟩ := hT
    rw [hS', hT']
    exact ⟨rfl, h.dispatch hP event x hx (hw.trans hw'.symm) hcore hcore'⟩
  | error stop w =>
    rw [heffect] at hS hT
    obtain ⟨S', hS', hw, hleaves⟩ := hS
    obtain ⟨T', hT', hw', hleaves'⟩ := hT
    rw [hS', hT']
    refine ⟨rfl, ?_⟩
    cases stop with
    | staying f =>
      exact h.busy (hw.trans hw'.symm) hleaves hleaves'
    | moving =>
      obtain ⟨hc, hb, hi⟩ := hleaves
      obtain ⟨hc', hb', hi'⟩ := hleaves'
      refine .of_not_user (hw.trans hw'.symm) ⟨?_, ?_, ?_⟩ fun y hy => ?_
      · simp only [stateOf, originalCore, hc, hc']
        rfl
      · simp only [stateOf, originalCore, hb, hb']
        rfl
      · simp only [stateOf, originalCore, hi, hi']
        exact h.core.impl
      · simp only [stateOf, hc'] at hy
        cases hy

omit hP in
theorem react_sentinel_lockstep (h : P.Lockstep S T) {y : StateObj (FlatState σ)}
    (hy : ∀ u, y ≠ .user u) (hcurrent : T.core.currentState = some y)
    (hidle : T.core.working = false) :
    failureOf (P.react event S) = failureOf (P.flatten.react event T) ∧
      P.Lockstep (stateOf (P.react event S)) (stateOf (P.flatten.react event T)) := by
  have hcurrent' : S.core.currentState = some (y.map P.original) := by
    rw [h.core.currentState, originalCore, hcurrent]
    rfl
  have hy' : ∀ u, y.map P.original ≠ .user u := by
    intro u hu
    cases y with
    | user v => exact hy v rfl
    | _ => cases hu
  have hagrees : (busy S).core.Agrees (P.originalCore (busy T).core) :=
    ⟨h.core.currentState, rfl, h.core.impl⟩
  have hhook : hook (P.flatten.onHandleEvent.map fun f => f y event) (busy T).core =
      hook (P.onHandleEvent.map fun f => f (y.map P.original) event) (busy S).core := by
    rw [hook_agrees hagrees P.onHandleEvent fun f hf => hpriv.onHandleEvent f hf _ event]
    simp only [flatten, Option.map_map]
    cases P.onHandleEvent <;> rfl
  obtain ⟨L, hS⟩ := react_sentinel_effect (P := P) event hy' hcurrent'
    (h.core.working.trans hidle)
  obtain ⟨L', hT⟩ := react_sentinel_effect (P := P.flatten) event hy hcurrent hidle
  rw [hhook, ← h.world] at hT
  rw [hS, hT]
  cases hook (P.onHandleEvent.map fun f => f (y.map P.original) event) (busy S).core S.world with
  | ok _ w => exact ⟨rfl, h.busy rfl rfl rfl⟩
  | error _ w => exact ⟨rfl, h.busy rfl rfl rfl⟩

theorem react_lockstep (h : P.Lockstep S T) :
    failureOf (P.react event S) = failureOf (P.flatten.react event T) ∧
      P.Lockstep (stateOf (P.react event S)) (stateOf (P.flatten.react event T)) := by
  have hcurrent : S.core.currentState = T.core.currentState.map (StateObj.map P.original) :=
    h.core.currentState
  have hworking : S.core.working = T.core.working := h.core.working
  cases hT : T.core.currentState with
  | none =>
    have hS : S.core.currentState = none := by rw [hcurrent, hT]; rfl
    rw [react_refused (.inl hS), react_refused (.inl hT)]
    exact ⟨rfl, h⟩
  | some y =>
    by_cases hbusy : T.core.working = true
    · rw [react_refused (.inr (hworking.trans hbusy)), react_refused (.inr hbusy)]
      exact ⟨rfl, h⟩
    · have hidle := Bool.eq_false_iff.mpr hbusy
      cases y with
      | user x => exact react_user_lockstep hP event x hpriv h hT hidle
      | _ => exact react_sentinel_lockstep event hpriv h (fun _ hu => by cases hu) hT hidle

theorem start_lockstep (h : P.Lockstep S T) (s : Option σ) :
    failureOf (P.start (s.map .user) S) =
        failureOf (P.flatten.start ((s.map FlatState.entrance).map .user) T) ∧
      P.Lockstep (stateOf (P.start (s.map .user) S))
        (stateOf (P.flatten.start ((s.map FlatState.entrance).map .user) T)) := by
  have himpl : S.core.impl = T.core.impl := h.core.impl
  have hcleared : (cleared S).core.Agrees (P.originalCore (cleared T).core) :=
    ⟨rfl, h.core.working, himpl⟩
  have hsome : T.core.impl.isSome ∨ T.core.impl = none := by
    cases T.core.impl <;> simp
  rcases hsome with hsome | hnone
  · cases s with
    | none =>
      simp only [Option.map_none]
      rw [start_apply (himpl ▸ hsome), start_apply hsome]
      exact ⟨rfl, .of_not_user h.world hcleared fun x hx => by cases hx⟩
    | some s =>
      simp only [Option.map_some]
      have hS := start_effect hP hpriv (himpl ▸ hsome) s
      have hT := start_effect P.flatten_wellNested flatten_historyIsPrivate hsome (.entrance s)
      have hperform : P.perform (P.originalCore (cleared T).core) = P.perform (cleared S).core :=
        funext fun call => (perform_agrees hpriv hcleared call).symm
      rw [replay_startCalls, hperform, ← h.world] at hT
      cases hreplay : replay (P.perform (cleared S).core) (P.startCalls default (.user s))
          S.world with
      | ok _ w =>
        rw [hreplay] at hS hT
        obtain ⟨S', hS', hw, hcore⟩ := hS
        obtain ⟨T', hT', hw', hcore'⟩ := hT
        rw [hS', hT']
        exact ⟨rfl, h.start hP s (hw.trans hw'.symm) hcore hcore'⟩
      | error _ w =>
        rw [hreplay] at hS hT
        obtain ⟨S', hS', hw, hc, hb, hi⟩ := hS
        obtain ⟨T', hT', hw', hc', hb', hi'⟩ := hT
        rw [hS', hT']
        refine ⟨rfl, .of_not_user (hw.trans hw'.symm) ⟨?_, ?_, ?_⟩ fun x hx => ?_⟩
        · simp only [stateOf, originalCore, hc, hc']
          rfl
        · simp only [stateOf, originalCore, hb, hb']
          exact h.core.working
        · simp only [stateOf, originalCore, hi, hi']
          exact himpl
        · simp only [stateOf, hc'] at hx
          cases hx
  · rw [start_refused (himpl.trans hnone), start_refused hnone]
    exact ⟨rfl, h⟩

omit hP hpriv in
theorem init_lockstep (h : P.Lockstep S T) (impl : Option ι) :
    failureOf ((init impl : M σ ε α ι ω Unit) S) =
        failureOf ((init impl : M (FlatState σ) ε (Call σ ε α) ι ω Unit) T) ∧
      P.Lockstep (stateOf ((init impl : M σ ε α ι ω Unit) S))
        (stateOf ((init impl : M (FlatState σ) ε (Call σ ε α) ι ω Unit) T)) := by
  cases impl with
  | none => exact ⟨rfl, h⟩
  | some i =>
    exact ⟨rfl, ⟨⟨h.world, ⟨h.core.currentState, h.core.working, rfl⟩, h.memory⟩, h.good,
      h.goodFlat⟩⟩

/-- **One call** has the same outcome on both machines and keeps them related. -/
theorem serve_lockstep (h : P.Lockstep S T) (request : Request σ ε ι) :
    failureOf (P.serve request S) = failureOf (P.flatten.serve request.flatten T) ∧
      P.Lockstep (stateOf (P.serve request S))
        (stateOf (P.flatten.serve request.flatten T)) := by
  cases request with
  | init impl => exact init_lockstep h impl
  | start s => exact start_lockstep hP hpriv h s
  | react event => exact react_lockstep hP event hpriv h

/-! ### Sessions -/

theorem session_lockstep (requests : List (Request σ ε ι)) (h : P.Lockstep S T) :
    List.Forall₂ (fun call call' => P.Flattens call.before call'.before ∧
        call'.request = call.request.flatten ∧ call.outcome = call'.outcome)
      (P.transcript requests S) (P.flatten.transcript (requests.map Request.flatten) T) ∧
    P.Flattens (P.session requests S) (P.flatten.session (requests.map Request.flatten) T) := by
  induction requests generalizing S T with
  | nil => exact ⟨.nil, h.toFlattens⟩
  | cons request rest ih =>
    obtain ⟨houtcome, hafter⟩ := serve_lockstep hP hpriv h request
    obtain ⟨htranscript, hsession⟩ := ih hafter
    simp only [List.map_cons, transcript, session, ← houtcome]
    by_cases hback : (failureOf (P.serve request S)).any Failure.isFatal = true
    · simp only [if_pos hback]
      exact ⟨.cons ⟨h.toFlattens, rfl, rfl⟩ .nil, hafter.toFlattens⟩
    · simp only [if_neg hback]
      exact ⟨.cons ⟨h.toFlattens, rfl, rfl⟩ htranscript, hsession⟩

/-- **A hierarchical machine is a flat machine.** On a machine just constructed and on its flat
counterpart, every sequence of calls of `Init`, `Start` and `React` has the same outcomes, finds
the same world before every call and leaves the same one, and the state, busy flag,
implementation pointer and history map are always those that the flat state stands for. -/
theorem session_flatten (requests : List (Request σ ε ι)) (w : ω) :
    List.Forall₂ (fun call call' => P.Flattens call.before call'.before ∧
        call'.request = call.request.flatten ∧ call.outcome = call'.outcome)
      (P.transcript requests (constructed w))
      (P.flatten.transcript (requests.map Request.flatten) (constructed w)) ∧
    P.Flattens (P.session requests (constructed w))
      (P.flatten.session (requests.map Request.flatten) (constructed w)) :=
  session_lockstep hP hpriv requests (.of_not_user rfl ⟨rfl, rfl, rfl⟩ fun x hx => by cases hx)

end Flat

theorem trafficLight_historyIsPrivate : trafficLight.HistoryIsPrivate where
  handler _ _ _ _ _ := rfl
  action _ _ _ _ _ := rfl
  onStateChange f hf := nomatch hf
  onStateEntry f hf := nomatch hf
  onStateExit f hf := nomatch hf
  onHandleEvent f hf := nomatch hf
  onUnhandledEvent f hf := nomatch hf
  onDeferEvent f hf s event g core h := by
    cases hf
    rfl

/-- The traffic light, switched off and on again while it is yellow. -/
theorem trafficLight_flatten :
    trafficLight.Flattens
      (trafficLight.session [.init (some ()), .start (some .on), .react (.transitionTo .yellow),
        .react (.transitionTo .off), .react (.transitionTo .on)] (constructed ()))
      (trafficLight.flatten.session ([.init (some ()), .start (some .on),
        .react (.transitionTo .yellow), .react (.transitionTo .off),
        .react (.transitionTo .on)].map Request.flatten) (constructed ())) :=
  (session_flatten trafficLight_wellFormed.wellNested trafficLight_historyIsPrivate _ ()).2

end Fsm

end EventFramework.Statemachine
