import EventFramework.ActiveObjects.EventQueue
import EventFramework.Statemachine.Deferral
import EventFramework.Statemachine.Observation
import EventFramework.Statemachine.Runs

/-!
# Active objects with deferred events

An `Hsm` object, the event queue it takes its events from, and the domain thread that runs the
loop of `ActiveObjectDomainBase.hxx`. Producers push entries at both ends at any time, also
between two pushes of a half-finished recall. A dispatch to the object runs `React`; the calls
it makes are executed one after the other, `on_defer_event_` appends to `deferred_events_`, and
an action may recall.

The entries waiting for the object form one line (`Hsm.line`): the deferred ones, the one being
dispatched if it is about to be deferred, and those in the queue. Deferring and recalling do
not change the line (`Step.effect`). That is why no occurrence is lost, doubled or overtaken,
however often it is deferred and recalled (`reachable_line`).

The constructor sets the two callbacks of the machine (`construct`). While no other thread comes
in, the steps of a recall do what the callback does (`recallEvents_alone`).
-/

namespace EventFramework.ActiveObjects

open Statemachine TracedProgram

/-! ### The object and its domain -/

/-- One delivery of an event to the object. -/
structure Occurrence (ε : Type) where
  event : ε
  /-- how many deliveries came before it (ghost) -/
  id : ℕ
  /-- delivered by `Take`, not by `TakeHighPrio` (ghost) -/
  viaTake : Bool

/-- A queue entry: the marker of `Stop`, whose target is null, an event for another object of
the domain, or an event for this one. -/
inductive Entry (O ε : Type)
  | stop
  | other (target : O) (event : ε)
  | own (o : Occurrence ε)

/-- The occurrence in an entry for this object. -/
def Entry.own? {O ε : Type} : Entry O ε → Option (Occurrence ε)
  | .own o => some o
  | .stop | .other _ _ => none

/-- Where the domain thread is. -/
inductive Phase (σ ε α : Type)
  /-- at `Dequeue` -/
  | waiting
  /-- in `Dispatch` of another object -/
  | elsewhere
  /-- in `React`, with the calls it has yet to finish; `kept` says that the occurrence has not
  been deferred -/
  | reacting (o : Occurrence ε) (kept : Bool) (calls : List (Call σ ε α))
  /-- in the loop of `RecallEvents`, called by the first of `calls`, with the occurrences yet
  to be pushed -/
  | recalling (o : Occurrence ε) (kept : Bool) (calls : List (Call σ ε α))
      (rest : List (Occurrence ε))
  /-- `Run` has returned -/
  | stopped

/-- The domain thread is not inside a dispatch to this object. -/
def Phase.Outside {σ ε α : Type} : Phase σ ε α → Prop
  | .waiting | .elsewhere | .stopped => True
  | .reacting _ _ _ | .recalling _ _ _ _ => False

/-- An object, the queue it shares with other objects, and the domain thread. -/
structure Hsm (M : Semaphore) (T O σ ε α ι : Type) where
  queue : EventQueue M T (Entry O ε) := {}
  core : Core σ ι
  deferredEvents : List (Occurrence ε) := []
  phase : Phase σ ε α := .waiting
  /-- the deliveries so far (ghost) -/
  taken : List (Occurrence ε) := []
  /-- the occurrences a completed `React` has consumed (ghost) -/
  consumed : List (Occurrence ε) := []

namespace Hsm

variable {M : Semaphore} {T O σ ε α ι ω : Type} [DecidableEq T] [DecidableEq σ] [Fintype σ]

/-- The next delivery to the object. -/
def occurrence (s : Hsm M T O σ ε α ι) (event : ε) (viaTake : Bool) : Occurrence ε :=
  ⟨event, s.taken.length, viaTake⟩

variable (P : Fsm σ ε α ι ω) (domain : T) (capacity : Option ℕ)

/-- The steps. The threads other than `domain` are producers, and the domain thread is one too
while it dispatches. What the callbacks see of the world is arbitrary, since other threads
change it at any time. -/
inductive Step : Hsm M T O σ ε α ι → Hsm M T O σ ε α ι → Prop
  -- producers
  | take {s t event queue}
      (hq : s.queue.Step capacity (.pushBack t (.own (s.occurrence event true))) queue) :
      Step s { s with queue, taken := s.taken ++ [s.occurrence event true] }
  | takeHighPrio {s t event queue}
      (hq : s.queue.Step capacity (.pushFront t (.own (s.occurrence event false))) queue) :
      Step s { s with queue, taken := s.taken ++ [s.occurrence event false] }
  | enqueueBack {s t entry queue} (hentry : entry.own? = none)
      (hq : s.queue.Step capacity (.pushBack t entry) queue) : Step s { s with queue }
  | enqueueFront {s t entry queue} (hentry : entry.own? = none)
      (hq : s.queue.Step capacity (.pushFront t entry) queue) : Step s { s with queue }
  | release {s t queue} (hq : s.queue.Step capacity (.release t) queue) : Step s { s with queue }
  -- the loop of `Run`
  | acquire {s queue} (hphase : s.phase = .waiting)
      (hq : s.queue.Step capacity (.acquire domain) queue) : Step s { s with queue }
  | stop {s queue} (hphase : s.phase = .waiting) (hfront : s.queue.queue.head? = some .stop)
      (hq : s.queue.Step capacity (.pop domain) queue) :
      Step s { s with queue, phase := .stopped }
  | dispatchOther {s queue target event} (hphase : s.phase = .waiting)
      (hfront : s.queue.queue.head? = some (.other target event))
      (hq : s.queue.Step capacity (.pop domain) queue) :
      Step s { s with queue, phase := .elsewhere }
  | dispatchedOther {s} (hphase : s.phase = .elsewhere) : Step s { s with phase := .waiting }
  | dispatch {s queue o w S'} (hphase : s.phase = .waiting)
      (hfront : s.queue.queue.head? = some (.own o))
      (hq : s.queue.Step capacity (.pop domain) queue)
      (hreact : P.react o.event ⟨s.core, w, []⟩ = .ok () S') :
      Step s { s with queue, core := S'.core, phase := .reacting o true S'.trace }
  -- inside `React`: a call returns; `on_defer_event_` is set to `DeferEvent`
  | called {s o kept c calls} (hphase : s.phase = .reacting o kept (c :: calls))
      (hc : c.isDefer = false) : Step s { s with phase := .reacting o kept calls }
  | deferEvent {s o kept x event calls}
      (hphase : s.phase = .reacting o kept (.onDeferEvent x event :: calls)) :
      Step s { s with
        deferredEvents := s.deferredEvents ++ [{ o with event }]
        phase := .reacting o false calls }
  -- `RecallEvents`: the vector is walked backwards and then cleared
  | recallEvents {s o kept c calls} (hphase : s.phase = .reacting o kept (c :: calls))
      (hc : c.isAction = true) :
      Step s { s with phase := .recalling o kept (c :: calls) s.deferredEvents }
  | recallNext {s o kept calls rest x queue}
      (hphase : s.phase = .recalling o kept calls (rest ++ [x]))
      (hq : s.queue.Step capacity (.pushFront domain (.own x)) queue) :
      Step s { s with queue, phase := .recalling o kept calls rest }
  | recalled {s o kept calls} (hphase : s.phase = .recalling o kept calls []) :
      Step s { s with deferredEvents := [], phase := .reacting o kept calls }
  -- `React` returns
  | dispatched {s o kept} (hphase : s.phase = .reacting o kept []) :
      Step s { s with
        phase := .waiting
        consumed := s.consumed ++ if kept then [o] else [] }

/-- The states reached from an object with an empty queue. -/
inductive Reachable : Hsm M T O σ ε α ι → Prop
  | init (core : Core σ ι) : Reachable { core }
  | step {s s' : Hsm M T O σ ε α ι} (hs : Reachable s) (h : Step P domain capacity s s') :
      Reachable s'

end Hsm

/-! ### The line of waiting events -/

namespace Phase

variable {σ ε α : Type}

/-- The occurrence in dispatch, unless it is in `deferred_events_` again. -/
@[simp]
def busy : Phase σ ε α → List (Occurrence ε)
  | .reacting o kept _ | .recalling o kept _ _ => if kept then [o] else []
  | .waiting | .elsewhere | .stopped => []

/-- The occurrence in dispatch, if it is going to be deferred. -/
@[simp]
def due : Phase σ ε α → List (Occurrence ε)
  | .reacting o _ calls | .recalling o _ calls _ => if calls.any Call.isDefer then [o] else []
  | .waiting | .elsewhere | .stopped => []

/-- What `deferred_events_` still stands for: during a recall, what has not been pushed. -/
@[simp]
def store (deferredEvents : List (Occurrence ε)) : Phase σ ε α → List (Occurrence ε)
  | .recalling _ _ _ rest => rest
  | .waiting | .elsewhere | .reacting _ _ _ | .stopped => deferredEvents

/-- The calls of a `React` that keeps its occurrence do not defer; otherwise the deferral of the
occurrence comes last, and no action before it. -/
def Promised (o : Occurrence ε) (kept : Bool) (calls : List (Call σ ε α)) : Prop :=
  (kept = true ∧ ∀ c ∈ calls, c.isDefer = false) ∨
    (kept = true ∧ ∃ asked x, calls = asked ++ [.onDeferEvent x o.event] ∧
      ∀ c ∈ asked, c.IsQuestion) ∨
    (kept = false ∧ calls = [])

/-- What is known about the calls to come. -/
def Shape : Phase σ ε α → Prop
  | .reacting o kept calls => Promised o kept calls
  | .recalling _ kept calls _ => kept = true ∧ ∀ c ∈ calls, c.isDefer = false
  | .waiting | .elsewhere | .stopped => True

theorem Promised.react {ι ω : Type} [DecidableEq σ] [Fintype σ] {P : Fsm σ ε α ι ω}
    {o : Occurrence ε} {core : Core σ ι} {w : ω} {S' : Sys σ ε α ι ω}
    (h : P.react o.event ⟨core, w, []⟩ = .ok () S') : Promised o true S'.trace := by
  obtain ⟨calls, htr, ⟨asked, x, hcalls, hasked⟩ | hkeeps⟩ := Fsm.react_calls h
  · exact .inr (.inl ⟨rfl, asked, x, htr.trans hcalls, hasked⟩)
  · exact .inl ⟨rfl, htr ▸ hkeeps⟩

theorem Promised.tail {o : Occurrence ε} {kept : Bool} {c : Call σ ε α} {calls : List (Call σ ε α)}
    (h : Promised o kept (c :: calls)) (hc : c.isDefer = false) : Promised o kept calls := by
  obtain ⟨hkept, hkeeps⟩ | ⟨hkept, asked, x, hcalls, hasked⟩ | ⟨-, hnil⟩ := h
  · exact .inl ⟨hkept, fun d hd => hkeeps d (List.mem_cons_of_mem c hd)⟩
  · cases asked with
    | nil =>
      obtain ⟨rfl, -⟩ := List.cons.inj hcalls
      exact nomatch hc
    | cons d asked =>
      obtain ⟨-, hcalls⟩ := List.cons.inj hcalls
      exact .inr (.inl ⟨hkept, asked, x, hcalls, fun e he => hasked e (List.mem_cons_of_mem d he)⟩)
  · exact nomatch hnil

/-- The deferral is the last call, and its argument is the event of the occurrence. -/
theorem Promised.of_defer {o : Occurrence ε} {kept : Bool} {x : StateObj σ} {event : ε}
    {calls : List (Call σ ε α)} (h : Promised o kept (.onDeferEvent x event :: calls)) :
    kept = true ∧ event = o.event ∧ calls = [] := by
  obtain ⟨-, hkeeps⟩ | ⟨hkept, asked, y, hcalls, hasked⟩ | ⟨-, hnil⟩ := h
  · exact nomatch hkeeps _ List.mem_cons_self
  · cases asked with
    | nil =>
      obtain ⟨hcall, rfl⟩ := List.cons.inj hcalls
      obtain ⟨-, rfl⟩ := Call.onDeferEvent.inj hcall
      exact ⟨hkept, rfl, rfl⟩
    | cons d asked =>
      obtain ⟨rfl, -⟩ := List.cons.inj hcalls
      exact (hasked _ List.mem_cons_self).elim
  · exact nomatch hnil

/-- A React that runs an action keeps its occurrence. -/
theorem Promised.of_action {o : Occurrence ε} {kept : Bool} {c : Call σ ε α}
    {calls : List (Call σ ε α)} (h : Promised o kept (c :: calls)) (hc : c.isAction = true) :
    kept = true ∧ ∀ d ∈ c :: calls, d.isDefer = false := by
  obtain h | ⟨-, asked, x, hcalls, hasked⟩ | ⟨-, hnil⟩ := h
  · exact h
  · cases asked with
    | nil =>
      obtain ⟨rfl, -⟩ := List.cons.inj hcalls
      exact nomatch hc
    | cons d asked =>
      obtain ⟨rfl, -⟩ := List.cons.inj hcalls
      exact nomatch hc.symm.trans (hasked c List.mem_cons_self).isAction
  · exact nomatch hnil

/-- While a recall is going on nothing is going to be deferred. -/
theorem due_of_recalling {o : Occurrence ε} {kept : Bool} {calls : List (Call σ ε α)}
    {rest : List (Occurrence ε)} (h : Shape (.recalling o kept calls rest)) :
    due (.recalling o kept calls rest) = [] := by
  simpa [due] using h.2

theorem due_subset_busy {phase : Phase σ ε α} (h : phase.Shape) : phase.due ⊆ phase.busy := by
  cases phase with
  | reacting o kept calls =>
    obtain ⟨rfl, -⟩ | ⟨rfl, -⟩ | ⟨-, rfl⟩ := h
    · exact fun _ hx => (List.mem_ite_nil_right.mp hx).2
    · exact fun _ hx => (List.mem_ite_nil_right.mp hx).2
    · exact List.nil_subset _
  | recalling o kept calls rest =>
    rw [due_of_recalling h]
    exact List.nil_subset _
  | _ => exact List.nil_subset _

/-- Outside a dispatch all deferred events are where they belong. -/
theorem Outside.parts {phase : Phase σ ε α} (h : phase.Outside) (l : List (Occurrence ε)) :
    phase.busy = [] ∧ phase.due = [] ∧ phase.store l = l := by
  cases phase with
  | reacting _ _ _ | recalling _ _ _ _ => exact h.elim
  | _ => exact ⟨rfl, rfl, rfl⟩

end Phase

namespace Hsm

variable {M : Semaphore} {T O σ ε α ι ω : Type} (s s' : Hsm M T O σ ε α ι)

/-- The occurrences in the queue. -/
def own : List (Occurrence ε) := s.queue.queue.filterMap Entry.own?

/-- The occurrences waiting for the object, the next one first. -/
def line : List (Occurrence ε) := s.phase.store s.deferredEvents ++ (s.phase.due ++ s.own)

/-- All occurrences the program holds or has consumed. -/
def held : List (Occurrence ε) :=
  s.consumed ++ (s.phase.busy ++ (s.phase.store s.deferredEvents ++ s.own))

theorem own_mk (queue : EventQueue M T (Entry O ε)) (core : Core σ ι)
    (deferredEvents taken consumed : List (Occurrence ε)) (phase : Phase σ ε α) :
    own ⟨queue, core, deferredEvents, phase, taken, consumed⟩
      = queue.queue.filterMap Entry.own? :=
  rfl

/-- What a step can do to line and holdings: an arrival at the back of the line, one elsewhere
that is not by `Take`, or only departures from the line. -/
structure Effect : Prop where
  shape : s'.phase.Shape
  arrival : (s'.taken = s.taken ∧ s'.held.Perm s.held ∧ s'.line.Sublist s.line) ∨
    ∃ event viaTake, s'.taken = s.taken ++ [s.occurrence event viaTake] ∧
      s'.held.Perm (s.held ++ [s.occurrence event viaTake]) ∧
      s'.line.filter Occurrence.viaTake
        = (s.line ++ [s.occurrence event viaTake]).filter Occurrence.viaTake

variable {s s'}

/-- The step is not visible in the line. -/
theorem Effect.stutter (hshape : s'.phase.Shape) (htaken : s'.taken = s.taken)
    (hheld : s'.held = s.held) (hline : s'.line = s.line) : Effect s s' :=
  ⟨hshape, .inl ⟨htaken, .of_eq hheld, hline ▸ List.Sublist.refl _⟩⟩

/-- Nothing changes but entries of the queue that are for others. -/
theorem Effect.of_own {queue : EventQueue M T (Entry O ε)} (hs : s.phase.Shape)
    (hown : queue.queue.filterMap Entry.own? = s.own) : Effect s { s with queue } := by
  refine .stutter hs rfl ?_ ?_
  · rw [held, held, own_mk, hown]
  · rw [line, line, own_mk, hown]

variable [DecidableEq T] {capacity : Option ℕ}

/-- Taking an entry from the front. -/
theorem own_of_pop {t : T} {entry : Entry O ε} {queue : EventQueue M T (Entry O ε)}
    (hfront : s.queue.queue.head? = some entry) (hq : s.queue.Step capacity (.pop t) queue) :
    s.own = entry.own?.toList ++ queue.queue.filterMap Entry.own? := by
  obtain ⟨e, he⟩ := hq.queue_eq
  obtain rfl : e = entry := by simpa [he] using hfront
  cases hown : e.own? <;> simp [own, he, hown]

variable [DecidableEq σ] [Fintype σ] {P : Fsm σ ε α ι ω} {domain : T}

/-- **One step.** Deferring and recalling do not change the line. -/
theorem Step.effect (hs : s.phase.Shape) (h : Step P domain capacity s s') : Effect s s' := by
  have hself : s.queue.queue.filterMap Entry.own? = s.own := rfl
  cases h with
  | @take _ event queue hq =>
    have hown : queue.queue.filterMap Entry.own? = s.own ++ [s.occurrence event true] := by
      simp [own, hq.queue_eq, Entry.own?]
    refine ⟨hs, .inr ⟨event, true, rfl, ?_, ?_⟩⟩
    · simp [held, own_mk, hown]
    · simp [line, own_mk, hown]
  | @takeHighPrio _ event queue hq =>
    have hown : queue.queue.filterMap Entry.own? = s.occurrence event false :: s.own := by
      simp [own, hq.queue_eq, Entry.own?]
    refine ⟨hs, .inr ⟨event, false, rfl, ?_, ?_⟩⟩
    · simp only [held, own_mk, hown, List.append_assoc]
      have hfront := (List.perm_append_singleton (s.occurrence event false) s.own).symm
      exact ((hfront.append_left _).append_left _).append_left _
    · have hfalse : (s.occurrence event false).viaTake = false := rfl
      simp [line, own_mk, hown, hfalse]
  | enqueueBack hentry hq => exact .of_own hs (by simp [own, hq.queue_eq, hentry])
  | enqueueFront hentry hq => exact .of_own hs (by simp [own, hq.queue_eq, hentry])
  | release hq => exact .of_own hs (by rw [hq.queue_eq, hself])
  | acquire hphase hq => exact .of_own hs (by rw [hq.queue_eq, hself])
  | stop hphase hfront hq =>
    have hown := own_of_pop hfront hq
    refine .stutter trivial rfl ?_ ?_
    · simp [held, hphase, hown, own_mk, Entry.own?]
    · simp [line, hphase, hown, own_mk, Entry.own?]
  | dispatchOther hphase hfront hq =>
    have hown := own_of_pop hfront hq
    refine .stutter trivial rfl ?_ ?_
    · simp [held, hphase, hown, own_mk, Entry.own?]
    · simp [line, hphase, hown, own_mk, Entry.own?]
  | dispatchedOther hphase =>
    refine .stutter trivial rfl ?_ ?_
    · simp [held, hphase, own_mk, hself]
    · simp [line, hphase, own_mk, hself]
  | @dispatch queue o w S' hphase hfront hq hreact =>
    have hown : s.own = o :: queue.queue.filterMap Entry.own? := own_of_pop hfront hq
    refine ⟨Phase.Promised.react hreact, .inl ⟨rfl, ?_, ?_⟩⟩
    · simp only [held, hphase, hown, own_mk, Phase.busy, Phase.store, if_true, List.nil_append,
        List.singleton_append]
      exact List.perm_middle.symm.append_left s.consumed
    · -- the occurrence stays at its place in the line, or leaves it
      simp only [line, hphase, hown, own_mk, Phase.due, Phase.store, List.nil_append]
      refine List.Sublist.append_left ?_ s.deferredEvents
      split
      · exact List.Sublist.refl _
      · exact List.sublist_cons_self o _
  | called hphase hc =>
    rw [hphase] at hs
    refine .stutter (hs.tail hc) rfl ?_ ?_
    · simp [held, hphase, own_mk, hself]
    · simp [line, hphase, own_mk, hself, hc]
  | @deferEvent o kept x event calls hphase =>
    rw [hphase] at hs
    -- the last call of a React that defers: the occurrence goes behind the deferred ones
    obtain ⟨rfl, rfl, rfl⟩ := hs.of_defer
    refine ⟨.inr (.inr ⟨rfl, rfl⟩), .inl ⟨rfl, ?_, ?_⟩⟩
    · simp only [held, hphase, own_mk, hself, Phase.busy, Phase.store, if_true,
        Bool.false_eq_true, if_false, List.nil_append, List.append_assoc]
      exact List.perm_middle.append_left s.consumed
    · simp [line, hphase, own_mk, hself, Call.isDefer]
  | recallEvents hphase hc =>
    rw [hphase] at hs
    refine .stutter (hs.of_action hc) rfl ?_ ?_
    · simp [held, hphase, own_mk, hself]
    · simp [line, hphase, own_mk, hself]
  | @recallNext o kept calls rest x queue hphase hq =>
    have hown : queue.queue.filterMap Entry.own? = x :: s.own := by
      simp [own, hq.queue_eq, Entry.own?]
    rw [hphase] at hs
    -- the last one not yet pushed is the one that precedes the queue in the line
    have hkeeps : calls.any Call.isDefer = false := by simpa using hs.2
    refine .stutter hs rfl ?_ ?_
    · simp [held, hphase, hown, own_mk]
    · simp [line, hphase, hown, own_mk, hkeeps]
  | recalled hphase =>
    rw [hphase] at hs
    refine .stutter (.inl hs) rfl ?_ ?_
    · simp [held, hphase, own_mk, hself]
    · simp [line, hphase, own_mk, hself]
  | dispatched hphase =>
    refine .stutter trivial rfl ?_ ?_
    · simp [held, hphase, own_mk, hself]
    · simp [line, hphase, own_mk, hself]

/-! ### Runs -/

/-- What holds in every state: the deliveries are numbered in their order, each of them is held
in one place, and in the line those by `Take` stand in the order of their delivery. -/
structure Sound (s : Hsm M T O σ ε α ι) : Prop where
  shape : s.phase.Shape
  ids : s.taken.map Occurrence.id = List.range s.taken.length
  held : s.held.Perm s.taken
  ordered : (s.line.filter Occurrence.viaTake).Pairwise fun o o' => o.id < o'.id

omit [DecidableEq T] [DecidableEq σ] [Fintype σ] in
theorem line_subset_held (s : Hsm M T O σ ε α ι) {o : Occurrence ε} (hs : s.phase.Shape)
    (ho : o ∈ s.line) : o ∈ s.held := by
  rw [line, List.mem_append, List.mem_append] at ho
  rw [held, List.mem_append, List.mem_append, List.mem_append]
  obtain ho | ho | ho := ho
  · exact .inr (.inr (.inl ho))
  · exact .inr (.inl (Phase.due_subset_busy hs ho))
  · exact .inr (.inr (.inr ho))

omit [DecidableEq T] [DecidableEq σ] [Fintype σ] in
theorem Sound.id_lt (hs : s.Sound) {o : Occurrence ε} (ho : o ∈ s.line) :
    o.id < s.taken.length := by
  have hmem : o.id ∈ s.taken.map Occurrence.id :=
    List.mem_map_of_mem (hs.held.subset (s.line_subset_held hs.shape ho))
  rw [hs.ids] at hmem
  exact List.mem_range.mp hmem

theorem Step.sound (hs : s.Sound) (h : Step P domain capacity s s') : s'.Sound := by
  obtain ⟨hshape, ⟨htaken, hheld, hline⟩ | ⟨event, viaTake, htaken, hheld, hline⟩⟩ :=
    h.effect hs.shape
  · refine ⟨hshape, htaken ▸ hs.ids, htaken ▸ hheld.trans hs.held, ?_⟩
    exact hs.ordered.sublist (hline.filter Occurrence.viaTake)
  · refine ⟨hshape, ?_, ?_, ?_⟩
    · rw [htaken, List.map_append, hs.ids, List.length_append, List.length_singleton,
        List.range_succ]
      rfl
    · rw [htaken]
      exact hheld.trans (hs.held.append_right _)
    · rw [hline, List.filter_append, List.pairwise_append]
      refine ⟨hs.ordered, List.Pairwise.filter _ (List.pairwise_singleton _ _), ?_⟩
      intro o ho o' ho'
      obtain rfl := List.mem_singleton.mp (List.mem_filter.mp ho').1
      exact hs.id_lt (List.mem_filter.mp ho).1

theorem Reachable.sound (h : Reachable P domain capacity s) : s.Sound := by
  induction h with
  | init core => exact ⟨trivial, rfl, .refl _, .nil⟩
  | step _ hstep ih => exact hstep.sound ih

/-- **Deferral loses, doubles and reorders nothing.** In every state in which the domain thread
is not inside a dispatch to the object, each delivery to it is in exactly one place: consumed by
a completed `React`, in `deferred_events_`, or in the queue. And the deferred events followed by
the queued ones keep the order in which `Take` has delivered them. -/
theorem reachable_line (h : Reachable P domain capacity s) (hphase : s.phase.Outside) :
    s.taken.map Occurrence.id = List.range s.taken.length ∧
    (s.consumed ++ (s.deferredEvents ++ s.own)).Perm s.taken ∧
    ((s.deferredEvents ++ s.own).filter Occurrence.viaTake).Pairwise fun o o' => o.id < o'.id := by
  obtain ⟨-, hids, hheld, hordered⟩ := h.sound
  obtain ⟨hbusy, hdue, hstore⟩ := hphase.parts s.deferredEvents
  rw [Hsm.held, hbusy, hstore] at hheld
  rw [line, hdue, hstore] at hordered
  exact ⟨hids, hheld, hordered⟩

/-- The traffic light at green defers one event and recalls it in an action of the next. -/
theorem trafficLight_line : ∃ s : Hsm (stdSemaphore 1) ℕ ℕ Light (Response Light LightAction)
    LightAction Unit, Reachable trafficLight 1 none s ∧ s.consumed.map Occurrence.id = [1] ∧
      s.own.map Occurrence.id = [0] ∧ (s.consumed ++ (s.deferredEvents ++ s.own)).Perm s.taken := by
  set core : Core Light Unit := { currentState := some (.user .green), impl := some () }
  set S := stateOf (trafficLight.react .deferEvent ⟨core, (), []⟩)
  have hreact : trafficLight.react .deferEvent ⟨core, (), []⟩ = .ok () S :=
    ok_of_returns (by decide +kernel)
  have htrace : S.trace =
      [.handler .green .deferEvent, .onDeferEvent (.user .green) .deferEvent] := by
    decide +kernel
  set S' := stateOf (trafficLight.react (.noTransitionAction (some .walk)) ⟨S.core, (), []⟩)
  have hreact' : trafficLight.react (.noTransitionAction (some .walk)) ⟨S.core, (), []⟩ =
      .ok () S' := ok_of_returns (by decide +kernel)
  have htrace' : S'.trace = [.handler .green (.noTransitionAction (some .walk)),
      .action .walk (.noTransitionAction (some .walk))] := by
    decide +kernel
  have hinit : Reachable (M := stdSemaphore 1) (O := ℕ) trafficLight 1 none { core } := .init core
  have htaken := hinit.step (.take (.pushBack (M := stdSemaphore 1) (t := 0)
    (e := Entry.own ⟨.deferEvent, 0, true⟩) ⟨by decide, by decide⟩ (EventQueue.room_none _)))
  have hreleased := htaken.step (.release (.release (t := 0) (m := SemState.counter 1)
    (by decide) ⟨0, rfl, rfl⟩))
  have hacquired := hreleased.step (.acquire rfl (.acquire (m := SemState.counter 0)
    ⟨by decide, by decide⟩ ⟨0, rfl, rfl⟩))
  have hdispatch := hacquired.step (.dispatch rfl rfl (.pop (by decide) rfl) hreact)
  have hcalled := hdispatch.step (.called (congrArg _ htrace) rfl)
  have hdeferred := hcalled.step (.deferEvent rfl)
  have hdone := hdeferred.step (.dispatched rfl)
  have htaken' := hdone.step (.take (.pushBack (M := stdSemaphore 1) (t := 0)
    (e := Entry.own ⟨.noTransitionAction (some .walk), 1, true⟩) ⟨by decide, by decide⟩
    (EventQueue.room_none _)))
  have hreleased' := htaken'.step (.release (.release (t := 0) (m := SemState.counter 1)
    (by decide) ⟨0, rfl, rfl⟩))
  have hacquired' := hreleased'.step (.acquire rfl (.acquire (m := SemState.counter 0)
    ⟨by decide, by decide⟩ ⟨0, rfl, rfl⟩))
  have hdispatch' := hacquired'.step (.dispatch rfl rfl (.pop (by decide) rfl) hreact')
  have hcalled' := hdispatch'.step (.called (congrArg _ htrace') rfl)
  have hrecall := hcalled'.step (.recallEvents rfl rfl)
  have hpushed := hrecall.step (.recallNext
    (show _ = Phase.recalling _ _ _ ([] ++ [⟨.deferEvent, 0, true⟩]) from rfl)
    (.pushFront ⟨by decide, by decide⟩ (EventQueue.room_none _)))
  have hrecalled := hpushed.step (.recalled rfl)
  have hwalked := hrecalled.step (.called rfl rfl)
  have hend := hwalked.step (.dispatched rfl)
  exact ⟨_, hend, rfl, rfl, (reachable_line hend trivial).2.1⟩

/-! ### The callbacks of the machine -/

/-- What the callbacks of an `Hsm` act on: `deferred_events_`, and the events of the object in
its queue. -/
structure Deferral (ε : Type) where
  deferredEvents : List ε := []
  queue : List ε := []

/-- `Hsm::DeferEvent`. -/
def deferEvent (event : ε) : EStateM Unit (Deferral ε) Unit :=
  modify fun d => { d with deferredEvents := d.deferredEvents ++ [event] }

/-- `TakeHighPrio`, of the object itself. -/
def takeHighPrio (event : ε) : EStateM Unit (Deferral ε) Unit :=
  modify fun d => { d with queue := event :: d.queue }

/-- `Hsm::RecallEvents`. -/
def recallEvents : EStateM Unit (Deferral ε) Unit := do
  forM (← get).deferredEvents.reverse takeHighPrio
  modify fun d => { d with deferredEvents := [] }

/-- The constructor, for a machine with the other callbacks. -/
def construct (P : Fsm σ ε α ι (Deferral ε)) : Fsm σ ε α ι (Deferral ε) :=
  { P with
    onDeferEvent := some fun _ event _ => deferEvent event
    onRecallDeferredEvents := some fun _ _ => recallEvents }

theorem forM_takeHighPrio (events : List ε) (d : Deferral ε) :
    (forM events takeHighPrio : EStateM Unit (Deferral ε) PUnit) d =
      .ok () { d with queue := events.reverse ++ d.queue } := by
  induction events generalizing d with
  | nil => rfl
  | cons event events ih =>
    rw [List.forM_cons]
    refine (ErrorState.bind_of_ok (rfl : takeHighPrio event d =
      .ok () { d with queue := event :: d.queue })).trans ((ih _).trans ?_)
    rw [List.reverse_cons, List.append_assoc, List.singleton_append]

theorem recallEvents_eq (d : Deferral ε) :
    recallEvents d = .ok () ⟨[], d.deferredEvents ++ d.queue⟩ := by
  have hloop := forM_takeHighPrio d.deferredEvents.reverse d
  rw [List.reverse_reverse] at hloop
  exact ErrorState.bind_of_ok hloop

/-- **An action may recall at any time.** `RecallEvents` of the machine asserts that its callback
is set and follows `current_state_`. The constructor has set the one, and in a call the other is
not null. -/
theorem recallEvents_of_coresSeen [Inhabited ε] {P : Fsm σ ε α ι (Deferral ε)}
    {entry : Fsm.EntryPoint σ ε} {S : Sys σ ε α ι (Deferral ε)} {g : Core σ ι}
    (hg : g ∈ (construct P).coresSeen entry S) (d : Deferral ε) :
    (construct P).recallEvents g d = .ok () ⟨[], d.deferredEvents ++ d.queue⟩ := by
  have hcurrent : ∃ s, g.currentState = some s := by
    cases entry with
    | start initial => exact ⟨_, (Fsm.entering_of_coresSeen g hg).current⟩
    | react event => exact Option.isSome_iff_exists.mp (Fsm.engaged_of_coresSeen g hg).current
  obtain ⟨s, hs⟩ := hcurrent
  have hcallback : (construct P).recallEvents g = recallEvents := by
    unfold Fsm.recallEvents
    rw [hs]
    rfl
  rw [hcallback, recallEvents_eq]

/-- The steps of a recall while no other thread comes in. -/
inductive RecallStep (domain : T) (capacity : Option ℕ) :
    Hsm M T O σ ε α ι → Hsm M T O σ ε α ι → Prop
  | recallNext {s : Hsm M T O σ ε α ι} {o kept calls rest x queue}
      (hphase : s.phase = .recalling o kept calls (rest ++ [x]))
      (hq : s.queue.Step capacity (.pushFront domain (.own x)) queue) :
      RecallStep domain capacity s { s with queue, phase := .recalling o kept calls rest }
  | release {s : Hsm M T O σ ε α ι} {queue}
      (hq : s.queue.Step capacity (.release domain) queue) :
      RecallStep domain capacity s { s with queue }

theorem RecallStep.step (h : RecallStep domain capacity s s') : Step P domain capacity s s' := by
  cases h with
  | recallNext hphase hq => exact .recallNext hphase hq
  | release hq => exact .release hq

omit [DecidableEq σ] [Fintype σ] in
/-- What is yet to be pushed, followed by what is in the queue. -/
theorem RecallStep.store_own (h : RecallStep domain capacity s s') {o : Occurrence ε}
    {kept : Bool} {calls : List (Call σ ε α)} {rest : List (Occurrence ε)}
    (hphase : s.phase = .recalling o kept calls rest) :
    ∃ rest', s'.phase = .recalling o kept calls rest' ∧ rest' ++ s'.own = rest ++ s.own := by
  cases h with
  | @recallNext o' kept' calls' rest' x queue hphase' hq =>
    have hown : queue.queue.filterMap Entry.own? = x :: s.own := by
      simp [own, hq.queue_eq, Entry.own?]
    obtain ⟨rfl, rfl, rfl, rfl⟩ := Phase.recalling.inj (hphase'.symm.trans hphase)
    exact ⟨rest', rfl, by rw [own_mk, hown, List.append_assoc, List.singleton_append]⟩
  | @release queue hq =>
    refine ⟨rest, hphase, ?_⟩
    rw [own_mk, hq.queue_eq]
    rfl

/-- **The recall is the callback.** While no other thread comes in, the steps of a recall do to
the deferred and the queued events what `RecallEvents` does. -/
theorem recallEvents_alone {o : Occurrence ε} {kept : Bool} {calls : List (Call σ ε α)}
    (hphase : s.phase = .recalling o kept calls s.deferredEvents)
    (h : Relation.ReflTransGen (RecallStep domain capacity) s s')
    (hend : s'.phase = .recalling o kept calls []) :
    Relation.ReflTransGen (Step P domain capacity) s s' ∧
    recallEvents ⟨s.deferredEvents.map Occurrence.event, s.own.map Occurrence.event⟩ =
      .ok () ⟨[], s'.own.map Occurrence.event⟩ := by
  refine ⟨Relation.ReflTransGen.mono (fun _ _ => RecallStep.step) s s' h, ?_⟩
  suffices hall : ∃ rest, s'.phase = .recalling o kept calls rest ∧
      rest ++ s'.own = s.deferredEvents ++ s.own by
    obtain ⟨rest, hrest, hown⟩ := hall
    obtain ⟨-, -, -, rfl⟩ := Phase.recalling.inj (hend.symm.trans hrest)
    rw [recallEvents_eq, ← List.map_append, ← hown, List.nil_append]
  clear hend
  induction h with
  | refl => exact ⟨_, hphase, rfl⟩
  | tail _ hstep ih =>
    obtain ⟨rest, hrest, hown⟩ := ih
    obtain ⟨rest', hrest', hown'⟩ := hstep.store_own hrest
    exact ⟨rest', hrest', hown'.trans hown⟩

end Hsm

end EventFramework.ActiveObjects
