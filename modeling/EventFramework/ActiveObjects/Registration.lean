import EventFramework.ActiveObjects.Domain
import Mathlib.Logic.Function.Basic

/-!
# Objects and their domains

`ActiveObjectBase.hxx`: an object is given its queue once, `Take` and `TakeHighPrio` put entries
for it in that queue, and the domain threads dispatch what they find in theirs. A domain brings
its queue with it, or is constructed with one that exists; `serves` says which queue a domain
has. Objects, queues and domains are any number here, and all threads step in any order.

An entry for an object is always in the queue of the object (`Registered`). So no object is
dispatched to by two threads at a time exactly when no two domains have the same queue
(`exclusive_iff`).
-/

namespace EventFramework.ActiveObjects

/-! ### Registration -/

/-- An assertion fails. -/
inductive AssertionFailed
  | assertion
  deriving DecidableEq, Repr

/-- `ActiveObjectBase`, for queues `Q`. -/
structure ActiveObjectBase (Q : Type) where
  queue : Option Q := none
  deriving DecidableEq, Repr

namespace ActiveObjectBase

variable {Q : Type}

/-- `assert`. -/
def assert (condition : Bool) : EStateM AssertionFailed (ActiveObjectBase Q) Unit :=
  if condition then pure () else throw .assertion

/-- `SetQueue`. -/
def setQueue (queue : Option Q) : EStateM AssertionFailed (ActiveObjectBase Q) Unit := do
  assert (← get).queue.isNone
  modify fun object => { object with queue }

/-- The queue that `Take` and `TakeHighPrio` put the event in. -/
def takeInto : EStateM AssertionFailed (ActiveObjectBase Q) Q := do
  assert (← get).queue.isSome
  match (← get).queue with
  | none => throw .assertion
  | some queue => return queue

theorem setQueue_eq (queue : Option Q) (object : ActiveObjectBase Q) :
    setQueue queue object =
      if object.queue = none then .ok () ⟨queue⟩ else .error .assertion object := by
  obtain ⟨_ | _⟩ := object <;> rfl

theorem takeInto_eq (object : ActiveObjectBase Q) :
    takeInto object = match object.queue with
      | none => .error .assertion object
      | some queue => .ok queue object := by
  obtain ⟨_ | _⟩ := object <;> rfl

end ActiveObjectBase

/-! ### Several domains -/

/-- Objects `O`, queues `Q` and domains `D`. -/
structure Objects (M : Semaphore) (T O ε Q D : Type) where
  object : O → ActiveObjectBase Q := fun _ => {}
  queue : Q → EventQueue M T (QueueEntry O ε) := fun _ => {}
  phase : D → RunPhase O ε := fun _ => .waiting

namespace Objects

variable {M : Semaphore} {T O ε Q D : Type} [DecidableEq T] [DecidableEq O] [DecidableEq Q]
  [DecidableEq D]

/-- The steps. `thread d` is the thread of domain `d`; the other threads are producers, and so
are the threads of the domains. -/
inductive Step (serves : D → Q) (thread : D → T) (capacity : Option ℕ) :
    Objects M T O ε Q D → Objects M T O ε Q D → Prop
  | setQueue {s : Objects M T O ε Q D} {o : O} {queue : Option Q} {object}
      (h : ActiveObjectBase.setQueue queue (s.object o) = .ok () object) :
      Step serves thread capacity s { s with object := Function.update s.object o object }
  | take {s : Objects M T O ε Q D} {o : O} {t : T} {event : Option ε} {q : Q} {object queue}
      (h : ActiveObjectBase.takeInto (s.object o) = .ok q object)
      (hq : (s.queue q).Step capacity (.pushBack t ⟨some o, event⟩) queue) :
      Step serves thread capacity s { s with queue := Function.update s.queue q queue }
  | takeHighPrio {s : Objects M T O ε Q D} {o : O} {t : T} {event : Option ε} {q : Q}
      {object queue} (h : ActiveObjectBase.takeInto (s.object o) = .ok q object)
      (hq : (s.queue q).Step capacity (.pushFront t ⟨some o, event⟩) queue) :
      Step serves thread capacity s { s with queue := Function.update s.queue q queue }
  | stop {s : Objects M T O ε Q D} {d : D} {t : T} {queue}
      (hq : (s.queue (serves d)).Step capacity (.pushBack t .stop) queue) :
      Step serves thread capacity s { s with queue := Function.update s.queue (serves d) queue }
  | release {s : Objects M T O ε Q D} {t : T} {q : Q} {queue}
      (hq : (s.queue q).Step capacity (.release t) queue) :
      Step serves thread capacity s { s with queue := Function.update s.queue q queue }
  | acquire {s : Objects M T O ε Q D} {d : D} {queue} (hphase : s.phase d = .waiting)
      (hq : (s.queue (serves d)).Step capacity (.acquire (thread d)) queue) :
      Step serves thread capacity s { s with queue := Function.update s.queue (serves d) queue }
  | dequeue {s : Objects M T O ε Q D} {d : D} {entry queue} (hphase : s.phase d = .waiting)
      (hfront : (s.queue (serves d)).queue.head? = some entry)
      (hq : (s.queue (serves d)).Step capacity (.pop (thread d)) queue) :
      Step serves thread capacity s { s with
        queue := Function.update s.queue (serves d) queue
        phase := Function.update s.phase d entry.received }
  | dispatched {s : Objects M T O ε Q D} {d : D} {entry}
      (hphase : s.phase d = .dispatching entry) :
      Step serves thread capacity s { s with phase := Function.update s.phase d .waiting }

/-- The states reached with no object registered. -/
inductive Reachable (serves : D → Q) (thread : D → T) (capacity : Option ℕ) :
    Objects M T O ε Q D → Prop
  | init : Reachable serves thread capacity {}
  | step {s s' : Objects M T O ε Q D} (hs : Reachable serves thread capacity s)
      (h : Step serves thread capacity s s') : Reachable serves thread capacity s'

/-- No object is dispatched to by two domains. -/
def Exclusive (s : Objects M T O ε Q D) : Prop :=
  ∀ d d' entry entry' o, s.phase d = .dispatching entry → s.phase d' = .dispatching entry' →
    entry.target = some o → entry'.target = some o → d = d'

/-- **The invariant**: entries, in a queue or in dispatch, are for objects of that queue. -/
structure Registered (serves : D → Q) (s : Objects M T O ε Q D) : Prop where
  queue {q : Q} {entry : QueueEntry O ε} {o : O} (he : entry ∈ (s.queue q).queue)
    (ho : entry.target = some o) : (s.object o).queue = some q
  phase {d : D} {entry : QueueEntry O ε} {o : O} (hd : s.phase d = .dispatching entry)
    (ho : entry.target = some o) : (s.object o).queue = some (serves d)

variable {serves : D → Q} {thread : D → T} {capacity : Option ℕ} {s s' : Objects M T O ε Q D}

omit [DecidableEq T] [DecidableEq O] [DecidableEq D] in
/-- A step of one queue after which its entries are old, or for one of its objects. -/
theorem Registered.update (hs : s.Registered serves) {q : Q}
    {queue : EventQueue M T (QueueEntry O ε)}
    (h : ∀ entry ∈ queue.queue, entry ∈ (s.queue q).queue ∨
      ∀ o, entry.target = some o → (s.object o).queue = some q) :
    Registered serves { s with queue := Function.update s.queue q queue } where
  queue {q'} {entry} {o} he ho := by
    obtain rfl | hne := eq_or_ne q' q
    · simp only [Function.update_self] at he
      obtain hold | hnew := h entry he
      · exact hs.queue hold ho
      · exact hnew o ho
    · simp only [Function.update_of_ne hne] at he
      exact hs.queue he ho
  phase hd ho := hs.phase hd ho

omit [DecidableEq T] [DecidableEq O] [DecidableEq Q] in
/-- A domain takes an entry of its queue, or lets one go. -/
theorem Registered.updatePhase (hs : s.Registered serves) {d : D} {phase : RunPhase O ε}
    (h : ∀ entry o, phase = .dispatching entry → entry.target = some o →
      (s.object o).queue = some (serves d)) :
    Registered serves { s with phase := Function.update s.phase d phase } where
  queue he ho := hs.queue he ho
  phase {d'} {entry} {o} hd ho := by
    obtain rfl | hne := eq_or_ne d' d
    · simp only [Function.update_self] at hd
      exact h entry o hd ho
    · simp only [Function.update_of_ne hne] at hd
      exact hs.phase hd ho

omit [DecidableEq T] [DecidableEq Q] [DecidableEq D] in
/-- An object without a queue is given one. -/
theorem Registered.setQueue (hs : s.Registered serves) {o : O} (hnone : (s.object o).queue = none)
    (object : ActiveObjectBase Q) :
    Registered serves { s with object := Function.update s.object o object } where
  queue {q} {entry} {o'} he ho := by
    have hqueue := hs.queue he ho
    have hne : o' ≠ o := by
      rintro rfl
      exact nomatch hnone.symm.trans hqueue
    simpa only [Function.update_of_ne hne] using hqueue
  phase {d} {entry} {o'} hd ho := by
    have hqueue := hs.phase hd ho
    have hne : o' ≠ o := by
      rintro rfl
      exact nomatch hnone.symm.trans hqueue
    simpa only [Function.update_of_ne hne] using hqueue

omit [DecidableEq T] [DecidableEq O] [DecidableEq Q] [DecidableEq D] in
theorem queue_of_takeInto {o : O} {q : Q} {object : ActiveObjectBase Q}
    (h : ActiveObjectBase.takeInto (s.object o) = .ok q object) : (s.object o).queue = some q := by
  rw [ActiveObjectBase.takeInto_eq] at h
  split at h
  · exact nomatch h
  · next queue hqueue =>
    obtain ⟨rfl, -⟩ := EStateM.Result.ok.inj h
    exact hqueue

/-- **One step.** -/
theorem Step.registered (hs : s.Registered serves) (h : Step serves thread capacity s s') :
    s'.Registered serves := by
  cases h with
  | setQueue h =>
    rw [ActiveObjectBase.setQueue_eq] at h
    split at h
    · next hnone => exact hs.setQueue hnone _
    · exact nomatch h
  | take h hq =>
    refine hs.update fun entry he => ?_
    rw [hq.queue_eq, List.mem_append, List.mem_singleton] at he
    refine he.imp_right ?_
    rintro rfl o ho
    obtain rfl := Option.some.inj ho
    exact queue_of_takeInto h
  | takeHighPrio h hq =>
    refine hs.update fun entry he => ?_
    rw [hq.queue_eq, List.mem_cons] at he
    refine he.symm.imp_right ?_
    rintro rfl o ho
    obtain rfl := Option.some.inj ho
    exact queue_of_takeInto h
  | stop hq =>
    refine hs.update fun entry he => ?_
    rw [hq.queue_eq, List.mem_append, List.mem_singleton] at he
    refine he.imp_right ?_
    rintro rfl o ho
    exact nomatch ho
  | release hq => exact hs.update fun entry he => .inl (hq.queue_eq ▸ he)
  | acquire hphase hq => exact hs.update fun entry he => .inl (hq.queue_eq ▸ he)
  | @dequeue d entry queue hphase hfront hq =>
    obtain ⟨e, he⟩ := hq.queue_eq
    have hmem : entry ∈ (s.queue (serves d)).queue := List.mem_of_mem_head? hfront
    have hupdate : Registered serves { s with queue := Function.update s.queue (serves d) queue } :=
      hs.update fun entry' he' => .inl (he ▸ List.mem_cons_of_mem e he')
    refine hupdate.updatePhase fun entry' o hreceived ho => ?_
    obtain rfl : entry' = entry := by
      unfold QueueEntry.received at hreceived
      split at hreceived
      · exact nomatch hreceived
      · exact (RunPhase.dispatching.inj hreceived).symm
    exact hs.queue hmem ho
  | dispatched hphase => exact hs.updatePhase fun entry o hreceived => nomatch hreceived

theorem Reachable.registered (h : Reachable serves thread capacity s) : s.Registered serves := by
  induction h with
  | init => exact ⟨fun he => absurd he List.not_mem_nil, fun hd => nomatch hd⟩
  | step _ hstep ih => exact hstep.registered ih

/-! ### Two domains with one queue -/

end Objects

/-- A queue that nobody is using. -/
structure EventQueue.Quiet {T E : Type} {max : ℕ} (q : EventQueue (stdSemaphore max) T E) :
    Prop where
  queue : q.queue = []
  sem : q.sem = SemState.counter 0
  enqueuing : q.enqueuing = ∅
  dequeuing : q.dequeuing = ∅

/-- One entry goes through a quiet queue. -/
theorem EventQueue.Quiet.handover {T E : Type} [DecidableEq T] {max : ℕ} {capacity : Option ℕ}
    {q : EventQueue (stdSemaphore max) T E} (h : q.Quiet) (hmax : 0 < max)
    (hcapacity : ∀ n, capacity = some n → 0 < n) (t t' : T) (e : E) :
    ∃ q₁ q₂ q₃ q₄ : EventQueue (stdSemaphore max) T E, q.Step capacity (.pushBack t e) q₁ ∧
      q₁.Step capacity (.release t) q₂ ∧ q₂.Step capacity (.acquire t') q₃ ∧
      q₃.queue.head? = some e ∧ q₃.Step capacity (.pop t') q₄ ∧ q₄.Quiet := by
  obtain ⟨queue, sem, enqueuing, dequeuing, history, results⟩ := q
  obtain ⟨rfl, rfl, rfl, rfl⟩ := h
  have hempty : (insert t ∅ : Finset T).erase t = ∅ := Finset.erase_insert (Finset.notMem_empty t)
  have hempty' : (insert t' ∅ : Finset T).erase t' = ∅ :=
    Finset.erase_insert (Finset.notMem_empty t')
  have hidle : t' ∉ (insert t ∅ : Finset T).erase t := by
    rw [hempty]
    exact Finset.notMem_empty t'
  refine ⟨_, _, _, _, .pushBack ⟨Finset.notMem_empty t, Finset.notMem_empty t⟩ hcapacity,
    .release (m := SemState.counter 1) (Finset.mem_insert_self t ∅) ⟨0, rfl, (if_pos hmax).symm⟩,
    .acquire (m := SemState.counter 0) ⟨hidle, Finset.notMem_empty t'⟩ ⟨0, rfl, rfl⟩, rfl,
    .pop (Finset.mem_insert_self t' ∅) rfl, rfl, rfl, hempty, hempty'⟩

namespace Objects

variable {T O ε Q D : Type} [DecidableEq T] [DecidableEq O] [DecidableEq Q] [DecidableEq D]
  {max : ℕ} {capacity : Option ℕ} {serves : D → Q} {thread : D → T}
  {s : Objects (stdSemaphore max) T O ε Q D}

/-- A domain with a quiet queue can be brought to dispatch to an object of the queue. -/
theorem Reachable.exists_dispatching (h : Reachable serves thread capacity s) (hmax : 0 < max)
    (hcapacity : ∀ n, capacity = some n → 0 < n) {d : D} {o : O}
    (ho : (s.object o).queue = some (serves d)) (hquiet : (s.queue (serves d)).Quiet)
    (hwaiting : s.phase d = .waiting) :
    ∃ s' : Objects (stdSemaphore max) T O ε Q D, Reachable serves thread capacity s' ∧
      s'.object = s.object ∧ (s'.queue (serves d)).Quiet ∧
      s'.phase = Function.update s.phase d (.dispatching ⟨some o, none⟩) := by
  obtain ⟨q₁, q₂, q₃, q₄, hpush, hrelease, hacquire, hfront, hpop, hquiet'⟩ :=
    hquiet.handover hmax hcapacity (thread d) (thread d) (⟨some o, none⟩ : QueueEntry O ε)
  have htake : ActiveObjectBase.takeInto (s.object o) = .ok (serves d) (s.object o) := by
    rw [ActiveObjectBase.takeInto_eq, ho]
  let after (queue) : Objects (stdSemaphore max) T O ε Q D :=
    { s with queue := Function.update s.queue (serves d) queue }
  have hself : ∀ queue, (after queue).queue (serves d) = queue :=
    fun queue => Function.update_self ..
  have hagain : ∀ queue queue', Function.update (after queue).queue (serves d) queue' =
      (after queue').queue := fun queue queue' => Function.update_idem ..
  have hpushed : Reachable serves thread capacity (after q₁) := h.step (.take htake hpush)
  have hreleased := hpushed.step (.release (q := serves d) ((hself q₁).symm ▸ hrelease))
  rw [hagain] at hreleased
  have hacquired := Reachable.step (s := after q₂) hreleased
    (.acquire (d := d) hwaiting ((hself q₂).symm ▸ hacquire))
  rw [hagain] at hacquired
  have hdispatching := Reachable.step (s := after q₃) hacquired
    (.dequeue (d := d) hwaiting ((hself q₃).symm ▸ hfront) ((hself q₃).symm ▸ hpop))
  rw [hagain] at hdispatching
  exact ⟨_, hdispatching, rfl, (hself q₄).symm ▸ hquiet', rfl⟩

/-- Two domains that share a queue can both be dispatching to an object of that queue. -/
theorem exists_not_exclusive [Nonempty O] (thread : D → T) (hmax : 0 < max)
    (hcapacity : ∀ n, capacity = some n → 0 < n) {d d' : D} (hne : d ≠ d')
    (hserves : serves d = serves d') :
    ∃ s : Objects (stdSemaphore max) T O ε Q D,
      Reachable serves thread capacity s ∧ ¬ s.Exclusive := by
  obtain ⟨o⟩ := ‹Nonempty O›
  have hset : ActiveObjectBase.setQueue (some (serves d)) {} = .ok () ⟨some (serves d)⟩ := rfl
  have hinit : Reachable (M := stdSemaphore max) (ε := ε) serves thread capacity _ :=
    .step .init (.setQueue (o := o) hset)
  have hobject :
      (Function.update (fun _ : O => ({} : ActiveObjectBase Q)) o ⟨some (serves d)⟩ o).queue
      = some (serves d) := by
    rw [Function.update_self]
  obtain ⟨s₁, h₁, hobject₁, hquiet₁, hphase₁⟩ :=
    hinit.exists_dispatching hmax hcapacity (d := d) (o := o) hobject ⟨rfl, rfl, rfl, rfl⟩ rfl
  -- the second domain finds the queue as the first has found it
  rw [hserves] at hquiet₁
  obtain ⟨s₂, h₂, -, -, hphase₂⟩ := h₁.exists_dispatching hmax hcapacity (d := d') (o := o)
    (by rw [hobject₁, ← hserves]; exact hobject) hquiet₁
    (by rw [hphase₁, Function.update_of_ne hne.symm])
  refine ⟨s₂, h₂, fun hexclusive => hne ?_⟩
  refine hexclusive d d' ⟨some o, none⟩ ⟨some o, none⟩ o ?_ ?_ rfl rfl
  · rw [hphase₂, Function.update_of_ne hne, hphase₁, Function.update_self]
  · rw [hphase₂, Function.update_self]

/-- **One thread at a time.** Objects are registered with one queue each, and threads take events
and dispatch them in any order. No object is ever dispatched to by two domains at the same time
if and only if no two domains have the same queue. -/
theorem exclusive_iff [Nonempty O] (hmax : 0 < max) (hcapacity : ∀ n, capacity = some n → 0 < n) :
    (∀ s : Objects (stdSemaphore max) T O ε Q D,
      Reachable serves thread capacity s → s.Exclusive) ↔ Function.Injective serves := by
  constructor
  · intro hall d d' hserves
    by_contra hne
    obtain ⟨s, h, hnot⟩ : ∃ s : Objects (stdSemaphore max) T O ε Q D,
        Reachable serves thread capacity s ∧ ¬ s.Exclusive :=
      exists_not_exclusive thread hmax hcapacity hne hserves
    exact hnot (hall s h)
  · intro hinj s h d d' entry entry' o hd hd' ho ho'
    have hqueue := h.registered.phase hd ho
    have hqueue' := h.registered.phase hd' ho'
    exact hinj (Option.some.inj (hqueue.symm.trans hqueue'))

/-- Two domains with a queue each keep apart, two domains with one queue do not. -/
theorem exclusive_iff_two :
    (∀ s : Objects (stdSemaphore 1) ℕ Bool ℕ Bool Bool,
      Reachable id Bool.toNat none s → s.Exclusive) ∧
    ¬ ∀ s : Objects (stdSemaphore 1) ℕ Bool ℕ Unit Bool,
      Reachable (fun _ => ()) Bool.toNat none s → s.Exclusive := by
  refine ⟨(exclusive_iff Nat.zero_lt_one (by simp)).mpr Function.injective_id, fun hall => ?_⟩
  have hinj := (exclusive_iff Nat.zero_lt_one (by simp)).mp hall
  exact Bool.false_ne_true (hinj rfl)

end Objects

end EventFramework.ActiveObjects
