import EventFramework.ActiveObjects.Registration
import EventFramework.ForMathlib.OwnershipGraph
import Mathlib.Data.Finset.Sum

/-!
# Who owns objects and queues

Objects and queues are owned by shared pointers. Apart from those that threads hold, a domain has
a pointer to its queue, an object has one to the queue it is registered with, an entry has one to
its target, and so has `Run` while it dispatches the entry. `Take` and `Dispatch` run on plain
references; the thread in them does nothing else meanwhile, so it keeps its pointer.

Nothing that is in use is ever destroyed (`reachable_alive`). But an object and its queue own each
other as long as an entry for the object is in the queue, so when the domain is gone those with
an entry are never destroyed, and all others are (`abandoned_leaks`).
-/

namespace EventFramework.ActiveObjects

open OwnershipGraph Relation

/-- The life of a domain object. -/
inductive DomainLife (T : Type)
  | unmade
  | running
  /-- in the destructor, which `t` executes -/
  | closing (t : T)
  | gone
  deriving DecidableEq, Repr

/-- The domain object exists, and has its pointer to the queue. -/
inductive DomainLife.HasQueue {T : Type} : DomainLife T → Prop
  | running : HasQueue .running
  | closing (t : T) : HasQueue (.closing t)

/-- Objects, queues and domains, and the shared pointers to the former two. -/
structure Heap (M : Semaphore) (T O ε Q D : Type) extends Objects M T O ε Q D where
  live : Finset (O ⊕ Q) := ∅
  /-- the shared pointers of each thread, those in data it keeps included -/
  pointers : T → Multiset (O ⊕ Q) := fun _ => 0
  life : D → DomainLife T := fun _ => .unmade

namespace Heap

section Owners

variable {M : Semaphore} {T O ε Q D : Type}

/-- Pointers that are not in objects or queues. -/
inductive Held (serves : D → Q) (s : Heap M T O ε Q D) : O ⊕ Q → Prop
  | pointer {t : T} {n : O ⊕ Q} (hn : n ∈ s.pointers t) : Held serves s n
  | domain {d : D} (hd : (s.life d).HasQueue) : Held serves s (.inr (serves d))
  | dispatch {d : D} {entry : QueueEntry O ε} {o : O} (hd : s.phase d = .dispatching entry)
      (ho : entry.target = some o) : Held serves s (.inl o)

/-- Pointers in objects, and in the entries of queues. -/
inductive Owns (s : Heap M T O ε Q D) : O ⊕ Q → O ⊕ Q → Prop
  | member {o : O} {q : Q} (h : (s.object o).queue = some q) : Owns s (.inl o) (.inr q)
  | entry {q : Q} {entry : QueueEntry O ε} {o : O} (he : entry ∈ (s.queue q).queue)
      (ho : entry.target = some o) : Owns s (.inr q) (.inl o)

@[simp] theorem owns_member {s : Heap M T O ε Q D} {o : O} {q : Q} :
    s.Owns (.inl o) (.inr q) ↔ (s.object o).queue = some q := by
  refine ⟨fun h => ?_, .member⟩
  obtain ⟨h⟩ := h
  exact h

@[simp] theorem owns_entry {s : Heap M T O ε Q D} {q : Q} {o : O} :
    s.Owns (.inr q) (.inl o) ↔ ∃ entry ∈ (s.queue q).queue, entry.target = some o := by
  refine ⟨fun h => ?_, fun ⟨entry, he, ho⟩ => .entry he ho⟩
  obtain _ | ⟨he, ho⟩ := h
  exact ⟨_, he, ho⟩

@[simp] theorem not_owns_object {s : Heap M T O ε Q D} {o o' : O} :
    ¬ s.Owns (.inl o) (.inl o') := by
  rintro ⟨⟩

@[simp] theorem not_owns_queue {s : Heap M T O ε Q D} {q q' : Q} :
    ¬ s.Owns (.inr q) (.inr q') := by
  rintro ⟨⟩

/-- The objects and queues, and their owners. -/
def graph (serves : D → Q) (s : Heap M T O ε Q D) : Graph (O ⊕ Q) :=
  ⟨s.live, s.Held serves, s.Owns⟩

/-- What thread `t` can refer to: what it has a pointer to, and the object it dispatches to. -/
inductive Access (thread : D → T) (s : Heap M T O ε Q D) (t : T) : O ⊕ Q → Prop
  | pointer {n : O ⊕ Q} (hn : n ∈ s.pointers t) : Access thread s t n
  | dispatch {d : D} {entry : QueueEntry O ε} {o : O} (hthread : thread d = t)
      (hd : s.phase d = .dispatching entry) (ho : entry.target = some o) :
      Access thread s t (.inl o)

/-- The thread is not in `EnqueueBack` or `EnqueueFront`. -/
def Idle (s : Heap M T O ε Q D) (t : T) : Prop := ∀ q, t ∉ (s.queue q).enqueuing

/-- How `t` can have come to enqueue in `q`: by `Take` of an object, or by `Stop`. -/
inductive Calling (serves : D → Q) (thread : D → T) (s : Heap M T O ε Q D) (t : T) (q : Q) : Prop
  | take {o : O} (ho : s.Access thread t (.inl o)) (hq : (s.object o).queue = some q)
  | stop {d : D} (hd : s.life d = .closing t) (hq : serves d = q)

/-- How `t` can have come to dequeue from `q`. -/
structure Popping (serves : D → Q) (thread : D → T) (s : Heap M T O ε Q D) (t : T) (q : Q)
    (d : D) : Prop where
  thread : thread d = t
  serves : serves d = q
  phase : s.phase d = .waiting
  life : (s.life d).HasQueue

end Owners

variable {M : Semaphore} {T O ε Q D : Type} [DecidableEq T] [DecidableEq O] [DecidableEq Q]
  [DecidableEq D]

/-- The destructor: the pointers of the object, or of the entries of the queue, go. -/
def destroy (n : O ⊕ Q) (s : Heap M T O ε Q D) : Heap M T O ε Q D :=
  match n with
  | .inl o => { s with live := s.live.erase n, object := Function.update s.object o {} }
  | .inr q => { s with live := s.live.erase n, queue := Function.update s.queue q {} }

/-- What nobody owns is destroyed. -/
inductive Destroy (serves : D → Q) : Heap M T O ε Q D → Heap M T O ε Q D → Prop
  | destroy {s : Heap M T O ε Q D} {n : O ⊕ Q} (hn : n ∈ s.live)
      (h : (s.graph serves).Unowned n) : Destroy serves s (s.destroy n)

/-- The steps. -/
inductive Step (serves : D → Q) (thread : D → T) (capacity : Option ℕ) :
    Heap M T O ε Q D → Heap M T O ε Q D → Prop
  -- pointers
  | make {s : Heap M T O ε Q D} {t : T} {n : O ⊕ Q} (hn : n ∉ s.live) :
      Step serves thread capacity s { s with
        live := insert n s.live
        pointers := Function.update s.pointers t (n ::ₘ s.pointers t) }
  | copy {s : Heap M T O ε Q D} {t t' : T} {n : O ⊕ Q} (hn : s.Access thread t n) :
      Step serves thread capacity s { s with
        pointers := Function.update s.pointers t' (n ::ₘ s.pointers t') }
  | drop {s : Heap M T O ε Q D} {t : T} {n : O ⊕ Q} (hidle : s.Idle t) :
      Step serves thread capacity s { s with
        pointers := Function.update s.pointers t ((s.pointers t).erase n) }
  | destroy {s s' : Heap M T O ε Q D} (h : Destroy serves s s') : Step serves thread capacity s s'
  -- domains
  | domain {s : Heap M T O ε Q D} {t : T} {d : D} (hd : s.life d = .unmade)
      (hq : .inr (serves d) ∈ s.pointers t) :
      Step serves thread capacity s { s with life := Function.update s.life d .running }
  | stop {s : Heap M T O ε Q D} {t : T} {d : D} {queue} (hd : s.life d = .running)
      (hidle : s.Idle t) (hq : (s.queue (serves d)).Step capacity (.pushBack t .stop) queue) :
      Step serves thread capacity s { s with
        life := Function.update s.life d (.closing t)
        queue := Function.update s.queue (serves d) queue }
  | joined {s : Heap M T O ε Q D} {t : T} {d : D} (hd : s.life d = .closing t)
      (hidle : s.Idle t) (hphase : s.phase d = .returned) :
      Step serves thread capacity s { s with life := Function.update s.life d .gone }
  -- objects
  | setQueue {s : Heap M T O ε Q D} {t : T} {o : O} {queue : Option Q} {object}
      (ho : s.Access thread t (.inl o))
      (hqueue : ∀ q, queue = some q → .inr q ∈ s.pointers t ∨
        ∃ d, (s.life d).HasQueue ∧ serves d = q)
      (h : ActiveObjectBase.setQueue queue (s.object o) = .ok () object) :
      Step serves thread capacity s { s with object := Function.update s.object o object }
  | take {s : Heap M T O ε Q D} {t : T} {o : O} {event : Option ε} {q : Q} {object queue}
      (ho : s.Access thread t (.inl o)) (hidle : s.Idle t)
      (h : ActiveObjectBase.takeInto (s.object o) = .ok q object)
      (hq : (s.queue q).Step capacity (.pushBack t ⟨some o, event⟩) queue) :
      Step serves thread capacity s { s with queue := Function.update s.queue q queue }
  | takeHighPrio {s : Heap M T O ε Q D} {t : T} {o : O} {event : Option ε} {q : Q} {object queue}
      (ho : s.Access thread t (.inl o)) (hidle : s.Idle t)
      (h : ActiveObjectBase.takeInto (s.object o) = .ok q object)
      (hq : (s.queue q).Step capacity (.pushFront t ⟨some o, event⟩) queue) :
      Step serves thread capacity s { s with queue := Function.update s.queue q queue }
  | release {s : Heap M T O ε Q D} {t : T} {q : Q} {queue}
      (hq : (s.queue q).Step capacity (.release t) queue) :
      Step serves thread capacity s { s with queue := Function.update s.queue q queue }
  -- the loop of `Run`
  | acquire {s : Heap M T O ε Q D} {d : D} {queue} (hd : (s.life d).HasQueue)
      (hphase : s.phase d = .waiting)
      (hq : (s.queue (serves d)).Step capacity (.acquire (thread d)) queue) :
      Step serves thread capacity s { s with queue := Function.update s.queue (serves d) queue }
  | dequeue {s : Heap M T O ε Q D} {d : D} {entry queue} (hd : (s.life d).HasQueue)
      (hphase : s.phase d = .waiting)
      (hfront : (s.queue (serves d)).queue.head? = some entry)
      (hq : (s.queue (serves d)).Step capacity (.pop (thread d)) queue) :
      Step serves thread capacity s { s with
        queue := Function.update s.queue (serves d) queue
        phase := Function.update s.phase d entry.received }
  | dispatched {s : Heap M T O ε Q D} {d : D} {entry}
      (hphase : s.phase d = .dispatching entry) (hidle : s.Idle (thread d)) :
      Step serves thread capacity s { s with phase := Function.update s.phase d .waiting }

/-- The states reached from the one in which nothing has been made. -/
inductive Reachable (serves : D → Q) (thread : D → T) (capacity : Option ℕ) :
    Heap M T O ε Q D → Prop
  | init : Reachable serves thread capacity {}
  | step {s s' : Heap M T O ε Q D} (hs : Reachable serves thread capacity s)
      (h : Step serves thread capacity s s') : Reachable serves thread capacity s'

/-- **The invariant.** -/
structure Sound (serves : D → Q) (thread : D → T) (s : Heap M T O ε Q D) : Prop where
  held {n : O ⊕ Q} (h : s.Held serves n) : n ∈ s.live
  owned {m n : O ⊕ Q} (h : s.Owns m n) : n ∈ s.live
  object {o : O} (h : .inl o ∉ s.live) : s.object o = {}
  queue {q : Q} (h : .inr q ∉ s.live) : s.queue q = {}
  registered : s.toObjects.Registered serves
  phase {d : D} {entry : QueueEntry O ε} (h : s.phase d = .dispatching entry) :
    (s.life d).HasQueue
  enqueuing {t : T} {q : Q} (h : t ∈ (s.queue q).enqueuing) : s.Calling serves thread t q
  dequeuing {t : T} {q : Q} (h : t ∈ (s.queue q).dequeuing) : ∃ d, s.Popping serves thread t q d

variable {serves : D → Q} {thread : D → T} {capacity : Option ℕ} {s s' : Heap M T O ε Q D}
  {t : T} {q : Q} {m n : O ⊕ Q}

/-! ### What steps keep -/

omit [DecidableEq T] [DecidableEq O] [DecidableEq Q] [DecidableEq D] in
theorem Access.held (h : s.Access thread t n) : s.Held serves n := by
  cases h with
  | pointer hn => exact .pointer hn
  | dispatch _ hd ho => exact .dispatch hd ho

omit [DecidableEq T] [DecidableEq O] [DecidableEq Q] [DecidableEq D] in
theorem Held.congr (h : s.Held serves n) (hpointers : s'.pointers = s.pointers)
    (hlife : s'.life = s.life) (hphase : s'.phase = s.phase) : s'.Held serves n := by
  cases h with
  | pointer hn => exact .pointer (hpointers ▸ hn)
  | domain hd => exact .domain (hlife ▸ hd)
  | dispatch hd ho => exact .dispatch (hphase ▸ hd) ho

omit [DecidableEq T] [DecidableEq O] [DecidableEq Q] [DecidableEq D] in
/-- The thread keeps what it needs in the operation. -/
theorem Calling.imp (h : s.Calling serves thread t q)
    (hpointers : ∀ n ∈ s.pointers t, n ∈ s'.pointers t)
    (hphase : ∀ d entry, thread d = t → s.phase d = .dispatching entry →
      s'.phase d = .dispatching entry)
    (hobject : ∀ o, s.Access thread t (.inl o) → (s.object o).queue = some q →
      (s'.object o).queue = some q)
    (hlife : ∀ d, s.life d = .closing t → s'.life d = .closing t) :
    s'.Calling serves thread t q := by
  cases h with
  | take ho hq =>
    refine .take ?_ (hobject _ ho hq)
    cases ho with
    | pointer hn => exact .pointer (hpointers _ hn)
    | dispatch hthread hd ho => exact .dispatch hthread (hphase _ _ hthread hd) ho
  | stop hd hq => exact .stop (hlife _ hd) hq

omit [DecidableEq T] [DecidableEq O] [DecidableEq Q] [DecidableEq D] in
theorem Popping.imp {d : D} (h : s.Popping serves thread t q d)
    (hphase : s.phase d = .waiting → s'.phase d = .waiting)
    (hlife : (s.life d).HasQueue → (s'.life d).HasQueue) : s'.Popping serves thread t q d :=
  ⟨h.thread, h.serves, hphase h.phase, hlife h.life⟩

omit [DecidableEq T] [DecidableEq O] [DecidableEq D] in
/-- A live queue changes. -/
theorem Sound.updateQueue (hs : s.Sound serves thread) (hlive : .inr q ∈ s.live)
    {queue : EventQueue M T (QueueEntry O ε)}
    (hentries : ∀ entry ∈ queue.queue, entry ∈ (s.queue q).queue ∨ ∀ o, entry.target = some o →
      .inl o ∈ s.live ∧ (s.object o).queue = some q)
    (henqueuing : ∀ t ∈ queue.enqueuing, t ∈ (s.queue q).enqueuing ∨ s.Calling serves thread t q)
    (hdequeuing : ∀ t ∈ queue.dequeuing, t ∈ (s.queue q).dequeuing ∨
      ∃ d, s.Popping serves thread t q d) :
    Sound serves thread { s with queue := Function.update s.queue q queue } where
  held h := hs.held (h.congr rfl rfl rfl)
  owned h := by
    cases h with
    | member h => exact hs.owned (.member h)
    | @entry q' entry o he ho =>
      obtain rfl | hne := eq_or_ne q' q
      · simp only [Function.update_self] at he
        obtain hold | hnew := hentries entry he
        · exact hs.owned (.entry hold ho)
        · exact (hnew o ho).1
      · simp only [Function.update_of_ne hne] at he
        exact hs.owned (.entry he ho)
  object h := hs.object h
  queue {q'} h := by
    have hne : q' ≠ q := fun heq => h (heq ▸ hlive)
    simpa only [Function.update_of_ne hne] using hs.queue h
  registered := hs.registered.update fun entry he =>
    (hentries entry he).imp_right fun hnew o ho => (hnew o ho).2
  phase h := hs.phase h
  enqueuing {t q'} h := by
    have hold : s.Calling serves thread t q' := by
      obtain rfl | hne := eq_or_ne q' q
      · simp only [Function.update_self] at h
        exact (henqueuing t h).elim hs.enqueuing id
      · simp only [Function.update_of_ne hne] at h
        exact hs.enqueuing h
    exact hold.imp (fun _ => id) (fun _ _ _ => id) (fun _ _ => id) fun _ => id
  dequeuing {t q'} h := by
    have hold : ∃ d, s.Popping serves thread t q' d := by
      obtain rfl | hne := eq_or_ne q' q
      · simp only [Function.update_self] at h
        exact (hdequeuing t h).elim hs.dequeuing id
      · simp only [Function.update_of_ne hne] at h
        exact hs.dequeuing h
    exact hold.imp fun d hd => hd.imp id id

omit [DecidableEq T] [DecidableEq O] [DecidableEq Q] [DecidableEq D] in
/-- Threads get pointers to what is live; those in an operation lose none. -/
theorem Sound.updatePointers (hs : s.Sound serves thread) {pointers : T → Multiset (O ⊕ Q)}
    (hlive : ∀ t, ∀ n ∈ pointers t, n ∈ s.live)
    (hkeep : ∀ t q, t ∈ (s.queue q).enqueuing → ∀ n ∈ s.pointers t, n ∈ pointers t) :
    Sound serves thread { s with pointers } where
  held h := by
    cases h with
    | pointer hn => exact hlive _ _ hn
    | domain hd => exact hs.held (.domain hd)
    | dispatch hd ho => exact hs.held (.dispatch hd ho)
  owned h := by
    cases h with
    | member h => exact hs.owned (.member h)
    | entry he ho => exact hs.owned (.entry he ho)
  object h := hs.object h
  queue h := hs.queue h
  registered := hs.registered
  phase h := hs.phase h
  enqueuing h := (hs.enqueuing h).imp (hkeep _ _ h) (fun _ _ _ => id) (fun _ _ => id) fun _ => id
  dequeuing h := (hs.dequeuing h).imp fun d hd => hd.imp id id

omit [DecidableEq T] [DecidableEq O] [DecidableEq Q] in
/-- A domain begins, goes on or ends; it does not end while a thread needs it. -/
theorem Sound.updateLife (hs : s.Sound serves thread) {d : D} {life : DomainLife T}
    (hlive : life.HasQueue → .inr (serves d) ∈ s.live)
    (hrun : (s.life d).HasQueue → life.HasQueue ∨ s.phase d = .returned)
    (hclosing : ∀ t q, t ∈ (s.queue q).enqueuing → s.life d ≠ .closing t) :
    Sound serves thread { s with life := Function.update s.life d life } := by
  have hlife : ∀ d', (s.life d').HasQueue → s.phase d' ≠ .returned →
      (Function.update s.life d life d').HasQueue := by
    intro d' hd' hphase
    obtain rfl | hne := eq_or_ne d' d
    · rw [Function.update_self]
      exact (hrun hd').resolve_right hphase
    · rwa [Function.update_of_ne hne]
  constructor
  case held =>
    rintro n (hn | @⟨d', hd'⟩ | ⟨hd', ho⟩)
    · exact hs.held (.pointer hn)
    · obtain rfl | hne := eq_or_ne d' d
      · simp only [Function.update_self] at hd'
        exact hlive hd'
      · simp only [Function.update_of_ne hne] at hd'
        exact hs.held (.domain hd')
    · exact hs.held (.dispatch hd' ho)
  case owned =>
    rintro m n (h | ⟨he, ho⟩)
    · exact hs.owned (.member h)
    · exact hs.owned (.entry he ho)
  case object => exact hs.object
  case queue => exact hs.queue
  case registered => exact hs.registered
  case phase =>
    intro d' entry h
    refine hlife d' (hs.phase h) fun hreturned => ?_
    exact absurd (h.symm.trans hreturned) (by simp)
  case enqueuing =>
    intro t q h
    refine (hs.enqueuing h).imp (fun _ => id) (fun _ _ _ => id) (fun _ _ => id) fun d' hd' => ?_
    have hne : d' ≠ d := by
      rintro rfl
      exact hclosing t q h hd'
    simpa only [Function.update_of_ne hne] using hd'
  case dequeuing =>
    intro t q h
    obtain ⟨d', hd'⟩ := hs.dequeuing h
    exact ⟨d', hd'.imp id fun hqueue => hlife d' hqueue (by simp [hd'.phase])⟩

omit [DecidableEq T] [DecidableEq O] [DecidableEq Q] in
/-- A domain takes an entry of its queue, or has dispatched one. -/
theorem Sound.updatePhase (hs : s.Sound serves thread) {d : D} {phase : RunPhase O ε}
    (hdispatching : ∀ entry, phase = .dispatching entry → (s.life d).HasQueue ∧
      ∀ o, entry.target = some o → .inl o ∈ s.live ∧ (s.object o).queue = some (serves d))
    (henqueuing : ∀ entry q, s.phase d = .dispatching entry → thread d ∉ (s.queue q).enqueuing)
    (hdequeuing : s.phase d = .waiting → thread d ∉ (s.queue (serves d)).dequeuing) :
    Sound serves thread { s with phase := Function.update s.phase d phase } := by
  have hphase : ∀ d' entry, Function.update s.phase d phase d' = .dispatching entry →
      (s.life d').HasQueue ∧
      ∀ o, entry.target = some o → .inl o ∈ s.live ∧ (s.object o).queue = some (serves d') := by
    intro d' entry h
    obtain rfl | hne := eq_or_ne d' d
    · rw [Function.update_self] at h
      exact hdispatching entry h
    · rw [Function.update_of_ne hne] at h
      exact ⟨hs.phase h, fun o ho => ⟨hs.held (.dispatch h ho), hs.registered.phase h ho⟩⟩
  constructor
  case held =>
    rintro n (hn | hd' | ⟨hd', ho⟩)
    · exact hs.held (.pointer hn)
    · exact hs.held (.domain hd')
    · exact ((hphase _ _ hd').2 _ ho).1
  case owned =>
    rintro m n (h | ⟨he, ho⟩)
    · exact hs.owned (.member h)
    · exact hs.owned (.entry he ho)
  case object => exact hs.object
  case queue => exact hs.queue
  case registered => exact ⟨hs.registered.queue, fun hd' ho => ((hphase _ _ hd').2 _ ho).2⟩
  case phase => exact fun {d' entry} h => (hphase d' entry h).1
  case enqueuing =>
    intro t q h
    refine (hs.enqueuing h).imp (fun _ => id) (fun d' entry hthread hd' => ?_) (fun _ _ => id)
      fun _ => id
    have hne : d' ≠ d := by
      rintro rfl
      exact henqueuing entry q hd' (hthread ▸ h)
    simpa only [Function.update_of_ne hne] using hd'
  case dequeuing =>
    intro t q h
    obtain ⟨d', hd'⟩ := hs.dequeuing h
    refine ⟨d', hd'.imp (fun hwaiting => ?_) id⟩
    have hne : d' ≠ d := by
      rintro rfl
      refine hdequeuing hwaiting ?_
      rw [hd'.thread, hd'.serves]
      exact h
    simpa only [Function.update_of_ne hne] using hwaiting

omit [DecidableEq T] [DecidableEq Q] [DecidableEq D] in
/-- A live object without a queue is given one. -/
theorem Sound.updateObject (hs : s.Sound serves thread) {o : O} (hlive : .inl o ∈ s.live)
    (hnone : (s.object o).queue = none) {object : ActiveObjectBase Q}
    (hobject : ∀ q, object.queue = some q → .inr q ∈ s.live) :
    Sound serves thread { s with object := Function.update s.object o object } where
  held h := hs.held (h.congr rfl rfl rfl)
  owned h := by
    cases h with
    | @member o' q h =>
      obtain rfl | hne := eq_or_ne o' o
      · simp only [Function.update_self] at h
        exact hobject q h
      · simp only [Function.update_of_ne hne] at h
        exact hs.owned (.member h)
    | entry he ho => exact hs.owned (.entry he ho)
  object {o'} h := by
    have hne : o' ≠ o := fun heq => h (heq ▸ hlive)
    simpa only [Function.update_of_ne hne] using hs.object h
  queue h := hs.queue h
  registered := hs.registered.setQueue hnone object
  phase h := hs.phase h
  enqueuing {t q} h := by
    refine (hs.enqueuing h).imp (fun _ => id) (fun _ _ _ => id) (fun o' _ hq => ?_) fun _ => id
    have hne : o' ≠ o := fun heq => Option.some_ne_none q (hq.symm.trans (heq ▸ hnone))
    simpa only [Function.update_of_ne hne] using hq
  dequeuing h := (hs.dequeuing h).imp fun d hd => hd.imp id id

omit [DecidableEq T] [DecidableEq O] [DecidableEq Q] [DecidableEq D] in
/-- More is live. -/
theorem Sound.mono (hs : s.Sound serves thread) {live : Finset (O ⊕ Q)} (hlive : s.live ⊆ live) :
    Sound serves thread { s with live } where
  held h := hlive (hs.held (h.congr rfl rfl rfl))
  owned h := by
    cases h with
    | member h => exact hlive (hs.owned (.member h))
    | entry he ho => exact hlive (hs.owned (.entry he ho))
  object h := hs.object fun hmem => h (hlive hmem)
  queue h := hs.queue fun hmem => h (hlive hmem)
  registered := hs.registered
  phase h := hs.phase h
  enqueuing h := (hs.enqueuing h).imp (fun _ => id) (fun _ _ _ => id) (fun _ _ => id) fun _ => id
  dequeuing h := (hs.dequeuing h).imp fun d hd => hd.imp id id

omit [DecidableEq T] [DecidableEq Q] [DecidableEq D] in
/-- An object nobody owns is reset. -/
theorem Sound.resetObject (hs : s.Sound serves thread) {o : O}
    (hunowned : (s.graph serves).Unowned (.inl o)) :
    Sound serves thread { s with object := Function.update s.object o {} } where
  held h := hs.held (h.congr rfl rfl rfl)
  owned h := by
    cases h with
    | @member o' q h =>
      have hne : o' ≠ o := by
        rintro rfl
        simp only [Function.update_self] at h
        exact Option.some_ne_none q h.symm
      simp only [Function.update_of_ne hne] at h
      exact hs.owned (.member h)
    | entry he ho => exact hs.owned (.entry he ho)
  object {o'} h := by
    obtain rfl | hne := eq_or_ne o' o
    · exact Function.update_self ..
    · simpa only [Function.update_of_ne hne] using hs.object h
  queue h := hs.queue h
  registered :=
    { queue := fun {q entry o'} he ho => by
        have hne : o' ≠ o := by
          rintro rfl
          exact hunowned.owns _ (.entry he ho)
        simpa only [Function.update_of_ne hne] using hs.registered.queue he ho
      phase := fun {d entry o'} hd ho => by
        have hne : o' ≠ o := by
          rintro rfl
          exact hunowned.held (.dispatch hd ho)
        simpa only [Function.update_of_ne hne] using hs.registered.phase hd ho }
  phase h := hs.phase h
  enqueuing {t q} h := by
    refine (hs.enqueuing h).imp (fun _ => id) (fun _ _ _ => id) (fun o' ho' hq => ?_) fun _ => id
    have hne : o' ≠ o := by
      rintro rfl
      exact hunowned.held ho'.held
    simpa only [Function.update_of_ne hne] using hq
  dequeuing h := (hs.dequeuing h).imp fun d hd => hd.imp id id

omit [DecidableEq T] [DecidableEq D] in
/-- What nobody owns goes, after its reset. -/
theorem Sound.erase (hs : s.Sound serves thread) (hunowned : (s.graph serves).Unowned n)
    (hobject : ∀ o, n = .inl o → s.object o = {}) (hqueue : ∀ q, n = .inr q → s.queue q = {}) :
    Sound serves thread { s with live := s.live.erase n } where
  held {m} h := by
    have hold : s.Held serves m := h.congr rfl rfl rfl
    refine Finset.mem_erase.mpr ⟨?_, hs.held hold⟩
    rintro rfl
    exact hunowned.held hold
  owned {m k} h := by
    have hold : s.Owns m k := by
      cases h with
      | member h => exact .member h
      | entry he ho => exact .entry he ho
    refine Finset.mem_erase.mpr ⟨?_, hs.owned hold⟩
    rintro rfl
    exact hunowned.owns m hold
  object {o} h := by
    obtain heq | hne := eq_or_ne (.inl o) n
    · exact hobject o heq.symm
    · exact hs.object fun hmem => h (Finset.mem_erase.mpr ⟨hne, hmem⟩)
  queue {q} h := by
    obtain heq | hne := eq_or_ne (.inr q) n
    · exact hqueue q heq.symm
    · exact hs.queue fun hmem => h (Finset.mem_erase.mpr ⟨hne, hmem⟩)
  registered := hs.registered
  phase h := hs.phase h
  enqueuing h := (hs.enqueuing h).imp (fun _ => id) (fun _ _ _ => id) (fun _ _ => id) fun _ => id
  dequeuing h := (hs.dequeuing h).imp fun d hd => hd.imp id id

omit [DecidableEq T] [DecidableEq D] in
theorem Destroy.sound (hs : s.Sound serves thread) (h : Destroy serves s s') :
    s'.Sound serves thread := by
  obtain @⟨n, hn, hunowned⟩ := h
  obtain o | q := n
  · have hreset := hs.resetObject hunowned
    refine hreset.erase ⟨fun h => hunowned.held (h.congr rfl rfl rfl), fun m hm => ?_⟩ ?_ ?_
    · cases hm with
      | entry he ho => exact hunowned.owns _ (.entry he ho)
    · rintro o' heq
      obtain rfl := Sum.inl.inj heq
      exact Function.update_self ..
    · exact fun q heq => absurd heq (by simp)
  · have hreset : Sound serves thread { s with queue := Function.update s.queue q {} } :=
      hs.updateQueue hn (fun _ he => absurd he List.not_mem_nil)
        (fun _ ht => absurd ht (Finset.notMem_empty _))
        fun _ ht => absurd ht (Finset.notMem_empty _)
    refine hreset.erase ⟨fun h => hunowned.held (h.congr rfl rfl rfl), fun m hm => ?_⟩ ?_ ?_
    · cases hm with
      | member h => exact hunowned.owns _ (.member h)
    · exact fun o heq => absurd heq (by simp)
    · rintro q' heq
      obtain rfl := Sum.inr.inj heq
      exact Function.update_self ..

omit [DecidableEq O] [DecidableEq Q] [DecidableEq D] in
/-- A thread gets a pointer. -/
theorem Sound.gain (hs : s.Sound serves thread) (t : T) (hn : n ∈ s.live) :
    Sound serves thread { s with
      pointers := Function.update s.pointers t (n ::ₘ s.pointers t) } := by
  refine hs.updatePointers ?_ ?_
  · intro t' k hk
    obtain rfl | hne := eq_or_ne t' t
    · rw [Function.update_self] at hk
      obtain rfl | hk := Multiset.mem_cons.mp hk
      · exact hn
      · exact hs.held (.pointer hk)
    · rw [Function.update_of_ne hne] at hk
      exact hs.held (.pointer hk)
  · intro t' q ht k hk
    obtain rfl | hne := eq_or_ne t' t
    · rw [Function.update_self]
      exact Multiset.mem_cons_of_mem hk
    · rwa [Function.update_of_ne hne]

omit [DecidableEq D] in
/-- A thread in an idle moment lets a pointer go. -/
theorem Sound.drop (hs : s.Sound serves thread) (hidle : s.Idle t) (n : O ⊕ Q) :
    Sound serves thread { s with
      pointers := Function.update s.pointers t ((s.pointers t).erase n) } := by
  refine hs.updatePointers ?_ ?_
  · intro t' k hk
    obtain rfl | hne := eq_or_ne t' t
    · rw [Function.update_self] at hk
      exact hs.held (.pointer (Multiset.mem_of_mem_erase hk))
    · rw [Function.update_of_ne hne] at hk
      exact hs.held (.pointer hk)
  · intro t' q ht k hk
    have hne : t' ≠ t := fun heq => hidle q (heq ▸ ht)
    rwa [Function.update_of_ne hne]

omit [DecidableEq O] [DecidableEq D] in
/-- The locked half of an enqueue operation. -/
theorem Sound.push (hs : s.Sound serves thread) {entry : QueueEntry O ε}
    {l : Label T (QueueEntry O ε)} {queue : EventQueue M T (QueueEntry O ε)}
    (hlive : .inr q ∈ s.live) (hcalling : s.Calling serves thread t q)
    (htarget : ∀ o, entry.target = some o → .inl o ∈ s.live ∧ (s.object o).queue = some q)
    (hl : l = .pushBack t entry ∨ l = .pushFront t entry)
    (hq : (s.queue q).Step capacity l queue) :
    Sound serves thread { s with queue := Function.update s.queue q queue } := by
  have hqueue : (∀ e ∈ queue.queue, e ∈ (s.queue q).queue ∨ e = entry) ∧
      queue.enqueuing = insert t (s.queue q).enqueuing ∧
      queue.dequeuing = (s.queue q).dequeuing := by
    obtain rfl | rfl := hl
    · refine ⟨fun e he => ?_, ?_⟩
      · rwa [hq.queue_eq, List.mem_append, List.mem_singleton] at he
      · cases hq with
        | pushBack ht hroom => exact ⟨rfl, rfl⟩
    · refine ⟨fun e he => ?_, ?_⟩
      · rwa [hq.queue_eq, List.mem_cons, or_comm] at he
      · cases hq with
        | pushFront ht hroom => exact ⟨rfl, rfl⟩
  obtain ⟨hentries, henqueuing, hdequeuing⟩ := hqueue
  refine hs.updateQueue hlive (fun e he => ?_) (fun t' ht' => ?_) fun t' ht' =>
    .inl (hdequeuing ▸ ht')
  · refine (hentries e he).imp_right ?_
    rintro rfl
    exact htarget
  · rw [henqueuing] at ht'
    obtain rfl | hold := Finset.mem_insert.mp ht'
    · exact .inr hcalling
    · exact .inl hold

omit [DecidableEq T] [DecidableEq O] [DecidableEq Q] [DecidableEq D] in
/-- The queue of an object that a thread can refer to. -/
theorem Sound.live_of_takeInto (hs : s.Sound serves thread) {o : O} {object : ActiveObjectBase Q}
    (ho : s.Access thread t (.inl o))
    (h : ActiveObjectBase.takeInto (s.object o) = .ok q object) :
    .inl o ∈ s.live ∧ (s.object o).queue = some q ∧ .inr q ∈ s.live := by
  have hqueue := Objects.queue_of_takeInto (s := s.toObjects) h
  exact ⟨hs.held ho.held, hqueue, hs.owned (.member hqueue)⟩

omit [DecidableEq O] in
theorem received_eq {entry entry' : QueueEntry O ε} (h : entry.received = .dispatching entry') :
    entry' = entry := by
  have htarget : entry.target ≠ none := by
    intro hnone
    rw [Domain.received_eq_returned.mpr hnone] at h
    exact absurd h (by simp)
  rw [Domain.received_of_target htarget] at h
  exact (RunPhase.dispatching.inj h).symm

/-! ### The invariant -/

/-- **One step.** -/
theorem Step.sound (hs : s.Sound serves thread) (h : Step serves thread capacity s s') :
    s'.Sound serves thread := by
  cases h with
  | @make t n hn =>
    exact (hs.mono (Finset.subset_insert n _)).gain t (Finset.mem_insert_self n _)
  | @copy t t' n hn => exact hs.gain t' (hs.held hn.held)
  | drop hidle => exact hs.drop hidle _
  | destroy h => exact h.sound hs
  | domain hd hq =>
    refine hs.updateLife (fun _ => hs.held (.pointer hq)) (fun _ => .inl .running) fun t q ht => ?_
    simp [hd]
  | @stop t d queue hd hidle hq =>
    have hlive : .inr (serves d) ∈ s.live := hs.held (.domain (hd ▸ .running))
    have hclosing : Sound serves thread { s with life := Function.update s.life d (.closing t) } :=
      hs.updateLife (fun _ => hlive) (fun _ => .inl (.closing t)) fun t q ht => by simp [hd]
    exact hclosing.push hlive (.stop (d := d) (Function.update_self ..) rfl)
      (fun o ho => absurd ho.symm (Option.some_ne_none o)) (.inl rfl) hq
  | @joined t d hd hidle hphase =>
    refine hs.updateLife (fun h => ?_) (fun _ => .inr hphase) fun t' q ht' heq => ?_
    · rcases h
    · obtain rfl := DomainLife.closing.inj (hd.symm.trans heq)
      exact hidle q ht'
  | @setQueue t o queue object ho hqueue h =>
    rw [ActiveObjectBase.setQueue_eq] at h
    split at h
    · next hnone =>
      obtain ⟨-, rfl⟩ := EStateM.Result.ok.inj h
      refine hs.updateObject (hs.held ho.held) hnone fun q hq => ?_
      obtain hq | ⟨d, hd, rfl⟩ := hqueue q hq
      · exact hs.held (.pointer hq)
      · exact hs.held (.domain hd)
    · exact absurd h (by simp)
  | take ho hidle h hq =>
    obtain ⟨hobject, hqueue, hlive⟩ := hs.live_of_takeInto ho h
    refine hs.push hlive (.take ho hqueue) (fun o' ho' => ?_) (.inl rfl) hq
    obtain rfl := Option.some.inj ho'
    exact ⟨hobject, hqueue⟩
  | takeHighPrio ho hidle h hq =>
    obtain ⟨hobject, hqueue, hlive⟩ := hs.live_of_takeInto ho h
    refine hs.push hlive (.take ho hqueue) (fun o' ho' => ?_) (.inr rfl) hq
    obtain rfl := Option.some.inj ho'
    exact ⟨hobject, hqueue⟩
  | @release t q queue hq =>
    have hqueue : t ∈ (s.queue q).enqueuing ∧ queue.dequeuing = (s.queue q).dequeuing ∧
        queue.enqueuing = (s.queue q).enqueuing.erase t := by
      cases hq with
      | release ht hm => exact ⟨ht, rfl, rfl⟩
    obtain ⟨ht, hdequeuing, henqueuing⟩ := hqueue
    have hlive : .inr q ∈ s.live := by
      by_contra hnot
      rw [hs.queue hnot] at ht
      exact absurd ht (Finset.notMem_empty t)
    exact hs.updateQueue hlive (fun entry he => .inl (hq.queue_eq ▸ he))
      (fun t' ht' => .inl (Finset.mem_of_mem_erase (henqueuing ▸ ht')))
      fun t' ht' => .inl (hdequeuing ▸ ht')
  | @acquire d queue hd hphase hq =>
    refine hs.updateQueue (hs.held (.domain hd)) (fun entry he => .inl (hq.queue_eq ▸ he)) ?_ ?_
    · cases hq with
      | acquire ht hm => exact fun t' ht' => .inl ht'
    · cases hq with
      | acquire ht hm =>
        intro t' ht'
        obtain rfl | hold := Finset.mem_insert.mp ht'
        · exact .inr ⟨d, rfl, rfl, hphase, hd⟩
        · exact .inl hold
  | @dequeue d entry queue hd hphase hfront hq =>
    have hmem : entry ∈ (s.queue (serves d)).queue := List.mem_of_mem_head? hfront
    obtain ⟨e, he⟩ := hq.queue_eq
    have hqueue : queue.enqueuing = (s.queue (serves d)).enqueuing ∧
        queue.dequeuing = (s.queue (serves d)).dequeuing.erase (thread d) := by
      cases hq with
      | pop ht he => exact ⟨rfl, rfl⟩
    obtain ⟨henqueuing, hdequeuing⟩ := hqueue
    have hupdate := hs.updateQueue (hs.held (.domain hd))
      (fun entry' he' => .inl (he ▸ List.mem_cons_of_mem e he'))
      (fun t ht => .inl (henqueuing ▸ ht))
      fun t ht => .inl (Finset.mem_of_mem_erase (hdequeuing ▸ ht))
    refine hupdate.updatePhase (fun entry' hreceived => ⟨hd, fun o ho => ?_⟩)
      (fun entry' q hdispatching => ?_) fun _ => ?_
    · obtain rfl := received_eq hreceived
      exact ⟨hs.owned (.entry hmem ho), hs.registered.queue hmem ho⟩
    · exact absurd (hphase.symm.trans hdispatching) (by simp)
    · simp only [Function.update_self, hdequeuing]
      exact Finset.notMem_erase _ _
  | @dispatched d entry hphase hidle =>
    refine hs.updatePhase (fun entry' h => absurd h (by simp)) (fun _ q _ => hidle q) fun h => ?_
    exact absurd (hphase.symm.trans h) (by simp)

theorem Reachable.sound (h : Reachable serves thread capacity s) : s.Sound serves thread := by
  induction h with
  | init =>
    constructor
    case held =>
      rintro n (hn | hd | ⟨hd, ho⟩)
      · exact absurd hn (Multiset.notMem_zero _)
      · rcases hd
      · exact absurd hd (by simp)
    case owned =>
      rintro m n (h | ⟨he, ho⟩)
      · exact absurd h.symm (Option.some_ne_none _)
      · exact absurd he List.not_mem_nil
    case object => exact fun _ => rfl
    case queue => exact fun _ => rfl
    case registered =>
      exact ⟨fun he => absurd he List.not_mem_nil, fun hd => absurd hd (by simp)⟩
    case phase => exact fun hd => absurd hd (by simp)
    case enqueuing => exact fun ht => absurd ht (Finset.notMem_empty _)
    case dequeuing => exact fun ht => absurd ht (Finset.notMem_empty _)
  | step _ hstep ih => exact hstep.sound ih

/-! ### What is destroyed -/

omit [DecidableEq T] [DecidableEq D] in
/-- The destructor takes the node and its pointers out of the graph. -/
theorem graph_destroy (serves : D → Q) (s : Heap M T O ε Q D) (n : O ⊕ Q) :
    (s.destroy n).graph serves = (s.graph serves).destroy n := by
  have hheld : (s.destroy n).Held serves = s.Held serves := by
    funext k
    obtain o | q := n
    · exact propext ⟨fun h => h.congr rfl rfl rfl, fun h => h.congr rfl rfl rfl⟩
    · exact propext ⟨fun h => h.congr rfl rfl rfl, fun h => h.congr rfl rfl rfl⟩
  have howns : (s.destroy n).Owns = fun m k => m ≠ n ∧ s.Owns m k := by
    funext m k
    refine propext ?_
    obtain o | q := n
    · obtain o' | q' := m <;> obtain o'' | q'' := k <;> simp [destroy]
      obtain rfl | hne := eq_or_ne o' o <;> simp [*]
    · obtain o' | q' := m <;> obtain o'' | q'' := k <;> simp [destroy]
      obtain rfl | hne := eq_or_ne q' q <;> simp [*]
  obtain o | q := n <;>
  · rw [graph, hheld, howns]
    rfl

/-- Nothing is left to destroy. -/
def Settled (serves : D → Q) (s : Heap M T O ε Q D) : Prop := (s.graph serves).Settled

omit [DecidableEq T] [DecidableEq D] in
theorem graph_run (h : ReflTransGen (Destroy serves) s s') :
    ReflTransGen Graph.Destroy (s.graph serves) (s'.graph serves) := by
  refine h.lift (graph serves) ?_
  rintro s _ @⟨n, hn, hunowned⟩
  have hstep : Graph.Destroy (s.graph serves) ((s.destroy n).graph serves) := by
    rw [graph_destroy]
    exact .destroy hn hunowned
  exact hstep

omit [DecidableEq T] [DecidableEq D] in
/-- What can happen to the graph can happen to the objects and queues. -/
theorem exists_run {g : Graph (O ⊕ Q)} (h : ReflTransGen Graph.Destroy (s.graph serves) g) :
    ∃ s', ReflTransGen (Destroy serves) s s' ∧ s'.graph serves = g := by
  induction h with
  | refl => exact ⟨s, .refl, rfl⟩
  | tail _ hstep ih =>
    obtain ⟨s', hrun, rfl⟩ := ih
    obtain ⟨hn, hunowned⟩ := hstep
    exact ⟨_, hrun.tail (.destroy hn hunowned), graph_destroy serves s' _⟩

omit [DecidableEq T] [DecidableEq O] [DecidableEq Q] [DecidableEq D] in
theorem Sound.ownersLive (hs : s.Sound serves thread) : (s.graph serves).OwnersLive := by
  rintro m n (@⟨o, q, h⟩ | @⟨q, entry, o, he, ho⟩)
  · by_contra hnot
    rw [hs.object hnot] at h
    exact Option.some_ne_none q h.symm
  · by_contra hnot
    rw [hs.queue hnot] at he
    exact absurd he List.not_mem_nil

/-- Nobody is left to use objects and queues: no thread has a pointer, and there is no domain. -/
structure Abandoned (s : Heap M T O ε Q D) : Prop where
  pointers (t : T) : s.pointers t = 0
  life (d : D) : ¬ (s.life d).HasQueue

/-- Objects with an entry in a queue, and queues with an entry for an object. -/
inductive Pending (s : Heap M T O ε Q D) : O ⊕ Q → Prop
  | object {q : Q} {entry : QueueEntry O ε} {o : O} (he : entry ∈ (s.queue q).queue)
      (ho : entry.target = some o) : Pending s (.inl o)
  | queue {q : Q} {entry : QueueEntry O ε} {o : O} (he : entry ∈ (s.queue q).queue)
      (ho : entry.target = some o) : Pending s (.inr q)

omit [DecidableEq T] [DecidableEq O] [DecidableEq Q] [DecidableEq D] in
theorem Sound.not_held (hs : s.Sound serves thread) (ha : s.Abandoned) : ¬ s.Held serves n := by
  rintro (hn | hd | ⟨hd, -⟩)
  · rw [ha.pointers] at hn
    exact absurd hn (Multiset.notMem_zero _)
  · exact ha.life _ hd
  · exact ha.life _ (hs.phase hd)

omit [DecidableEq T] [DecidableEq O] [DecidableEq Q] [DecidableEq D] in
/-- An object with an entry and its queue own each other. -/
theorem Sound.not_freed (hs : s.Sound serves thread) (h : s.Pending n) :
    ¬ (s.graph serves).Freed n := by
  obtain ⟨he, ho⟩ | ⟨he, ho⟩ := h
  · have hmember := hs.registered.queue he ho
    exact Graph.not_freed_of_cycle (.head (.member hmember) (.single (.entry he ho)))
  · have hmember := hs.registered.queue he ho
    exact Graph.not_freed_of_cycle (.head (.entry he ho) (.single (.member hmember)))

omit [DecidableEq T] [DecidableEq O] [DecidableEq Q] [DecidableEq D] in
theorem Sound.freed_iff (hs : s.Sound serves thread) (ha : s.Abandoned) :
    (s.graph serves).Freed n ↔ ¬ s.Pending n := by
  refine ⟨fun hfreed hpending => hs.not_freed hpending hfreed, fun h => ?_⟩
  have hobject : ∀ o, ¬ s.Pending (.inl o) → (s.graph serves).Freed (.inl o) := by
    refine fun o ho => ⟨hs.not_held ha, fun m hm => ?_⟩
    obtain _ | ⟨he, htarget⟩ := hm
    exact absurd (.object he htarget) ho
  obtain o | q := n
  · exact hobject o h
  · refine ⟨hs.not_held ha, fun m hm => ?_⟩
    obtain @⟨o, _, hmember⟩ := hm
    refine hobject o fun hpending => h ?_
    obtain ⟨he, ho⟩ := hpending
    obtain rfl := Option.some.inj ((hs.registered.queue he ho).symm.trans hmember)
    exact .queue he ho

/-! ### What is forgotten -/

/-- Nothing outside refers to the queue, or to an object of it. -/
structure Forgotten (serves : D → Q) (q : Q) (s : Heap M T O ε Q D) : Prop where
  queue : ¬ s.Held serves (.inr q)
  object {o : O} (h : (s.object o).queue = some q) : ¬ s.Held serves (.inl o)

omit [DecidableEq T] [DecidableEq O] [DecidableEq Q] [DecidableEq D] in
/-- A step that gives nobody a way to the queue. -/
theorem Forgotten.congr (hf : s.Forgotten serves q)
    (hheld : ∀ n, s'.Held serves n → s.Held serves n ∨
      n ≠ .inr q ∧ ∀ o, n = .inl o → (s.object o).queue ≠ some q)
    (hobject : ∀ o, (s'.object o).queue = some q → (s.object o).queue = some q) :
    s'.Forgotten serves q where
  queue h := (hheld _ h).elim hf.queue fun hnew => hnew.1 rfl
  object {o} ho h := (hheld _ h).elim (hf.object (hobject o ho)) fun hnew =>
    hnew.2 o rfl (hobject o ho)

omit [DecidableEq T] [DecidableEq O] [DecidableEq D] in
/-- Another queue changes, or this one without its entries. -/
theorem Forgotten.updateQueue (hf : s.Forgotten serves q) {q' : Q}
    {queue : EventQueue M T (QueueEntry O ε)}
    (h : q' = q → queue.queue = (s.queue q).queue) :
    Forgotten serves q { s with queue := Function.update s.queue q' queue } ∧
    (Function.update s.queue q' queue q).queue = (s.queue q).queue := by
  refine ⟨hf.congr (fun n hn => .inl (hn.congr rfl rfl rfl)) fun _ => id, ?_⟩
  obtain rfl | hne := eq_or_ne q q'
  · rw [Function.update_self]
    exact h rfl
  · rw [Function.update_of_ne hne]

omit [DecidableEq O] [DecidableEq Q] [DecidableEq D] in
/-- A thread gets a pointer to something else. -/
theorem Forgotten.gain (hf : s.Forgotten serves q) {live : Finset (O ⊕ Q)} (t : T)
    (hne : n ≠ .inr q) (hobject : ∀ o, n = .inl o → (s.object o).queue ≠ some q) :
    Forgotten serves q { s with
      live, pointers := Function.update s.pointers t (n ::ₘ s.pointers t) } := by
  refine hf.congr (fun k hk => ?_) fun _ => id
  obtain @⟨t', _, hk⟩ | hd | ⟨hd, ho⟩ := hk
  · obtain rfl | hne' := eq_or_ne t' t
    · simp only [Function.update_self] at hk
      obtain rfl | hk := Multiset.mem_cons.mp hk
      · exact .inr ⟨hne, hobject⟩
      · exact .inl (.pointer hk)
    · simp only [Function.update_of_ne hne'] at hk
      exact .inl (.pointer hk)
  · exact .inl (.domain hd)
  · exact .inl (.dispatch hd ho)

omit [DecidableEq T] [DecidableEq O] [DecidableEq Q] in
/-- A domain of another queue begins, or a domain goes on or ends. -/
theorem Forgotten.updateLife (hf : s.Forgotten serves q) {d : D} {life : DomainLife T}
    (h : life.HasQueue → s.Held serves (.inr (serves d))) :
    Forgotten serves q { s with life := Function.update s.life d life } := by
  refine hf.congr ?_ fun _ => id
  rintro k (hk | @⟨d', hd⟩ | ⟨hd, ho⟩)
  · exact .inl (.pointer hk)
  · obtain rfl | hne := eq_or_ne d' d
    · simp only [Function.update_self] at hd
      exact .inl (h hd)
    · simp only [Function.update_of_ne hne] at hd
      exact .inl (.domain hd)
  · exact .inl (.dispatch hd ho)

/-- **One step.** Entries that are forgotten with their queue stay where they are. -/
theorem Step.forgotten (hs : s.Sound serves thread) (hf : s.Forgotten serves q)
    {entry : QueueEntry O ε} {o : O} (he : entry ∈ (s.queue q).queue) (ho : entry.target = some o)
    (h : Step serves thread capacity s s') :
    s'.Forgotten serves q ∧ (s'.queue q).queue = (s.queue q).queue := by
  have hmember : s.Owns (.inl o) (.inr q) := .member (hs.registered.queue he ho)
  have hserves : ∀ d, (s.life d).HasQueue → serves d ≠ q := by
    rintro d hd rfl
    exact hf.queue (.domain hd)
  cases h with
  | @make t n hn =>
    refine ⟨hf.gain t ?_ ?_, rfl⟩
    · rintro rfl
      exact hn (hs.owned hmember)
    · rintro o' rfl hq
      rw [hs.object hn] at hq
      exact Option.some_ne_none q hq.symm
  | @copy t t' n hn =>
    refine ⟨hf.gain t' ?_ ?_, rfl⟩
    · rintro rfl
      exact hf.queue hn.held
    · rintro o' rfl hq
      exact hf.object hq hn.held
  | @drop t n hidle =>
    refine ⟨hf.congr (fun k hk => ?_) fun _ => id, rfl⟩
    obtain @⟨t', _, hk⟩ | hd | ⟨hd, ho⟩ := hk
    · obtain rfl | hne := eq_or_ne t' t
      · simp only [Function.update_self] at hk
        exact .inl (.pointer (Multiset.mem_of_mem_erase hk))
      · simp only [Function.update_of_ne hne] at hk
        exact .inl (.pointer hk)
    · exact .inl (.domain hd)
    · exact .inl (.dispatch hd ho)
  | destroy h =>
    obtain @⟨n, hn, hunowned⟩ := h
    obtain o' | q' := n
    · refine ⟨hf.congr (fun k hk => .inl (hk.congr rfl rfl rfl)) fun o'' hq => ?_, rfl⟩
      obtain rfl | hne := eq_or_ne o'' o'
      · rw [Heap.destroy] at hq
        simp only [Function.update_self] at hq
        exact absurd hq.symm (Option.some_ne_none q)
      · rw [Heap.destroy] at hq
        simpa only [Function.update_of_ne hne] using hq
    · have hne : q ≠ q' := fun heq => hunowned.owns _ (heq ▸ hmember)
      refine ⟨hf.congr (fun k hk => .inl (hk.congr rfl rfl rfl)) fun _ => id, ?_⟩
      rw [Heap.destroy]
      simp only [Function.update_of_ne hne]
  | @domain t d hd hq => exact ⟨hf.updateLife fun _ => .pointer hq, rfl⟩
  | @stop t d queue hd hidle hq =>
    have hqueue : (s.life d).HasQueue := hd ▸ .running
    have hclosing : Forgotten serves q { s with life := Function.update s.life d (.closing t) } :=
      hf.updateLife fun _ => .domain hqueue
    exact hclosing.updateQueue fun heq => absurd heq (hserves d hqueue)
  | joined hd hidle hphase =>
    refine ⟨hf.updateLife fun h => ?_, rfl⟩
    rcases h
  | @setQueue t o' queue object ho' hqueue h =>
    refine ⟨hf.congr (fun k hk => .inl (hk.congr rfl rfl rfl)) fun o'' hq => ?_, rfl⟩
    obtain rfl | hne := eq_or_ne o'' o'
    · rw [ActiveObjectBase.setQueue_eq] at h
      split at h
      · obtain ⟨-, rfl⟩ := EStateM.Result.ok.inj h
        simp only [Function.update_self] at hq
        obtain hpointer | ⟨d, hd, hserve⟩ := hqueue q hq
        · exact absurd (.pointer hpointer) hf.queue
        · exact absurd hserve (hserves d hd)
      · exact absurd h (by simp)
    · simpa only [Function.update_of_ne hne] using hq
  | take ho' hidle h hq =>
    refine hf.updateQueue ?_
    rintro rfl
    exact absurd ho'.held (hf.object (hs.live_of_takeInto ho' h).2.1)
  | takeHighPrio ho' hidle h hq =>
    refine hf.updateQueue ?_
    rintro rfl
    exact absurd ho'.held (hf.object (hs.live_of_takeInto ho' h).2.1)
  | release hq =>
    refine hf.updateQueue ?_
    rintro rfl
    exact hq.queue_eq
  | acquire hd hphase hq => exact hf.updateQueue fun heq => absurd heq (hserves _ hd)
  | @dequeue d entry' queue hd hphase hfront hq =>
    obtain ⟨hupdate, hqueue⟩ := hf.updateQueue fun heq : serves d = q =>
      (absurd heq (hserves d hd) : queue.queue = _)
    refine ⟨hupdate.congr ?_ fun _ => id, hqueue⟩
    rintro k (hk | hd' | @⟨d', entry'', o', hd', ho'⟩)
    · exact .inl (.pointer hk)
    · exact .inl (.domain hd')
    · obtain rfl | hne := eq_or_ne d' d
      · simp only [Function.update_self] at hd'
        obtain rfl := received_eq hd'
        have hreg := hs.registered.queue (List.mem_of_mem_head? hfront) ho'
        refine .inr ⟨by simp, fun o'' heq hq' => ?_⟩
        obtain rfl := Sum.inl.inj heq
        exact hserves _ hd (Option.some.inj (hreg.symm.trans hq'))
      · simp only [Function.update_of_ne hne] at hd'
        exact .inl (.dispatch hd' ho')
  | @dispatched d entry' hphase hidle =>
    refine ⟨hf.congr ?_ fun _ => id, rfl⟩
    rintro k (hk | hd' | @⟨d', entry'', o', hd', ho'⟩)
    · exact .inl (.pointer hk)
    · exact .inl (.domain hd')
    · obtain rfl | hne := eq_or_ne d' d
      · simp only [Function.update_self] at hd'
        exact absurd hd' (by simp)
      · simp only [Function.update_of_ne hne] at hd'
        exact .inl (.dispatch hd' ho')

/-- Entries that are forgotten stay in their queue in every run. -/
theorem Reachable.forgotten (hreach : Reachable serves thread capacity s)
    (hf : s.Forgotten serves q) {entry : QueueEntry O ε} {o : O}
    (he : entry ∈ (s.queue q).queue) (ho : entry.target = some o)
    (h : ReflTransGen (Step serves thread capacity) s s') :
    Reachable serves thread capacity s' ∧ s'.Forgotten serves q ∧
      (s'.queue q).queue = (s.queue q).queue := by
  induction h with
  | refl => exact ⟨hreach, hf, rfl⟩
  | tail _ hstep ih =>
    obtain ⟨hreach', hf', hqueue⟩ := ih
    obtain ⟨hf'', hqueue'⟩ := hstep.forgotten hreach'.sound hf' (hqueue ▸ he) ho
    exact ⟨hreach'.step hstep, hf'', hqueue'.trans hqueue⟩

/-! ### The results -/

/-- A thread has made an object and a queue, registered one with the other, taken an event, and
dropped its pointers. -/
theorem exists_abandoned : ∃ s : Heap (stdSemaphore 1) Unit Unit ℕ Unit Unit,
    Reachable id id none s ∧ s.Abandoned ∧ (s.queue ()).queue = [⟨some (), some 7⟩] := by
  let s₁ : Heap (stdSemaphore 1) Unit Unit ℕ Unit Unit :=
    { live := {.inr ()}, pointers := fun _ => {.inr ()} }
  let s₂ : Heap (stdSemaphore 1) Unit Unit ℕ Unit Unit :=
    { live := {.inl (), .inr ()}, pointers := fun _ => {.inl (), .inr ()} }
  have hpointers : ∀ n, n ∈ s₂.pointers () := by
    rintro (⟨⟩ | ⟨⟩) <;> simp [s₂]
  have hqueue : Reachable id id none s₁ := .step .init (.make (t := ()) (Finset.notMem_empty _))
  have hobject : Reachable id id none s₂ := .step hqueue (.make (t := ()) (by decide))
  have hset := hobject.step (.setQueue (t := ()) (.pointer (hpointers (.inl ())))
    (fun _ _ => .inl (hpointers _))
    (rfl : ActiveObjectBase.setQueue (some ()) {} = .ok () ⟨some ()⟩))
  have hpush := EventQueue.Step.pushBack (M := stdSemaphore 1) (q := {}) (t := ())
    (e := (⟨some (), some 7⟩ : QueueEntry Unit ℕ))
    ⟨Finset.notMem_empty _, Finset.notMem_empty _⟩ (EventQueue.room_none _)
  have htake := hset.step (.take (t := ()) (.pointer (hpointers (.inl ())))
    (fun _ => Finset.notMem_empty _)
    (rfl : ActiveObjectBase.takeInto ⟨some ()⟩ = .ok () ⟨some ()⟩) hpush)
  have hrelease := htake.step (.release (t := ()) (q := ())
    (.release (m := SemState.counter 1) (Finset.mem_insert_self _ _) ⟨0, rfl, rfl⟩))
  have hidle : (insert () ∅ : Finset Unit).erase () = ∅ := by decide
  have hdrop := hrelease.step (.drop (t := ()) (n := .inl ()) fun _ ht =>
    Finset.notMem_empty () (hidle.subset ht))
  have hdrop' := hdrop.step (.drop (t := ()) (n := .inr ()) fun _ ht =>
    Finset.notMem_empty () (hidle.subset ht))
  exact ⟨_, hdrop', ⟨fun _ => rfl, fun _ => by rintro ⟨⟩⟩, rfl⟩

/-- **Nothing in use is destroyed.** Threads make objects and queues, copy and drop pointers,
construct and destroy domains, register objects and enqueue, and domain threads dispatch, in any
order; whatever nobody owns is destroyed. Then the target of every entry in a queue or in
dispatch is live and so is the queue, which is the one the object is registered with; while a
domain thread dispatches, the domain has not been destroyed; a queue in which a thread enqueues or
dequeues is live, also between the push and the release; and so is the queue of every registered
object. -/
theorem reachable_alive (h : Reachable serves thread capacity s) :
    (∀ q entry o, entry ∈ (s.queue q).queue → entry.target = some o →
      .inl o ∈ s.live ∧ .inr q ∈ s.live ∧ (s.object o).queue = some q) ∧
    (∀ d entry, s.phase d = .dispatching entry → (s.life d).HasQueue ∧ .inr (serves d) ∈ s.live ∧
      ∀ o, entry.target = some o → .inl o ∈ s.live ∧ (s.object o).queue = some (serves d)) ∧
    (∀ q t, t ∈ (s.queue q).enqueuing ∨ t ∈ (s.queue q).dequeuing → .inr q ∈ s.live) ∧
    ∀ o q, (s.object o).queue = some q → .inr q ∈ s.live := by
  have hs := h.sound
  refine ⟨fun q entry o he ho => ?_, fun d entry hd => ?_, fun q t ht => ?_, fun o q hq => ?_⟩
  · have hqueue := hs.registered.queue he ho
    exact ⟨hs.owned (.entry he ho), hs.owned (.member hqueue), hqueue⟩
  · exact ⟨hs.phase hd, hs.held (.domain (hs.phase hd)),
      fun o ho => ⟨hs.held (.dispatch hd ho), hs.registered.phase hd ho⟩⟩
  · by_contra hnot
    rw [hs.queue hnot] at ht
    exact ht.elim (Finset.notMem_empty t) (Finset.notMem_empty t)
  · exact hs.owned (.member hq)

/-- A queue with an entry is live, and so is the target, although nobody has a pointer. -/
theorem reachable_alive_abandoned : ∃ s : Heap (stdSemaphore 1) Unit Unit ℕ Unit Unit,
    Reachable id id none s ∧ s.Abandoned ∧ .inl () ∈ s.live ∧ .inr () ∈ s.live := by
  obtain ⟨s, h, ha, hqueue⟩ := exists_abandoned
  have hentry : (⟨some (), some 7⟩ : QueueEntry Unit ℕ) ∈ (s.queue ()).queue := by simp [hqueue]
  obtain ⟨hobject, hlive, -⟩ := (reachable_alive h).1 () _ () hentry rfl
  exact ⟨s, h, ha, hobject, hlive⟩

/-- **What is never destroyed.** When no thread has a pointer to an object or a queue and there is
no domain any more, the destruction comes to an end, and whatever the order, what is left is
exactly the objects for which an entry is in a queue, and the queues with such an entry. These
are never destroyed, whatever happens later. -/
theorem abandoned_leaks (h : Reachable serves thread capacity s) (ha : s.Abandoned) :
    (∃ s', ReflTransGen (Destroy serves) s s' ∧ s'.Settled serves) ∧
    (∀ s', ReflTransGen (Destroy serves) s s' → s'.Settled serves →
      ∀ n, n ∈ s'.live ↔ s.Pending n) ∧
    ∀ s', ReflTransGen (Step serves thread capacity) s s' → ∀ n, s.Pending n → n ∈ s'.live := by
  have hs := h.sound
  have hlive : ∀ {s : Heap M T O ε Q D}, s.Sound serves thread → ∀ n, s.Pending n → n ∈ s.live := by
    intro s hs n hn
    obtain ⟨he, ho⟩ | ⟨he, ho⟩ := hn
    · exact hs.owned (.entry he ho)
    · exact hs.owned (.member (hs.registered.queue he ho))
  refine ⟨?_, fun s' hrun hsettled n => ?_, fun s' hrun n hn => ?_⟩
  · obtain ⟨g, hrun, hsettled⟩ := (s.graph serves).exists_settled
    obtain ⟨s', hrun', rfl⟩ := exists_run hrun
    exact ⟨s', hrun', hsettled⟩
  · have hgraph : n ∈ s'.live ↔ n ∈ s.live ∧ ¬ (s.graph serves).Freed n :=
      Graph.mem_live_of_settled hs.ownersLive (graph_run hrun) hsettled
    rw [hgraph, hs.freed_iff ha, not_not]
    exact and_iff_right_of_imp (hlive hs n)
  · have hforgotten : ∀ q, s.Forgotten serves q :=
      fun q => ⟨hs.not_held ha, fun _ => hs.not_held ha⟩
    obtain @⟨q, entry, o, he, ho⟩ | @⟨q, entry, o, he, ho⟩ := hn
    · obtain ⟨hreach, -, hqueue⟩ := h.forgotten (hforgotten q) he ho hrun
      exact hlive hreach.sound _ (.object (hqueue ▸ he) ho)
    · obtain ⟨hreach, -, hqueue⟩ := h.forgotten (hforgotten q) he ho hrun
      exact hlive hreach.sound _ (.queue (hqueue ▸ he) ho)

/-- An object that has taken an event without a domain is never destroyed. -/
theorem abandoned_leaks_taken : ∃ s : Heap (stdSemaphore 1) Unit Unit ℕ Unit Unit,
    Reachable id id none s ∧ s.Abandoned ∧
    ∀ s', ReflTransGen (Step id id none) s s' → .inl () ∈ s'.live := by
  obtain ⟨s, h, ha, hqueue⟩ := exists_abandoned
  have hentry : (⟨some (), some 7⟩ : QueueEntry Unit ℕ) ∈ (s.queue ()).queue := by simp [hqueue]
  exact ⟨s, h, ha, fun s' hrun => (abandoned_leaks h ha).2.2 s' hrun _ (.object hentry rfl)⟩

end Heap

end EventFramework.ActiveObjects
