import EventFramework.ForMathlib.DequeHistory
import Mathlib.Data.Finset.Card

/-!
# The event queue

`EventQueue.hxx`, the heap-backed one and the embedded one of bounded capacity: a list behind
a mutex, and a semaphore that blocks `Dequeue`. An operation takes two steps, since the
semaphore is used outside the lock: `EnqueueBack` and `EnqueueFront` push and then release,
`Dequeue` acquires and then pops. Any number of threads take such steps in any order.

The semaphore is a template parameter, here a transition system (`Semaphore`). What the queue
needs of it is `Semaphore.Counts`: completed acquires never outnumber releases. Then
`Dequeue` never finds the list empty, although nothing in the code checks it
(`Run.accounted`), and the queue is an atomic deque (`run_atomic`).

A state has two ghosts: the locked operations so far and the results of the locked pops.
-/

namespace EventFramework.ActiveObjects

open DequeHistory

/-! ### Semaphores -/

/-- A semaphore type: its states, that of `sem_{0}`, and what `release` and `acquire` do when
they complete. -/
structure Semaphore where
  State : Type
  init : State
  release : State → State → Prop
  acquire : State → State → Prop

/-- The states reached with given numbers of completed releases and acquires. -/
inductive Semaphore.Reaches (M : Semaphore) : ℕ → ℕ → M.State → Prop
  | init : M.Reaches 0 0 M.init
  | release {r a : ℕ} {m m' : M.State} (hm : M.Reaches r a m) (h : M.release m m') :
      M.Reaches (r + 1) a m'
  | acquire {r a : ℕ} {m m' : M.State} (hm : M.Reaches r a m) (h : M.acquire m m') :
      M.Reaches r (a + 1) m'

/-- Completed acquires never outnumber releases. -/
def Semaphore.Counts (M : Semaphore) : Prop := ∀ r a m, M.Reaches r a m → a ≤ r

/-- The state of a standard semaphore: its counter, or a violated precondition. -/
inductive SemState
  | counter (n : ℕ)
  | violated
  deriving DecidableEq, Repr

/-- `std::counting_semaphore` with the given maximum. `acquire` waits for a positive counter;
`release` has the precondition that the counter is below the maximum. -/
def stdSemaphore (max : ℕ) : Semaphore where
  State := SemState
  init := .counter 0
  release m m' := ∃ n, m = .counter n ∧
    m' = if n < max then .counter (n + 1) else .violated
  acquire m m' := ∃ n, m = .counter (n + 1) ∧ m' = .counter n

/-- The counter is the number of releases not yet acquired. -/
theorem stdSemaphore_reaches {max r a : ℕ} {m : (stdSemaphore max).State}
    (h : (stdSemaphore max).Reaches r a m) :
    a ≤ r ∧ ∀ n, m = SemState.counter n → n + a = r := by
  induction h with
  | init =>
    refine ⟨le_rfl, fun n hn => ?_⟩
    cases hn
    rfl
  | release _ h ih =>
    obtain ⟨n, rfl, rfl⟩ := h
    have hn := ih.2 n rfl
    refine ⟨by omega, fun k hk => ?_⟩
    split at hk
    · cases hk
      omega
    · exact nomatch hk
  | acquire _ h ih =>
    obtain ⟨n, rfl, rfl⟩ := h
    have hn := ih.2 (n + 1) rfl
    refine ⟨by omega, fun k hk => ?_⟩
    cases hk
    omega

theorem stdSemaphore_counts (max : ℕ) : (stdSemaphore max).Counts := fun _ _ _ h =>
  (stdSemaphore_reaches h).1

/-! ### The queue -/

/-- An event queue in use. `T` are the threads and `E` the entries. -/
structure EventQueue (M : Semaphore) (T E : Type) where
  queue : List E := []
  sem : M.State := M.init
  /-- the threads between a locked push and its `sem_.release()` -/
  enqueuing : Finset T := ∅
  /-- the threads between `sem_.acquire()` and the locked pop -/
  dequeuing : Finset T := ∅
  /-- the locked operations so far (ghost) -/
  history : List (Op E) := []
  /-- the results of the locked pops so far (ghost) -/
  results : List E := []

/-- The steps of the threads. -/
inductive Label (T E : Type)
  | pushBack (t : T) (e : E)
  | pushFront (t : T) (e : E)
  | release (t : T)
  | acquire (t : T)
  | pop (t : T)
  deriving DecidableEq, Repr

namespace EventQueue

variable {M : Semaphore} {T E : Type} [DecidableEq T]

/-- A thread that is in no operation of the queue. -/
def Idle (q : EventQueue M T E) (t : T) : Prop := t ∉ q.enqueuing ∧ t ∉ q.dequeuing

/-- Whether the list can take another entry: the memory pool of the embedded queue has room
for `NumEntries` entries only. -/
def Room (capacity : Option ℕ) (q : EventQueue M T E) : Prop :=
  ∀ n, capacity = some n → q.queue.length < n

omit [DecidableEq T] in
theorem room_none (q : EventQueue M T E) : q.Room none := fun _ h => nomatch h

/-- The steps: the two halves of `EnqueueBack` and `EnqueueFront`, which share the second, and
the two halves of `Dequeue`. -/
inductive Step (capacity : Option ℕ) : EventQueue M T E → Label T E → EventQueue M T E → Prop
  | pushBack {q : EventQueue M T E} {t : T} {e : E} (ht : q.Idle t) (hroom : q.Room capacity) :
      Step capacity q (.pushBack t e) { q with
        queue := q.queue ++ [e]
        enqueuing := insert t q.enqueuing
        history := q.history ++ [.pushBack e] }
  | pushFront {q : EventQueue M T E} {t : T} {e : E} (ht : q.Idle t) (hroom : q.Room capacity) :
      Step capacity q (.pushFront t e) { q with
        queue := e :: q.queue
        enqueuing := insert t q.enqueuing
        history := q.history ++ [.pushFront e] }
  | release {q : EventQueue M T E} {t : T} {m : M.State} (ht : t ∈ q.enqueuing)
      (hm : M.release q.sem m) :
      Step capacity q (.release t) { q with
        sem := m
        enqueuing := q.enqueuing.erase t }
  | acquire {q : EventQueue M T E} {t : T} {m : M.State} (ht : q.Idle t)
      (hm : M.acquire q.sem m) :
      Step capacity q (.acquire t) { q with
        sem := m
        dequeuing := insert t q.dequeuing }
  | pop {q : EventQueue M T E} {t : T} {e : E} {rest : List E} (ht : t ∈ q.dequeuing)
      (he : q.queue = e :: rest) :
      Step capacity q (.pop t) { q with
        queue := rest
        dequeuing := q.dequeuing.erase t
        history := q.history ++ [.pop]
        results := q.results ++ [e] }

/-- The runs from a new queue, under a schedule of steps. -/
inductive Run (capacity : Option ℕ) : List (Label T E) → EventQueue M T E → Prop
  | nil : Run capacity [] {}
  | concat {ls : List (Label T E)} {l : Label T E} {q q' : EventQueue M T E}
      (hq : Run capacity ls q) (h : Step capacity q l q') : Run capacity (ls ++ [l]) q'

variable {capacity : Option ℕ} {q q' : EventQueue M T E} {l : Label T E} {ls : List (Label T E)}

/-- What a step does to the list. -/
theorem Step.queue_eq (h : Step capacity q l q') :
    match l with
    | .pushBack _ e => q'.queue = q.queue ++ [e]
    | .pushFront _ e => q'.queue = e :: q.queue
    | .release _ | .acquire _ => q'.queue = q.queue
    | .pop _ => ∃ e, q.queue = e :: q'.queue := by
  cases h with
  | pop ht he => exact ⟨_, he⟩
  | _ => rfl

/-- What a step does to the ghosts. -/
theorem Step.ghosts_eq (h : Step capacity q l q') :
    match l with
    | .pushBack _ e => q'.history = q.history ++ [.pushBack e] ∧ q'.results = q.results
    | .pushFront _ e => q'.history = q.history ++ [.pushFront e] ∧ q'.results = q.results
    | .release _ | .acquire _ => q'.history = q.history ∧ q'.results = q.results
    | .pop _ => q'.history = q.history ++ [.pop] ∧
        ∃ e, q.queue.head? = some e ∧ q'.results = q.results ++ [e] := by
  cases h with
  | pop ht he => exact ⟨rfl, _, he ▸ rfl, rfl⟩
  | _ => exact ⟨rfl, rfl⟩

/-! ### Counting -/

/-- Every entry of the list is announced by a release yet to be acquired or yet to come, or
claimed by an acquire; and the other way round. -/
def Accounted (q : EventQueue M T E) : Prop :=
  ∃ r a, M.Reaches r a q.sem ∧
    q.queue.length + a = r + q.enqueuing.card + q.dequeuing.card

theorem Step.accounted (hq : q.Accounted) (h : Step capacity q l q') : q'.Accounted := by
  obtain ⟨r, a, hreach, hcount⟩ := hq
  cases h with
  | pushBack ht hroom =>
    have hcard := Finset.card_insert_of_notMem ht.1
    refine ⟨r, a, hreach, ?_⟩
    simp only [List.length_append, List.length_singleton, hcard]
    omega
  | pushFront ht hroom =>
    have hcard := Finset.card_insert_of_notMem ht.1
    refine ⟨r, a, hreach, ?_⟩
    simp only [List.length_cons, hcard]
    omega
  | release ht hm =>
    -- an entry moves from the producers in progress to the releases
    have hcard := Finset.card_erase_add_one ht
    refine ⟨r + 1, a, .release hreach hm, ?_⟩
    simp only
    omega
  | acquire ht hm =>
    have hcard := Finset.card_insert_of_notMem ht.2
    refine ⟨r, a + 1, .acquire hreach hm, ?_⟩
    simp only [hcard]
    omega
  | pop ht he =>
    -- the consumer's claim and its entry go together
    have hcard := Finset.card_erase_add_one ht
    refine ⟨r, a, hreach, ?_⟩
    rw [he, List.length_cons] at hcount
    simp only
    omega

/-- **The accounting invariant.** -/
theorem Run.accounted (h : Run capacity ls q) : q.Accounted := by
  induction h with
  | nil => exact ⟨0, 0, .init, rfl⟩
  | concat _ hstep ih => exact hstep.accounted ih

omit [DecidableEq T] in
/-- A thread about to pop finds an entry. -/
theorem Accounted.queue_ne_nil (hM : M.Counts) (hq : q.Accounted) {t : T}
    (ht : t ∈ q.dequeuing) : q.queue ≠ [] := by
  obtain ⟨r, a, hreach, hcount⟩ := hq
  have hle := hM r a _ hreach
  have hpos := Finset.card_pos.mpr ⟨t, ht⟩
  intro hnil
  rw [hnil, List.length_nil] at hcount
  omega

/-! ### Refinement of the deque -/

/-- The list and the results are those of the abstract deque after the history. -/
def RefinesDeque (q : EventQueue M T E) : Prop :=
  ∃ d, run q.history = some d ∧ q.results = d.out.map Pushed.value ∧
    q.queue = d.rest.map Pushed.value

theorem Step.refinesDeque (hq : q.RefinesDeque) (h : Step capacity q l q') :
    q'.RefinesDeque := by
  obtain ⟨d, hd, hresults, hqueue⟩ := hq
  cases h with
  | @pushBack _ e ht hroom =>
    have hpush : d.apply (.pushBack e) = some { d with
        rest := d.rest ++ [⟨d.pushes, true, e⟩]
        pushes := d.pushes + 1 } := rfl
    refine ⟨_, run_concat_of_apply hd hpush, hresults, ?_⟩
    simp [hqueue]
  | @pushFront _ e ht hroom =>
    have hpush : d.apply (.pushFront e) = some { d with
        rest := ⟨d.pushes, false, e⟩ :: d.rest
        pushes := d.pushes + 1 } := rfl
    refine ⟨_, run_concat_of_apply hd hpush, hresults, ?_⟩
    simp [hqueue]
  | release ht hm => exact ⟨d, hd, hresults, hqueue⟩
  | acquire ht hm => exact ⟨d, hd, hresults, hqueue⟩
  | @pop _ e rest ht he =>
    rw [hqueue] at he
    obtain ⟨p, rest', hrest, rfl, rfl⟩ := List.map_eq_cons_iff.mp he
    have hpop : d.apply .pop = some { d with out := d.out ++ [p], rest := rest' } := by
      unfold Deque.apply
      rw [hrest]
    refine ⟨_, run_concat_of_apply hd hpop, ?_, rfl⟩
    simp [hresults]

theorem Run.refinesDeque (h : Run capacity ls q) : q.RefinesDeque := by
  induction h with
  | nil => exact ⟨⟨[], [], 0⟩, rfl, rfl, rfl⟩
  | concat _ hstep ih => exact hstep.refinesDeque ih

/-- **The queue is an atomic deque.** With a semaphore whose acquires never outnumber its
releases, under every schedule: a thread that is about to pop finds an entry; the results and
the list are those of the abstract deque to which the locked operations have been applied in
their order; what has been returned and what is left are exactly the entries pushed, each push
once; and of two entries pushed at the back, the earlier one is never returned later. -/
theorem run_atomic (hM : M.Counts) (h : Run capacity ls q) :
    (∀ t ∈ q.dequeuing, q.queue ≠ []) ∧
    ∃ d, run q.history = some d ∧ q.results = d.out.map Pushed.value ∧
      q.queue = d.rest.map Pushed.value ∧
      (d.out ++ d.rest).Perm (pushed q.history) ∧
      ((d.out ++ d.rest).map Pushed.ticket).Nodup ∧
      ((d.out ++ d.rest).filter Pushed.back).Pairwise fun p p' => p.ticket < p'.ticket := by
  refine ⟨fun t ht => h.accounted.queue_ne_nil hM ht, ?_⟩
  obtain ⟨d, hd, hresults, hqueue⟩ := h.refinesDeque
  have hvalid := run_valid hd
  refine ⟨d, hd, hresults, hqueue, hvalid.perm, ?_, hvalid.sorted⟩
  exact (hvalid.perm.map Pushed.ticket).nodup_iff.mpr (nodup_pushed q.history)

/-- A consumer that has acquired finds the entry of the producer, behind the one that has come to
the front and been taken. -/
theorem run_atomic_handover : ∃ q : EventQueue (stdSemaphore 2) ℕ ℕ,
    Run none [.pushBack 0 7, .release 0, .pushFront 0 8, .release 0, .acquire 1, .pop 1,
      .acquire 1] q ∧
    1 ∈ q.dequeuing ∧ q.queue ≠ [] ∧ q.results = [8] ∧
    ∃ d, run q.history = some d ∧ d.out.map Pushed.value = [8] ∧
      d.rest.map Pushed.value = [7] ∧ ((d.out ++ d.rest).map Pushed.ticket).Nodup := by
  have hback : Run none [.pushBack 0 7] _ := .concat .nil
    (.pushBack (M := stdSemaphore 2) (t := 0) (e := 7) ⟨by decide, by decide⟩ (room_none _))
  have hrelease : Run none [.pushBack 0 7, .release 0] _ := .concat hback
    (.release (m := SemState.counter 1) (by decide) ⟨0, rfl, rfl⟩)
  have hfront : Run none [.pushBack 0 7, .release 0, .pushFront 0 8] _ := .concat hrelease
    (.pushFront (M := stdSemaphore 2) (t := 0) (e := 8) ⟨by decide, by decide⟩ (room_none _))
  have hrelease' : Run none [.pushBack 0 7, .release 0, .pushFront 0 8, .release 0] _ :=
    .concat hfront (.release (m := SemState.counter 2) (by decide) ⟨1, rfl, rfl⟩)
  have hacquire : Run none [.pushBack 0 7, .release 0, .pushFront 0 8, .release 0, .acquire 1] _ :=
    .concat hrelease' (.acquire (m := SemState.counter 1) ⟨by decide, by decide⟩ ⟨1, rfl, rfl⟩)
  have hpop := Run.concat hacquire (.pop (t := 1) (e := 8) (by decide) rfl)
  have hlast := Run.concat hpop
    (.acquire (t := 1) (m := SemState.counter 0) ⟨by decide, by decide⟩ ⟨0, rfl, rfl⟩)
  obtain ⟨hfound, d, hd, hresults, hqueue, -, hnodup, -⟩ :=
    run_atomic (stdSemaphore_counts 2) hlast
  exact ⟨_, hlast, by decide, hfound 1 (by decide), rfl, d, hd, hresults.symm, hqueue.symm, hnodup⟩

end EventQueue

end EventFramework.ActiveObjects
