import EventFramework.ActiveObjects.BinarySemaphore
import EventFramework.ActiveObjects.Domain

/-!
# Which semaphore a domain needs

Every enqueue releases the semaphore once, so it has to count the entries that nobody has claimed.
A release never violates the precondition of a standard semaphore exactly when the list has room
for no more entries than the semaphore can count (`counting_iff`). Only the embedded queue, whose
memory pool bounds the list, can meet the condition.
-/

namespace EventFramework.ActiveObjects

namespace EventQueue

variable {T E : Type} [DecidableEq T] {max n : ℕ} {q : EventQueue (stdSemaphore max) T E}
  {ls : List (Label T E)}

/-- A release has its precondition if the semaphore can count the entries there is room for. -/
theorem Run.sem_ne_violated (h : Run (some n) ls q) (hn : n ≤ max) :
    q.sem ≠ SemState.violated := by
  induction h with
  | nil => exact fun h => nomatch h
  | concat hq hstep ih =>
    cases hstep with
    | pushBack ht hroom => exact ih
    | pushFront ht hroom => exact ih
    | pop ht he => exact ih
    | acquire ht hm =>
      obtain ⟨k, -, rfl⟩ := hm
      exact fun h => nomatch h
    | release ht hm =>
      obtain ⟨k, hk, rfl⟩ := hm
      have hlen := hq.counter_add hk
      have hle := hq.length_le
      -- the entry of the producer is in the list and not counted yet
      have hpos := Finset.card_pos.mpr ⟨_, ht⟩
      rw [if_pos (by omega)]
      exact fun h => nomatch h

end EventQueue

namespace Domain

variable {T O ε : Type} [DecidableEq T] {max : ℕ} {domain : T} {capacity : Option ℕ}

/-- The semaphore has never been released at its maximum, and counts the entries when no thread is
inside an operation of the queue. -/
structure Counting (s : Domain (stdSemaphore max) T O ε) : Prop where
  violated : s.queue.sem ≠ SemState.violated
  counter (henqueuing : s.queue.enqueuing = ∅) (hdequeuing : s.queue.dequeuing = ∅) :
    s.queue.sem = SemState.counter s.queue.queue.length

theorem Reachable.counting {n : ℕ} {s : Domain (stdSemaphore max) T O ε}
    (h : Reachable domain (some n) s) (hn : n ≤ max) : s.Counting := by
  obtain ⟨ls, hrun⟩ := h.queue_run
  have hviolated := hrun.sem_ne_violated hn
  refine ⟨hviolated, fun henqueuing hdequeuing => ?_⟩
  cases hsem : s.queue.sem with
  | violated => exact absurd hsem hviolated
  | counter k =>
    have hlen := hrun.counter_add hsem
    rw [henqueuing, hdequeuing, Finset.card_empty] at hlen
    rw [← hlen]
    rfl

/-- While there is room, entries can be enqueued one after the other. -/
theorem exists_enqueued (domain : T) (o : O) {capacity : Option ℕ}
    (hroom : ∀ n, capacity = some n → max < n) (k : ℕ) (hk : k ≤ max) :
    ∃ s : Domain (stdSemaphore max) T O ε, Reachable domain capacity s ∧
      s.queue.sem = SemState.counter k ∧ s.queue.queue.length = k ∧
      s.queue.enqueuing = ∅ ∧ s.queue.dequeuing = ∅ := by
  induction k with
  | zero => exact ⟨{}, .init, rfl, rfl, rfl, rfl⟩
  | succ k ih =>
    obtain ⟨⟨⟨queue, sem, enqueuing, dequeuing, history, results⟩, phase, stopCalled,
      dispatched⟩, h, hsem, hlen, henqueuing, hdequeuing⟩ := ih (Nat.le_of_succ_le hk)
    obtain rfl : sem = SemState.counter k := hsem
    obtain rfl : enqueuing = ∅ := henqueuing
    obtain rfl : dequeuing = ∅ := hdequeuing
    have hempty : (insert domain ∅ : Finset T).erase domain = ∅ :=
      Finset.erase_insert (Finset.notMem_empty domain)
    have hpush := h.step (.enqueueBack (t := domain) (.pushBack (e := ⟨some o, none⟩)
      ⟨Finset.notMem_empty _, Finset.notMem_empty _⟩ fun n hn =>
        lt_trans (hlen.trans_lt (Nat.lt_of_succ_le hk)) (hroom n hn)))
    have hrelease := hpush.step (.release (t := domain) (.release (m := SemState.counter (k + 1))
      (Finset.mem_insert_self _ _) ⟨k, rfl, (if_pos (Nat.lt_of_succ_le hk)).symm⟩))
    refine ⟨_, hrelease, rfl, ?_, hempty, rfl⟩
    simpa using hlen

/-- **The semaphore has to count to the capacity.** In every reachable state of a domain no
release has violated the precondition of the semaphore, and the counter is the number of entries
whenever no thread is inside an operation, if and only if the queue is bounded and the semaphore
can count all entries there is room for. -/
theorem counting_iff (domain : T) (o : O) (max : ℕ) (capacity : Option ℕ) :
    (∀ s : Domain (stdSemaphore max) T O ε, Reachable domain capacity s → s.Counting) ↔
    ∃ n, capacity = some n ∧ n ≤ max := by
  constructor
  · intro hall
    by_contra hnot
    have hroom : ∀ n, capacity = some n → max < n := by
      intro n hn
      by_contra hle
      exact hnot ⟨n, hn, Nat.le_of_not_lt hle⟩
    obtain ⟨⟨⟨queue, sem, enqueuing, dequeuing, history, results⟩, phase, stopCalled,
      dispatched⟩, h, hsem, hlen, henqueuing, hdequeuing⟩ :=
      exists_enqueued (ε := ε) domain o hroom max le_rfl
    obtain rfl : sem = SemState.counter max := hsem
    obtain rfl : enqueuing = ∅ := henqueuing
    obtain rfl : dequeuing = ∅ := hdequeuing
    -- one entry more than the semaphore can count
    have hpush := h.step (.enqueueBack (t := domain) (.pushBack (e := ⟨some o, none⟩)
      ⟨Finset.notMem_empty _, Finset.notMem_empty _⟩ fun n hn => hlen.trans_lt (hroom n hn)))
    have hrelease := hpush.step (.release (t := domain) (.release (m := SemState.violated)
      (Finset.mem_insert_self _ _) ⟨max, rfl, (if_neg (Nat.lt_irrefl max)).symm⟩))
    exact (hall _ hrelease).violated rfl
  · rintro ⟨n, rfl, hn⟩ s h
    exact h.counting hn

end Domain

end EventFramework.ActiveObjects
