import EventFramework.ActiveObjects.Domain
import EventFramework.ForMathlib.FairRuns
import Mathlib.Data.List.TakeWhile

/-!
# Waiting for the domain thread

The destructor of `SingleThreadActiveObjectDomain.hxx` calls `Stop` and joins the thread that
executes `Run`. The join returns when `Run` does, so `Run` has to return although other threads,
and the objects it dispatches to, go on enqueuing.

Runs are infinite here and fair (`FairRun`): every dispatch returns, the domain thread takes an
available release, and a thread that has pushed an entry calls `release`. The only way to keep
the domain thread from the marker is to push at the front again and again; without that, `Run`
returns (`FairRun.returns`). The entries in front of the marker are the rank.
-/

namespace EventFramework.ActiveObjects

open DequeHistory FairRuns

namespace Domain

section Steps

variable {M : Semaphore} {T O ε : Type} [DecidableEq T]

/-- The steps of the loop of `Run`. -/
inductive Serve (domain : T) (capacity : Option ℕ) : Domain M T O ε → Domain M T O ε → Prop
  | acquire {s queue} (hphase : s.phase = .waiting)
      (hq : s.queue.Step capacity (.acquire domain) queue) :
      Serve domain capacity s { s with queue }
  | dequeue {s entry queue} (hphase : s.phase = .waiting)
      (hfront : s.queue.queue.head? = some entry)
      (hq : s.queue.Step capacity (.pop domain) queue) :
      Serve domain capacity s { s with queue, phase := entry.received }
  | dispatched {s entry} (hphase : s.phase = .dispatching entry) :
      Serve domain capacity s { s with
        phase := .waiting
        dispatched := s.dispatched ++ [entry] }

/-- The second half of an enqueue operation of `t`. -/
inductive Release (capacity : Option ℕ) (t : T) : Domain M T O ε → Domain M T O ε → Prop
  | release {s queue} (hq : s.queue.Step capacity (.release t) queue) :
      Release capacity t s { s with queue }

variable {s s' : Domain M T O ε} {domain : T} {capacity : Option ℕ}

/-- What the other steps leave alone: the loop, and the entries in the queue. -/
structure Beside (s s' : Domain M T O ε) : Prop where
  phase : s'.phase = s.phase
  dequeuing : s'.queue.dequeuing = s.queue.dequeuing
  history : s'.queue.history = s.queue.history ∨
    ∃ op, op ≠ .pop ∧ s'.queue.history = s.queue.history ++ [op]
  queue : (∃ e, s'.queue.history = s.queue.history ++ [.pushFront e]) ∨
    ∃ l, s'.queue.queue = s.queue.queue ++ l
  sem : (s'.queue.sem = s.queue.sem ∧ s.queue.enqueuing ⊆ s'.queue.enqueuing) ∨
    M.release s.queue.sem s'.queue.sem

omit [DecidableEq T] in
theorem Beside.refl (s : Domain M T O ε) : Beside s s :=
  ⟨rfl, rfl, .inl rfl, .inr ⟨[], (List.append_nil _).symm⟩, .inl ⟨rfl, Finset.Subset.refl _⟩⟩

/-- Every step is one of the loop, or goes on beside it. -/
theorem Step.serve_or_beside (h : Step domain capacity s s') :
    Serve domain capacity s s' ∨ Beside s s' := by
  cases h with
  | @enqueueBack t target event queue hq =>
    right
    cases hq with
    | pushBack ht hroom =>
      exact ⟨rfl, rfl, .inr ⟨_, IsPush.back.ne_pop, rfl⟩, .inr ⟨_, rfl⟩,
        .inl ⟨rfl, Finset.subset_insert _ _⟩⟩
  | @enqueueFront t target event queue hq =>
    right
    cases hq with
    | pushFront ht hroom =>
      exact ⟨rfl, rfl, .inr ⟨_, IsPush.front.ne_pop, rfl⟩, .inl ⟨_, rfl⟩,
        .inl ⟨rfl, Finset.subset_insert _ _⟩⟩
  | stop honce hq =>
    right
    cases hq with
    | pushBack ht hroom =>
      exact ⟨rfl, rfl, .inr ⟨_, IsPush.back.ne_pop, rfl⟩, .inr ⟨_, rfl⟩,
        .inl ⟨rfl, Finset.subset_insert _ _⟩⟩
  | release hq =>
    right
    cases hq with
    | release ht hm => exact ⟨rfl, rfl, .inl rfl, .inr ⟨[], (List.append_nil _).symm⟩, .inr hm⟩
  | acquire hphase hq => exact .inl (.acquire hphase hq)
  | dequeue hphase hfront hq => exact .inl (.dequeue hphase hfront hq)
  | dispatched hphase => exact .inl (.dispatched hphase)

theorem Step.stopCalled (h : Step domain capacity s s') (hs : s.stopCalled = true) :
    s'.stopCalled = true := by
  cases h with
  | stop honce hq => rfl
  | _ => exact hs

/-! ### Who acquires -/

/-- Only the domain thread dequeues, and it does not while it dispatches. -/
structure Alone (domain : T) (s : Domain M T O ε) : Prop where
  subset : s.queue.dequeuing ⊆ {domain}
  empty : s.phase ≠ .waiting → s.queue.dequeuing = ∅

theorem Serve.alone (hs : s.Alone domain) (h : Serve domain capacity s s') : s'.Alone domain := by
  cases h with
  | acquire hphase hq =>
    cases hq with
    | acquire ht hm =>
      exact ⟨Finset.insert_subset (Finset.mem_singleton_self _) hs.subset,
        fun hne => absurd hphase hne⟩
  | dequeue hphase hfront hq =>
    cases hq with
    | pop ht he =>
      have hempty : s.queue.dequeuing.erase domain = ∅ := by
        rw [Finset.erase_eq_empty_iff]
        exact .inr (hs.subset.antisymm (Finset.singleton_subset_iff.mpr ht))
      exact ⟨(Finset.erase_subset _ _).trans hs.subset, fun _ => hempty⟩
  | dispatched hphase =>
    exact ⟨hs.subset, fun hne => absurd rfl hne⟩

theorem Reachable.alone (h : Reachable domain capacity s) : s.Alone domain := by
  induction h with
  | init => exact ⟨Finset.empty_subset _, fun _ => rfl⟩
  | step _ hstep ih =>
    obtain hserve | hbeside := hstep.serve_or_beside
    · exact hserve.alone ih
    · exact ⟨hbeside.dequeuing ▸ ih.subset, hbeside.dequeuing ▸ hbeside.phase ▸ ih.empty⟩

/-- Between `Stop` and the return of `Run` the marker is in the queue. -/
theorem Reachable.exists_marker (h : Reachable domain capacity s) (hstop : s.stopCalled = true)
    (hphase : s.phase ≠ .returned) : ∃ entry ∈ s.queue.queue, entry.target = none := by
  obtain ⟨d, hd⟩ := h.sound
  cases hd.progress with
  | serving hs => exact absurd (hs.symm.trans hstop) Bool.false_ne_true
  | stopping before since _ _ _ hmarked =>
    obtain ⟨inFront, hrest, -⟩ := hmarked
    refine ⟨.stop, ?_, rfl⟩
    rw [hd.queue, hrest, List.map_append, List.map_cons]
    exact List.mem_append_right _ List.mem_cons_self
  | drained _ _ _ _ _ hp => exact absurd hp hphase

/-- Nothing but the marker ends the loop. -/
theorem Reachable.stopCalled_of_returned (h : Reachable domain capacity s)
    (hphase : s.phase = .returned) : s.stopCalled = true := by
  obtain ⟨d, hd⟩ := h.sound
  cases hd.progress with
  | serving _ hp => exact absurd hphase hp
  | stopping _ _ _ hp => exact absurd hphase hp
  | drained _ _ _ _ hs => exact hs

/-! ### The rank -/

/-- The entries in front of the first marker. -/
def inFront (s : Domain M T O ε) : List (QueueEntry O ε) :=
  s.queue.queue.takeWhile fun entry => entry.target.isSome

/-- The steps of the loop until it has dispatched another `ahead` entries and acquires the next,
three for each entry. -/
def steps (domain : T) (ahead : ℕ) (s : Domain M T O ε) : ℕ :=
  match s.phase with
  | .waiting => 3 * ahead + if domain ∈ s.queue.dequeuing then 1 else 2
  | .dispatching _ => 3 * ahead + 3
  | .returned => 0

/-- The steps of the loop until the marker. -/
def rank (domain : T) (s : Domain M T O ε) : ℕ := steps domain s.inFront.length s

theorem steps_of_waiting {a : ℕ} (h : s.phase = .waiting) : steps domain a s =
    3 * a + if domain ∈ s.queue.dequeuing then 1 else 2 := by
  rw [steps, h]

theorem steps_of_dispatching {a : ℕ} {entry : QueueEntry O ε} (h : s.phase = .dispatching entry) :
    steps domain a s = 3 * a + 3 := by
  rw [steps, h]

theorem steps_of_returned {a : ℕ} (h : s.phase = .returned) : steps domain a s = 0 := by
  rw [steps, h]

theorem Beside.steps_eq (h : Beside s s') (a : ℕ) : steps domain a s' = steps domain a s := by
  rw [steps, steps, h.phase, h.dequeuing]

/-- **Every step of the loop brings the steps down**, when an entry that is dequeued counts. -/
theorem Serve.steps_lt (hs : s.Alone domain) (h : Serve domain capacity s s') {a a' : ℕ}
    (hle : a' ≤ a)
    (hpop : ∀ entry, s.phase = .waiting → s'.phase = .dispatching entry → a' < a) :
    steps domain a' s' < steps domain a s := by
  cases h with
  | acquire hphase hq =>
    cases hq with
    | acquire ht hm =>
      have hin : domain ∈ insert domain s.queue.dequeuing := Finset.mem_insert_self _ _
      rw [steps_of_waiting hphase, if_neg ht.2]
      refine (steps_of_waiting (by exact hphase)).trans_lt ?_
      rw [if_pos hin]
      omega
  | @dequeue entry queue hphase hfront hq =>
    cases hq with
    | @pop _ e rest ht he =>
      rw [steps_of_waiting hphase, if_pos ht]
      cases htarget : entry.target with
      | none =>
        rw [steps_of_returned (received_eq_returned.mpr htarget)]
        omega
      | some target =>
        have hreceived : entry.received = .dispatching entry :=
          received_of_target (by simp [htarget])
        have hless := hpop entry hphase hreceived
        rw [steps_of_dispatching hreceived]
        omega
  | @dispatched entry hphase =>
    have hout : domain ∉ s.queue.dequeuing := by
      rw [hs.empty (by simp [hphase])]
      exact Finset.notMem_empty domain
    rw [steps_of_dispatching hphase, steps_of_waiting rfl, if_neg hout]
    omega

omit [DecidableEq T] in
/-- What is pushed behind a marker does not stand in front of it. -/
theorem inFront_append {l : List (QueueEntry O ε)} (hqueue : s'.queue.queue = s.queue.queue ++ l)
    (hmarker : ∃ entry ∈ s.queue.queue, entry.target = none) : s'.inFront = s.inFront := by
  obtain ⟨entry, hentry, hnone⟩ := hmarker
  have hlength : s.inFront.length ≠ s.queue.queue.length := by
    intro hlength
    have hall := List.takeWhile_eq_self_iff.mp
      ((List.takeWhile_sublist fun entry : QueueEntry O ε => entry.target.isSome).eq_of_length
        hlength) entry hentry
    rw [hnone] at hall
    exact Bool.false_ne_true hall
  rw [inFront] at hlength
  rw [inFront, hqueue, List.takeWhile_append, if_neg hlength, inFront]

theorem Beside.rank_eq (h : Beside s s') (hmarker : ∃ entry ∈ s.queue.queue, entry.target = none)
    (hfront : ∀ e, s'.queue.history ≠ s.queue.history ++ [.pushFront e]) :
    rank domain s' = rank domain s := by
  obtain ⟨e, he⟩ | ⟨l, hl⟩ := h.queue
  · exact absurd he (hfront e)
  · rw [rank, rank, inFront_append hl hmarker, h.steps_eq]

omit [DecidableEq T] in
/-- An entry for an object is in front of the marker until it is dequeued. -/
theorem length_inFront_of_cons {e : QueueEntry O ε} {rest : List (QueueEntry O ε)}
    (he : s.queue.queue = e :: rest) (htarget : e.target ≠ none) :
    s.inFront.length = (rest.takeWhile fun entry => entry.target.isSome).length + 1 := by
  have hsome : e.target.isSome = true := Option.isSome_iff_ne_none.mpr htarget
  rw [inFront, he, List.takeWhile_cons]
  simp only [hsome, if_true, List.length_cons]

/-- Every step of the loop brings the rank down. -/
theorem Serve.rank_lt (hs : s.Alone domain) (h : Serve domain capacity s s') :
    rank domain s' < rank domain s := by
  cases hserve : h with
  | acquire hphase hq =>
    cases hq with
    | acquire ht hm =>
      exact h.steps_lt hs le_rfl fun entry _ hdispatching =>
        absurd (hphase.symm.trans hdispatching) (by simp)
  | @dequeue entry queue hphase hfront hq =>
    cases hq with
    | @pop _ e rest ht he =>
      obtain rfl : e = entry := by simpa [he] using hfront
      by_cases htarget : e.target = none
      · have hreturned : e.received = .returned := received_eq_returned.mpr htarget
        refine (steps_of_returned hreturned).trans_lt ?_
        rw [rank, steps_of_waiting hphase, if_pos ht]
        omega
      · have hlength := length_inFront_of_cons he htarget
        exact h.steps_lt hs (Nat.le_of_lt (Nat.lt_of_succ_le hlength.ge)) fun _ _ _ =>
          Nat.lt_of_succ_le hlength.ge
  | @dispatched entry hphase =>
    exact h.steps_lt hs le_rfl fun _ hwaiting _ => absurd (hwaiting.symm.trans hphase) (by simp)

theorem Serve.phase_ne (h : Serve domain capacity s s') : s.phase ≠ .returned := by
  cases h with
  | acquire hphase hq => simp [hphase]
  | dequeue hphase hfront hq => simp [hphase]
  | dispatched hphase => simp [hphase]

end Steps

/-! ### The semaphore -/

section Counter

variable {T O ε : Type} [DecidableEq T] {max : ℕ} {domain : T} {capacity : Option ℕ}
  {s s' : Domain (stdSemaphore max) T O ε}

omit [DecidableEq T] in
/-- A release is available. -/
def Ready (s : Domain (stdSemaphore max) T O ε) : Prop :=
  ∃ c, s.queue.sem = SemState.counter (c + 1)

omit [DecidableEq T] in
theorem ready_of_release (h : (stdSemaphore max).release s.queue.sem s'.queue.sem)
    (hcounts : s'.queue.sem ≠ SemState.violated) : s'.Ready := by
  obtain ⟨c, -, hc⟩ := h
  split at hc
  · exact ⟨c, hc⟩
  · exact absurd hc hcounts

theorem Release.ready {t : T} (h : Release capacity t s s')
    (hcounts : s'.queue.sem ≠ SemState.violated) : s'.Ready := by
  obtain ⟨hq⟩ := h
  cases hq with
  | release ht hm => exact ready_of_release (s := s) hm hcounts

theorem Release.mem {t : T} (h : Release capacity t s s') : t ∈ s.queue.enqueuing := by
  obtain ⟨hq⟩ := h
  cases hq with
  | release ht hm => exact ht

omit [DecidableEq T] in
theorem Beside.ready (h : Beside s s') (hcounts : s'.queue.sem ≠ SemState.violated)
    (hs : s.Ready) : s'.Ready := by
  obtain ⟨hsem, -⟩ | hrelease := h.sem
  · obtain ⟨c, hc⟩ := hs
    exact ⟨c, hsem.trans hc⟩
  · exact ready_of_release hrelease hcounts

omit [DecidableEq T] in
theorem Beside.enqueuing_subset (h : Beside s s') (hcounts : s'.queue.sem ≠ SemState.violated)
    (hs' : ¬ s'.Ready) : s.queue.enqueuing ⊆ s'.queue.enqueuing := by
  obtain ⟨-, hsubset⟩ | hrelease := h.sem
  · exact hsubset
  · exact absurd (ready_of_release hrelease hcounts) hs'

/-- A thread that has pushed can release. -/
theorem exists_release {t : T} (hcounts : s.queue.sem ≠ SemState.violated)
    (ht : t ∈ s.queue.enqueuing) : Enabled (Release capacity t) s := by
  cases hsem : s.queue.sem with
  | violated => exact absurd hsem hcounts
  | counter c => exact ⟨_, .release (.release ht ⟨c, hsem, rfl⟩)⟩

/-- An entry that no release announces has been pushed by a thread yet to release. -/
theorem Reachable.enqueuing_nonempty (h : Reachable domain capacity s)
    (hcounts : s.queue.sem ≠ SemState.violated) (hready : ¬ s.Ready)
    (hqueue : s.queue.queue ≠ []) (hempty : s.queue.dequeuing = ∅) :
    s.queue.enqueuing.Nonempty := by
  obtain ⟨ls, hrun⟩ := h.queue_run
  obtain ⟨r, a, hreach, hcount⟩ := hrun.accounted
  have hpos := List.length_pos_iff.mpr hqueue
  cases hsem : s.queue.sem with
  | violated => exact absurd hsem hcounts
  | counter c =>
    obtain rfl : c = 0 := by
      cases c with
      | zero => rfl
      | succ c => exact absurd ⟨c, hsem⟩ hready
    have hzero := (stdSemaphore_reaches hreach).2 0 hsem
    rw [hempty, Finset.card_empty] at hcount
    exact Finset.card_pos.mp (by omega)

end Counter

/-! ### Fair runs -/

variable {T O ε : Type} [DecidableEq T] {max : ℕ} {domain : T} {capacity : Option ℕ}

/-- A run of a domain in which nobody stops for good. -/
structure FairRun (domain : T) (capacity : Option ℕ)
    (σ : ℕ → Domain (stdSemaphore max) T O ε) : Prop where
  reachable : Reachable domain capacity (σ 0)
  run : IsRun (Step domain capacity) σ
  serve : WeaklyFair (Serve domain capacity) σ
  release : ∀ t, WeaklyFair (Release capacity t) σ
  /-- the precondition of `release` is kept -/
  counts : ∀ k, (σ k).queue.sem ≠ SemState.violated
  /-- the domain thread does not wait before its own calls have returned -/
  sequential : ∀ k, (σ k).phase = .waiting → domain ∉ (σ k).queue.enqueuing

namespace FairRun

variable {σ : ℕ → Domain (stdSemaphore max) T O ε} {n k : ℕ}

theorem reachable_at (h : FairRun domain capacity σ) (k : ℕ) :
    Reachable domain capacity (σ k) := by
  induction k with
  | zero => exact h.reachable
  | succ k ih =>
    obtain hstep | heq := h.run k
    · exact ih.step hstep
    · rwa [heq]

theorem shift (h : FairRun domain capacity σ) (n : ℕ) :
    FairRun domain capacity fun k => σ (n + k) :=
  ⟨h.reachable_at n, h.run.shift n, h.serve.shift n, fun t => (h.release t).shift n,
    fun k => h.counts (n + k), fun k => h.sequential (n + k)⟩

theorem serve_or_beside (h : FairRun domain capacity σ) (k : ℕ) :
    Serve domain capacity (σ k) (σ (k + 1)) ∨ Beside (σ k) (σ (k + 1)) := by
  obtain hstep | heq := h.run k
  · exact hstep.serve_or_beside
  · rw [heq]
    exact .inr (.refl _)

/-- `Stop` cannot be undone. -/
theorem stopCalled (h : FairRun domain capacity σ) (hstop : (σ n).stopCalled = true) :
    ∀ k, n ≤ k → (σ k).stopCalled = true := by
  intro k hk
  induction k, hk using Nat.le_induction with
  | base => exact hstop
  | succ k hk ih =>
    obtain hstep | heq := h.run k
    · exact hstep.stopCalled ih
    · rwa [heq]

/-- While the loop does not move, its phase stays. -/
theorem phase_eq (h : FairRun domain capacity σ)
    (hno : ∀ k, n ≤ k → ¬ Serve domain capacity (σ k) (σ (k + 1))) :
    ∀ k, n ≤ k → (σ k).phase = (σ n).phase ∧ (σ k).queue.dequeuing = (σ n).queue.dequeuing := by
  intro k hk
  induction k, hk using Nat.le_induction with
  | base => exact ⟨rfl, rfl⟩
  | succ k hk ih =>
    have hbeside := (h.serve_or_beside k).resolve_left (hno k hk)
    exact ⟨hbeside.phase.trans ih.1, hbeside.dequeuing.trans ih.2⟩

/-- While the loop does not move, a release stays available. -/
theorem ready (h : FairRun domain capacity σ)
    (hno : ∀ k, n ≤ k → ¬ Serve domain capacity (σ k) (σ (k + 1))) (hready : (σ n).Ready) :
    ∀ k, n ≤ k → (σ k).Ready := by
  intro k hk
  induction k, hk using Nat.le_induction with
  | base => exact hready
  | succ k hk ih =>
    exact ((h.serve_or_beside k).resolve_left (hno k hk)).ready (h.counts (k + 1)) ih

/-- While the loop waits for a release, one becomes available: an entry is in the queue, and the
thread that has pushed it, or another one, is on the way to release. -/
theorem exists_ready (h : FairRun domain capacity σ)
    (hno : ∀ k, n ≤ k → ¬ Serve domain capacity (σ k) (σ (k + 1)))
    (hqueue : (σ n).queue.queue ≠ []) (hempty : (σ n).queue.dequeuing = ∅) :
    ∃ k, n ≤ k ∧ (σ k).Ready := by
  by_contra hnone
  have hnever : ∀ k, n ≤ k → ¬ (σ k).Ready := fun k hk hready => hnone ⟨k, hk, hready⟩
  obtain ⟨t, ht⟩ : (σ n).queue.enqueuing.Nonempty :=
    (h.reachable_at n).enqueuing_nonempty (h.counts n) (hnever n le_rfl) hqueue hempty
  -- without a release the thread stays where it is
  have hstays : ∀ k, n ≤ k → t ∈ (σ k).queue.enqueuing := by
    intro k hk
    induction k, hk using Nat.le_induction with
    | base => exact ht
    | succ k hk ih =>
      have hbeside := (h.serve_or_beside k).resolve_left (hno k hk)
      exact hbeside.enqueuing_subset (h.counts (k + 1)) (hnever (k + 1) (Nat.le_succ_of_le hk)) ih
  obtain ⟨k, hk, hrelease⟩ := h.release t n fun k hk =>
    exists_release (h.counts k) (hstays k hk)
  exact hnever (k + 1) (Nat.le_succ_of_le hk) (hrelease.ready (h.counts (k + 1)))

/-- The loop is not stuck while the queue holds an entry: if it does not move, it could for
good. -/
theorem exists_enabled (h : FairRun domain capacity σ) (hphase : (σ n).phase ≠ .returned)
    (hqueue : (σ n).phase = .waiting → (σ n).queue.queue ≠ [])
    (hno : ∀ k, n ≤ k → ¬ Serve domain capacity (σ k) (σ (k + 1))) :
    ∃ m, n ≤ m ∧ ∀ k, m ≤ k → Enabled (Serve domain capacity) (σ k) := by
  have hsame := h.phase_eq hno
  have halone := (h.reachable_at n).alone
  cases hn : (σ n).phase with
  | returned => exact absurd hn hphase
  | dispatching entry =>
    exact ⟨n, le_rfl, fun k hk => ⟨_, .dispatched ((hsame k hk).1.trans hn)⟩⟩
  | waiting =>
    by_cases hin : domain ∈ (σ n).queue.dequeuing
    · -- an entry has been acquired
      refine ⟨n, le_rfl, fun k hk => ?_⟩
      obtain ⟨ls, hrun⟩ := (h.reachable_at k).queue_run
      have hdequeuing : domain ∈ (σ k).queue.dequeuing := (hsame k hk).2 ▸ hin
      have hqueue := hrun.accounted.queue_ne_nil (stdSemaphore_counts max) hdequeuing
      obtain ⟨entry, rest, he⟩ := List.exists_cons_of_ne_nil hqueue
      have hfront : (σ k).queue.queue.head? = some entry := by rw [he, List.head?_cons]
      exact ⟨_, .dequeue ((hsame k hk).1.trans hn) hfront (.pop hdequeuing he)⟩
    · have hempty : (σ n).queue.dequeuing = ∅ :=
        (Finset.subset_singleton_iff.mp halone.subset).resolve_right fun heq =>
          hin (heq ▸ Finset.mem_singleton_self domain)
      obtain ⟨m, hm, hready⟩ := h.exists_ready hno (hqueue hn) hempty
      refine ⟨m, hm, fun k hk => ?_⟩
      obtain ⟨c, hc⟩ := h.ready (fun k hk => hno k (hm.trans hk)) hready k hk
      have hwaiting : (σ k).phase = .waiting := (hsame k (hm.trans hk)).1.trans hn
      have hidle : (σ k).queue.Idle domain :=
        ⟨h.sequential k hwaiting, (hsame k (hm.trans hk)).2 ▸ hin⟩
      exact ⟨_, .acquire hwaiting (.acquire hidle ⟨c, hc, rfl⟩)⟩

/-- The loop reaches the marker. -/
theorem exists_returned (h : FairRun domain capacity σ) (hstop : ∀ k, (σ k).stopCalled = true)
    (hfront : ∀ k e, (σ (k + 1)).queue.history ≠ (σ k).queue.history ++ [.pushFront e]) :
    ∃ k, (σ k).phase = .returned := by
  refine exists_of_rank (fun s : Domain (stdSemaphore max) T O ε => s.phase = .returned)
    (Serve domain capacity) (rank domain) (fun k hk _ => ?_) (fun k _ _ hserve => ?_)
    fun hnever n => ?_
  · obtain hserve | hbeside := h.serve_or_beside k
    · exact (hserve.rank_lt (h.reachable_at k).alone).le
    · exact (hbeside.rank_eq ((h.reachable_at k).exists_marker (hstop k) hk) (hfront k)).le
  · exact hserve.rank_lt (h.reachable_at k).alone
  · refine h.serve.exists_act (h.exists_enabled (hnever n) fun _ => ?_)
    obtain ⟨entry, hentry, -⟩ := (h.reachable_at n).exists_marker (hstop n) (hnever n)
    exact List.ne_nil_of_mem hentry

/-- Once `Run` has returned it stays so. -/
theorem returned_stays (h : FairRun domain capacity σ) (hn : (σ n).phase = .returned) :
    ∀ k, n ≤ k → (σ k).phase = .returned := by
  intro k hk
  induction k, hk using Nat.le_induction with
  | base => exact hn
  | succ k hk ih =>
    obtain hserve | hbeside := h.serve_or_beside k
    · exact absurd ih hserve.phase_ne
    · exact hbeside.phase.trans ih

/-- **The destructor returns.** In a fair run in which the pushes at the front come to an end, the
domain thread returns from `Run`, for good, if and only if `Stop` is called, however many entries
the other threads and the dispatched objects go on putting at the back. -/
theorem returns_iff (h : FairRun domain capacity σ) (hfront : ∃ n, ∀ k, n ≤ k → ∀ e,
      (σ (k + 1)).queue.history ≠ (σ k).queue.history ++ [.pushFront e]) :
    (∃ n, ∀ k, n ≤ k → (σ k).phase = .returned) ↔ ∃ n, (σ n).stopCalled = true := by
  constructor
  · rintro ⟨n, hn⟩
    exact ⟨n, (h.reachable_at n).stopCalled_of_returned (hn n le_rfl)⟩
  · rintro ⟨n, hn⟩
    obtain ⟨m, hm⟩ := hfront
    obtain ⟨k, hk⟩ := (h.shift (n + m)).exists_returned
      (fun k => h.stopCalled hn _ (Nat.le_add_right_of_le (Nat.le_add_right n m)))
      (fun k => hm _ (Nat.le_add_right_of_le (Nat.le_add_left m n)))
    exact ⟨_, h.returned_stays hk⟩

/-- Thread 1 calls `Stop`, and the domain thread 0 takes the marker. -/
def stopRun : ℕ → Domain (stdSemaphore 1) ℕ ℕ ℕ
  | 0 => {}
  | 1 => { queue := { queue := [.stop], enqueuing := insert 1 ∅, history := [.pushBack .stop] }
           stopCalled := true }
  | 2 => { queue := { queue := [.stop], sem := SemState.counter 1
                      enqueuing := (insert 1 ∅ : Finset ℕ).erase 1
                      history := [.pushBack .stop] }
           stopCalled := true }
  | 3 => { queue := { queue := [.stop], sem := SemState.counter 0
                      enqueuing := (insert 1 ∅ : Finset ℕ).erase 1
                      dequeuing := insert 0 ∅
                      history := [.pushBack .stop] }
           stopCalled := true }
  | _ => { queue := { sem := SemState.counter 0
                      enqueuing := (insert 1 ∅ : Finset ℕ).erase 1
                      dequeuing := (insert 0 ∅ : Finset ℕ).erase 0
                      history := [.pushBack .stop, .pop]
                      results := [.stop] }
           stopCalled := true
           phase := .returned }

theorem returns_iff_stopRun : FairRun 0 none stopRun ∧
    ∃ n, ∀ k, n ≤ k → (stopRun k).phase = .returned := by
  have hlast : ∀ k, 4 ≤ k → stopRun k = stopRun 4 := by
    intro k hk
    obtain ⟨k, rfl⟩ := Nat.exists_eq_add_of_le hk
    rw [Nat.add_comm]
    rfl
  have hrun : IsRun (Step 0 none) stopRun
    | 0 => .inl (.stop rfl (.pushBack (t := 1) ⟨by decide, by decide⟩ (EventQueue.room_none _)))
    | 1 => .inl (.release (.release (q := (stopRun 1).queue) (t := 1) (m := SemState.counter 1)
        (by decide) ⟨0, rfl, rfl⟩))
    | 2 => .inl (.acquire (s := stopRun 2) rfl (.acquire (q := (stopRun 2).queue)
        (m := SemState.counter 0) ⟨by decide, by decide⟩ ⟨0, rfl, rfl⟩))
    | 3 => .inl (.dequeue (s := stopRun 3) rfl rfl (.pop (q := (stopRun 3).queue) (by decide) rfl))
    | k + 4 => .inr rfl
  have h : FairRun 0 none stopRun := by
    refine ⟨.init, hrun, fun n hn => ?_, fun t n hn => ?_, fun k => ?_, fun k hk => ?_⟩
    · obtain ⟨s', hs'⟩ := hn (n + 4) (Nat.le_add_right n 4)
      exact absurd rfl hs'.phase_ne
    · obtain ⟨s', hs'⟩ := hn (n + 4) (Nat.le_add_right n 4)
      exact absurd hs'.mem (by simp [stopRun])
    · match k with
      | 0 | 1 | 2 | 3 | k + 4 => simp [stopRun, stdSemaphore]
    · match k with
      | 0 | 1 | 2 | 3 | k + 4 => simp [stopRun]
  refine ⟨h, (h.returns_iff ⟨4, fun k hk e => ?_⟩).mpr ⟨1, rfl⟩⟩
  rw [hlast k hk, hlast (k + 1) (Nat.le_succ_of_le hk)]
  simp

end FairRun

end Domain

end EventFramework.ActiveObjects
