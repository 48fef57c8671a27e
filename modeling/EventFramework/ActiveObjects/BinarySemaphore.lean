import EventFramework.ActiveObjects.EventQueue
import EventFramework.ForMathlib.EnterExit

/-!
# The default semaphore of the event queue

`SemaphoreType` is `std::binary_semaphore` by default: a counter with maximum 1. Each enqueue
releases it once, however long the list is, and a release at the maximum violates its
precondition, so that wake-ups can be lost.

`run_noLostWakeup_iff` says when none is: a schedule keeps every precondition, and the counter
equal to the length of the list whenever no thread is inside an operation, exactly when an
acquire lies between any two of its releases. Nothing in the queue enforces this
(`twoEnqueues_lose_wakeup`), unless its memory pool has room for one entry only
(`run_alternates_of_one_entry`).
-/

namespace EventFramework.ActiveObjects

open EnterExit

/-- `std::binary_semaphore`. -/
abbrev binarySemaphore : Semaphore := stdSemaphore 1

/-- A release raises the counter and an acquire lowers it. -/
def Label.mark {T E : Type} : Label T E → Option (Mark Unit)
  | .release _ => some (.enter ())
  | .acquire _ => some (.exit ())
  | .pushBack _ _ | .pushFront _ _ | .pop _ => none

/-- Between any two releases of the schedule there is an acquire. -/
def Alternates {T E : Type} (ls : List (Label T E)) : Prop := NoReentry (ls.filterMap Label.mark)

/-- The last of the releases and acquires is a release. -/
def Released {T E : Type} (ls : List (Label T E)) : Bool := active () (ls.filterMap Label.mark)

section Schedules

variable {T E : Type} {ls : List (Label T E)} {l : Label T E} {t : T}

theorem filterMap_mark_concat (hl : l.mark = none) :
    (ls ++ [l]).filterMap Label.mark = ls.filterMap Label.mark := by
  rw [List.filterMap_append, List.filterMap_cons_none hl, List.filterMap_nil, List.append_nil]

theorem alternates_concat_release :
    Alternates (ls ++ [.release t]) ↔ Alternates ls ∧ Released ls = false := by
  have hmarks : (ls ++ [Label.release t]).filterMap Label.mark
      = ls.filterMap Label.mark ++ [.enter ()] := List.filterMap_append
  unfold Alternates
  rw [hmarks]
  exact noReentry_concat_enter

theorem alternates_concat_acquire : Alternates (ls ++ [.acquire t]) ↔ Alternates ls := by
  have hmarks : (ls ++ [Label.acquire t]).filterMap Label.mark
      = ls.filterMap Label.mark ++ [.exit ()] := List.filterMap_append
  unfold Alternates
  rw [hmarks]
  exact noReentry_concat_exit

theorem released_concat_release : Released (ls ++ [.release t]) = true := by
  simp [Released, Label.mark]

theorem released_concat_acquire : Released (ls ++ [.acquire t]) = false := by
  simp [Released, Label.mark]

end Schedules

namespace EventQueue

variable {T E : Type} [DecidableEq T] {capacity : Option ℕ} {q q' : EventQueue binarySemaphore T E}
  {l : Label T E} {ls : List (Label T E)}

/-- At every moment of the schedule no precondition of a release has been violated, and when no
thread is inside an operation the counter is the number of entries in the list. -/
def NoLostWakeup (capacity : Option ℕ) (ls : List (Label T E)) : Prop :=
  ∀ (ls' : List (Label T E)) (q : EventQueue binarySemaphore T E), ls' <+: ls →
    Run capacity ls' q → q.sem ≠ SemState.violated ∧
      (q.enqueuing = ∅ → q.dequeuing = ∅ → q.sem = SemState.counter q.queue.length)

/-! ### The counter along a schedule -/

/-- The counter is 1 after a release and 0 after an acquire, as long as they alternate. -/
def Tracks (ls : List (Label T E)) (q : EventQueue binarySemaphore T E) : Prop :=
  (Alternates ls ∧ q.sem = SemState.counter (Released ls).toNat) ∨
    (¬ Alternates ls ∧ q.sem = SemState.violated)

omit [DecidableEq T] in
theorem Tracks.of_mark_eq_none (hq : Tracks ls q) (hl : l.mark = none) (hsem : q'.sem = q.sem) :
    Tracks (ls ++ [l]) q' := by
  unfold Tracks Alternates Released at hq ⊢
  rwa [filterMap_mark_concat hl, hsem]

theorem Step.tracks (hq : Tracks ls q) (h : Step capacity q l q') : Tracks (ls ++ [l]) q' := by
  cases h with
  | pushBack ht hroom => exact hq.of_mark_eq_none rfl rfl
  | pushFront ht hroom => exact hq.of_mark_eq_none rfl rfl
  | pop ht he => exact hq.of_mark_eq_none rfl rfl
  | release ht hm =>
    obtain ⟨n, hn, rfl⟩ := hm
    obtain ⟨hls, hsem⟩ | ⟨-, hsem⟩ := hq
    · obtain rfl : _ = n := SemState.counter.inj (hsem.symm.trans hn)
      -- at 0 the release is the first since the last acquire, at 1 it is not
      cases hrel : Released ls with
      | false =>
        refine .inl ⟨alternates_concat_release.mpr ⟨hls, hrel⟩, ?_⟩
        rw [released_concat_release]
        rfl
      | true =>
        refine .inr ⟨fun hcon => ?_, rfl⟩
        have hfalse := (alternates_concat_release.mp hcon).2
        exact Bool.noConfusion (hrel.symm.trans hfalse)
    · exact nomatch hsem.symm.trans hn
  | acquire ht hm =>
    obtain ⟨n, hn, rfl⟩ := hm
    obtain ⟨hls, hsem⟩ | ⟨-, hsem⟩ := hq
    · have hone : (Released ls).toNat = n + 1 := SemState.counter.inj (hsem.symm.trans hn)
      have hle := Bool.toNat_le (Released ls)
      obtain rfl : n = 0 := by omega
      refine .inl ⟨alternates_concat_acquire.mpr hls, ?_⟩
      rw [released_concat_acquire]
      rfl
    · exact nomatch hsem.symm.trans hn

theorem Run.tracks (h : Run capacity ls q) : Tracks ls q := by
  induction h with
  | nil => exact .inl ⟨noReentry_nil, rfl⟩
  | concat _ hstep ih => exact hstep.tracks ih

/-- A precondition has been violated exactly when the schedule does not alternate. -/
theorem Run.sem_ne_violated_iff (h : Run capacity ls q) :
    q.sem ≠ SemState.violated ↔ Alternates ls := by
  obtain ⟨hls, hsem⟩ | ⟨hls, hsem⟩ := h.tracks
  · exact ⟨fun _ => hls, fun _ hv => nomatch hsem.symm.trans hv⟩
  · exact ⟨fun hv => absurd hsem hv, fun hcon => absurd hcon hls⟩

/-- The counter is the number of entries nobody has claimed and whose producer is done. -/
theorem Run.counter_add {max : ℕ} {q : EventQueue (stdSemaphore max) T E}
    (h : Run capacity ls q) {n : ℕ} (hn : q.sem = SemState.counter n) :
    n + q.enqueuing.card + q.dequeuing.card = q.queue.length := by
  obtain ⟨r, a, hreach, hcount⟩ := h.accounted
  have hra := (stdSemaphore_reaches hreach).2 n hn
  omega

/-! ### Lost wake-ups -/

/-- **No wake-up is lost exactly under an alternating schedule.** -/
theorem run_noLostWakeup_iff (h : Run capacity ls q) :
    NoLostWakeup capacity ls ↔ Alternates ls := by
  refine ⟨fun hls => h.sem_ne_violated_iff.mp (hls ls q List.prefix_rfl h).1, ?_⟩
  intro hls ls' q' hle h'
  have hls' : Alternates ls' := hls.mono (hle.filterMap Label.mark)
  refine ⟨h'.sem_ne_violated_iff.mpr hls', fun henq hdeq => ?_⟩
  obtain ⟨-, hsem⟩ | ⟨hcon, -⟩ := h'.tracks
  · have hlen := h'.counter_add hsem
    rw [henq, hdeq, Finset.card_empty] at hlen
    rw [hsem, ← hlen]
    rfl
  · exact absurd hls' hcon

/-- A domain thread that acquires between the two events of a producer. -/
theorem run_noLostWakeup_handover : NoLostWakeup none
    [Label.pushBack 0 7, .release 0, .acquire 1, .pushBack 0 8, .release (E := ℕ) 0] := by
  have hpush : Run none [.pushBack 0 7] _ := .concat .nil
    (.pushBack (M := binarySemaphore) (t := 0) (e := 7) ⟨by decide, by decide⟩ (room_none _))
  have hrelease : Run none [.pushBack 0 7, .release 0] _ := .concat hpush
    (.release (m := SemState.counter 1) (by decide) ⟨0, rfl, rfl⟩)
  have hacquire : Run none [.pushBack 0 7, .release 0, .acquire 1] _ := .concat hrelease
    (.acquire (m := SemState.counter 0) ⟨by decide, by decide⟩ ⟨0, rfl, rfl⟩)
  have hpush' : Run none [.pushBack 0 7, .release 0, .acquire 1, .pushBack 0 8] _ :=
    .concat hacquire (.pushBack (t := 0) (e := 8) ⟨by decide, by decide⟩ (room_none _))
  have hrelease' : Run none [.pushBack 0 7, .release 0, .acquire 1, .pushBack 0 8, .release 0] _ :=
    .concat hpush' (.release (m := SemState.counter 1) (by decide) ⟨0, rfl, rfl⟩)
  refine (run_noLostWakeup_iff hrelease').mpr ?_
  exact noReentry_concat_enter.mpr ⟨noReentry_concat_exit.mpr
    (noReentry_concat_enter.mpr ⟨noReentry_nil, rfl⟩), rfl⟩

/-- Two events, sent before the domain thread runs: the second release meets a counter that is
already at its maximum. -/
theorem twoEnqueues_lose_wakeup : ¬ NoLostWakeup none
    [Label.pushBack 0 7, .release 0, .pushBack 0 8, .release (E := ℕ) 0] := by
  have hpush : Run none [.pushBack 0 7] _ := .concat .nil
    (.pushBack (M := binarySemaphore) (t := 0) (e := 7) ⟨by decide, by decide⟩ (room_none _))
  have hrelease : Run none [.pushBack 0 7, .release 0] _ := .concat hpush
    (.release (m := SemState.counter 1) (by decide) ⟨0, rfl, rfl⟩)
  have hpush' : Run none [.pushBack 0 7, .release 0, .pushBack 0 8] _ := .concat hrelease
    (.pushBack (t := 0) (e := 8) ⟨by decide, by decide⟩ (room_none _))
  have hrelease' : Run none [.pushBack 0 7, .release 0, .pushBack 0 8, .release 0] _ :=
    .concat hpush' (.release (m := SemState.violated) (by decide) ⟨1, rfl, rfl⟩)
  exact fun h => (h _ _ List.prefix_rfl hrelease').1 rfl

/-! ### A queue with room for one entry -/

theorem Run.length_le {M : Semaphore} {q : EventQueue M T E} {n : ℕ} (h : Run (some n) ls q) :
    q.queue.length ≤ n := by
  induction h with
  | nil => exact Nat.zero_le n
  | concat _ hstep ih =>
    cases hstep with
    | pushBack ht hroom =>
      have hlt := hroom n rfl
      simp only [List.length_append, List.length_singleton]
      omega
    | pushFront ht hroom => exact hroom n rfl
    | release ht hm => exact ih
    | acquire ht hm => exact ih
    | pop ht he =>
      rw [he, List.length_cons] at ih
      exact Nat.le_of_succ_le ih

/-- **An embedded queue with room for one entry loses no wake-up.** The next push waits for the
pop of the entry before, and that for the acquire. -/
theorem run_alternates_of_one_entry (h : Run (some 1) ls q) : Alternates ls := by
  induction h with
  | nil => exact noReentry_nil
  | @concat ls l q q' hq hstep ih =>
    refine (hq.concat hstep).sem_ne_violated_iff.mp fun hviolated => ?_
    cases hstep with
    | pushBack ht hroom => exact hq.sem_ne_violated_iff.mpr ih hviolated
    | pushFront ht hroom => exact hq.sem_ne_violated_iff.mpr ih hviolated
    | pop ht he => exact hq.sem_ne_violated_iff.mpr ih hviolated
    | acquire ht hm =>
      obtain ⟨n, -, rfl⟩ := hm
      exact nomatch hviolated
    | release ht hm =>
      -- the producer's own entry is the only one, so nothing has been released yet
      obtain ⟨n, hn, rfl⟩ := hm
      have hlen := hq.counter_add hn
      have hle := hq.length_le
      have hpos := Finset.card_pos.mpr ⟨_, ht⟩
      rw [if_pos (by omega)] at hviolated
      exact nomatch hviolated

end EventQueue

end EventFramework.ActiveObjects
