import EventFramework.ActiveObjects.Domain
import EventFramework.Signals.Lifetime
import Mathlib.Algebra.Order.Group.Multiset
import Mathlib.Tactic.Abel

/-!
# Signals on their way through a domain

The events of the queue entries are signals from a pool. `Take` copies the pointer it is given
into an entry, the entry moves to the loop of `Run`, and is destroyed with the round of the loop
in which it is dispatched. Meanwhile every thread goes on with the pointers it has, also the
dispatched object with copies of the pointer it is shown.

Every shared owner is a pointer of a thread or one in an entry (`Flow.Held`), and a thread drops
its own only. So no signal dies before it has been dispatched, and when no pointer is left
elsewhere the blocks missing in the pool are those of the events in the queue
(`reachable_flow`).
-/

namespace EventFramework.Signals

open ActiveObjects SharedOwnership

/-! ### Events in the queue -/

section InFlight

variable {M : Semaphore} {T O ε : Type}

/-- The pointers of the entries in the queue and of the entry in dispatch. -/
def inFlight (s : Domain M T O ε) : Multiset ε :=
  (s.queue.queue ++ Domain.taken s.phase).filterMap QueueEntry.event

/-- What happens to the pointers in entries. -/
inductive Moved (before after : Multiset ε) (o : Owners ε) [DecidableEq ε] : Owners ε → Prop
  | same (h : after = before) : Moved before after o o
  /-- a new entry has a copy of a pointer that exists -/
  | copied (b : ε) (hb : b ∈ o.shared) (h : after = b ::ₘ before) : Moved before after o (o.share b)
  /-- an entry is destroyed -/
  | dropped (b : ε) (h : before = b ::ₘ after) : Moved before after o (o.reset b)

variable [DecidableEq T] {s s' : Domain M T O ε} {domain : T} {capacity : Option ℕ}

omit [DecidableEq T] in
theorem inFlight_eq (s : Domain M T O ε) : inFlight s =
    (s.queue.queue.filterMap QueueEntry.event : List ε) +
      ((Domain.taken s.phase).filterMap QueueEntry.event : List ε) := by
  rw [inFlight, List.filterMap_append, Multiset.coe_add]

omit [DecidableEq T] in
/-- An entry comes in, or goes. -/
theorem inFlight_add {entry : QueueEntry O ε}
    (h : inFlight s' = ([entry].filterMap QueueEntry.event : List ε) + inFlight s) :
    inFlight s' = inFlight s ∨ ∃ b, inFlight s' = b ::ₘ inFlight s := by
  cases hevent : entry.event with
  | none => exact .inl (by simpa [hevent] using h)
  | some b => exact .inr ⟨b, by simpa [hevent, Multiset.singleton_add] using h⟩

/-- The steps of a domain move pointers, add one, or drop one. -/
theorem inFlight_step (h : Domain.Step domain capacity s s') :
    inFlight s' = inFlight s ∨ ∃ b, inFlight s' = b ::ₘ inFlight s ∨
      inFlight s = b ::ₘ inFlight s' := by
  suffices hcase : inFlight s' = inFlight s ∨ ∃ entry : QueueEntry O ε,
      inFlight s' = ([entry].filterMap QueueEntry.event : List ε) + inFlight s ∨
        inFlight s = ([entry].filterMap QueueEntry.event : List ε) + inFlight s' by
    obtain hsame | ⟨entry, hadd | hdrop⟩ := hcase
    · exact .inl hsame
    · exact (inFlight_add hadd).imp_right fun ⟨b, hb⟩ => ⟨b, .inl hb⟩
    · exact (inFlight_add hdrop).imp Eq.symm fun ⟨b, hb⟩ => ⟨b, .inr hb⟩
  cases h with
  | @enqueueBack _ target event queue hq =>
    refine .inr ⟨⟨some target, event⟩, .inl ?_⟩
    rw [inFlight_eq, inFlight_eq, hq.queue_eq, List.filterMap_append, ← Multiset.coe_add]
    abel
  | @enqueueFront _ target event queue hq =>
    refine .inr ⟨⟨some target, event⟩, .inl ?_⟩
    rw [inFlight_eq, inFlight_eq, hq.queue_eq, ← List.singleton_append, List.filterMap_append,
      ← Multiset.coe_add, add_assoc]
  | stop honce hq =>
    left
    rw [inFlight_eq, inFlight_eq, hq.queue_eq, List.filterMap_append]
    simp [QueueEntry.stop]
  | release hq => exact .inl (by rw [inFlight_eq, inFlight_eq, hq.queue_eq])
  | acquire hphase hq => exact .inl (by rw [inFlight_eq, inFlight_eq, hq.queue_eq])
  | @dequeue entry queue hphase hfront hq =>
    obtain ⟨e, he⟩ := hq.queue_eq
    obtain rfl : e = entry := by simpa [he] using hfront
    have hbefore : inFlight s = ([e].filterMap QueueEntry.event : List ε) +
        (queue.queue.filterMap QueueEntry.event : List ε) := by
      rw [inFlight_eq, hphase, he, ← List.singleton_append, List.filterMap_append,
        ← Multiset.coe_add]
      simp
    by_cases htarget : e.target = none
    · refine .inr ⟨e, .inr ?_⟩
      rw [hbefore, inFlight_eq, Domain.received_eq_returned.mpr htarget]
      simp [QueueEntry.stop]
    · left
      rw [hbefore, inFlight_eq, Domain.received_of_target htarget, add_comm]
      rfl
  | @dispatched entry hphase =>
    refine .inr ⟨entry, .inr ?_⟩
    rw [inFlight_eq, inFlight_eq, hphase, add_comm]
    simp

end InFlight

/-! ### Domain and pool -/

/-- A domain whose events are signals, and the shared pointers that are in no entry. -/
structure Flow (M : Semaphore) (T O : Type) {I : Type} (R : I → BlockResource) where
  domain : Domain M T O (Block I) := {}
  store : Store R
  /-- the pointers of the threads, those in data they keep included -/
  pointers : Multiset (Block I) := 0

namespace Flow

variable {M : Semaphore} {T O I : Type} [DecidableEq T] [DecidableEq I] {R : I → BlockResource}

/-- The steps. A thread makes signals, and copies and drops its pointers; a step of the domain
takes its pointers along. -/
inductive Step (domain : T) (capacity : Option ℕ) : Flow M T O R → Flow M T O R → Prop
  | make {s : Flow M T O R} {bytes alignment b store}
      (h : Store.makeShared bytes alignment s.store = .ok b store) :
      Step domain capacity s { s with store, pointers := b ::ₘ s.pointers }
  | copy {s : Flow M T O R} {b} (hb : b ∈ s.store.owners.shared) :
      Step domain capacity s { s with
        store := { s.store with owners := s.store.owners.share b }
        pointers := b ::ₘ s.pointers }
  | lock {s : Flow M T O R} {b} (hb : b ∈ s.store.owners.weak)
      (hshared : b ∈ s.store.owners.shared) :
      Step domain capacity s { s with
        store := { s.store with owners := s.store.owners.share b }
        pointers := b ::ₘ s.pointers }
  | drop {s : Flow M T O R} {b} (hb : b ∈ s.pointers) :
      Step domain capacity s { s with
        store := { s.store with owners := s.store.owners.reset b }
        pointers := s.pointers.erase b }
  /-- whatever else happens to signals; no shared pointer comes or goes -/
  | store {s : Flow M T O R} {store} (h : s.store.Step store)
      (hshared : store.owners.shared = s.store.owners.shared) :
      Step domain capacity s { s with store }
  | domain {s : Flow M T O R} {dom owners} (h : Domain.Step domain capacity s.domain dom)
      (hmoved : Moved (inFlight s.domain) (inFlight dom) s.store.owners owners) :
      Step domain capacity s { s with domain := dom, store := { s.store with owners } }

/-- The states reached with new resources and an empty queue. -/
inductive Reachable (domain : T) (capacity : Option ℕ) : Flow M T O R → Prop
  | init {pools : ∀ i, (R i).State} (h : ∀ i, (R i).resource.Init (pools i)) :
      Reachable domain capacity { store := { sessions := fun i => ⟨pools i, []⟩ } }
  | step {s s' : Flow M T O R} (hs : Reachable domain capacity s)
      (h : Step domain capacity s s') : Reachable domain capacity s'

/-- **The shared owners are the pointers** of the threads and of the entries, and both parts keep
their rules. -/
structure Held (domain : T) (capacity : Option ℕ) (s : Flow M T O R) : Prop where
  domain : Domain.Reachable domain capacity s.domain
  store : s.store.Reachable
  shared : s.store.owners.shared = s.pointers + inFlight s.domain

/-- Only the pointers in entries are left. -/
structure AllInFlight (s : Flow M T O R) : Prop where
  shared : s.store.owners.shared = inFlight s.domain
  weak : s.store.owners.weak = 0
  disposing : s.store.owners.disposing = ∅
  returning : s.store.owners.returning = ∅

variable {domain : T} {capacity : Option ℕ} {s s' : Flow M T O R}

theorem Held.le (hs : s.Held domain capacity) : inFlight s.domain ≤ s.store.owners.shared := by
  rw [hs.shared]
  exact Multiset.le_add_left _ _

theorem Step.held (hs : s.Held domain capacity) (h : Step domain capacity s s') :
    s'.Held domain capacity := by
  obtain ⟨hdomain, hstore, hshared⟩ := hs
  cases h with
  | @make bytes alignment b store h =>
    obtain ⟨-, -, -, -, howners, -⟩ := hstore.sound.makeShared_ok h
    refine ⟨hdomain, hstore.step (.makeShared h), ?_⟩
    simp only [howners, Owners.share, hshared, Multiset.cons_add]
  | copy hb =>
    refine ⟨hdomain, hstore.step (.use (.copy hb)), ?_⟩
    simp only [Owners.share, hshared, Multiset.cons_add]
  | lock hb hmem =>
    refine ⟨hdomain, hstore.step (.use (.lock hb hmem)), ?_⟩
    simp only [Owners.share, hshared, Multiset.cons_add]
  | @drop b hb =>
    have hmem : b ∈ s.store.owners.shared := by
      rw [hshared]
      exact Multiset.mem_add.mpr (.inl hb)
    refine ⟨hdomain, hstore.step (.use (.reset hmem)), ?_⟩
    simp only [Owners.reset, hshared, Multiset.erase_add_left_pos _ hb]
  | store h hsame => exact ⟨hdomain, hstore.step h, hsame.trans hshared⟩
  | @domain dom owners h hmoved =>
    refine ⟨hdomain.step h, ?_, ?_⟩
    · cases hmoved with
      | same hsame => exact hstore
      | copied b hb hcopied => exact hstore.step (.use (.copy hb))
      | dropped b hdropped =>
        have hb : b ∈ s.store.owners.shared := by
          rw [hshared, hdropped]
          exact Multiset.mem_add.mpr (.inr (Multiset.mem_cons_self b _))
        exact hstore.step (.use (.reset hb))
    · cases hmoved with
      | same hsame => simp only [hsame, hshared]
      | copied b hb hcopied => simp only [hcopied, Owners.share, hshared, Multiset.add_cons]
      | dropped b hdropped =>
        have hb : b ∈ inFlight s.domain := by
          rw [hdropped]
          exact Multiset.mem_cons_self b _
        simp only [Owners.reset, hshared, Multiset.erase_add_right_pos _ hb]
        rw [hdropped, Multiset.erase_cons_head]

theorem Reachable.held (h : Reachable domain capacity s) : s.Held domain capacity := by
  induction h with
  | init h => exact ⟨.init, .init h, rfl⟩
  | step _ hstep ih => exact hstep.held ih

/-- **No step of the domain is left out**, as long as a new entry has a pointer that exists. -/
theorem exists_step {dom : Domain M T O (Block I)} (h : Domain.Step domain capacity s.domain dom)
    (hnew : ∀ b, inFlight dom = b ::ₘ inFlight s.domain → b ∈ s.store.owners.shared) :
    ∃ owners, Step domain capacity s
      { s with domain := dom, store := { s.store with owners } } := by
  obtain hsame | ⟨b, hadd | hdrop⟩ := inFlight_step h
  · exact ⟨_, .domain h (.same hsame)⟩
  · exact ⟨_, .domain h (.copied b (hnew b hadd) hadd)⟩
  · exact ⟨_, .domain h (.dropped b hdrop)⟩

omit [DecidableEq T] in
theorem AllInFlight.inUse_eq (h : s.AllInFlight) :
    s.store.owners.inUse = (inFlight s.domain).toFinset := by
  simp [Owners.inUse, h.shared, h.weak, h.disposing, h.returning]

/-- **No signal dies on its way.** Under every interleaving of the threads that make signals and
move pointers with those that use the queue, the domain and the signals run by their own rules;
the signal of every entry in the queue or in dispatch
has an owner, its object is not being destroyed and its block is not on its way back, and
`MakeShared` does not give that block out; so no more signals are in the queue than their pool has
blocks. When no pointer is left elsewhere, the blocks missing in each pool are those of the events
in the entries. -/
theorem reachable_flow (h : Reachable domain capacity s) :
    Domain.Reachable domain capacity s.domain ∧ s.store.Reachable ∧
    (∀ b ∈ inFlight s.domain, b ∈ s.store.owners.shared ∧ b ∉ s.store.owners.disposing ∧
      b ∉ s.store.owners.returning) ∧
    (∀ bytes alignment b store, Store.makeShared bytes alignment s.store = .ok b store →
      b ∉ inFlight s.domain) ∧
    (∀ i, ((inFlight s.domain).toFinset.filter fun b => b.resource = i).card ≤ (R i).blocks) ∧
    (s.AllInFlight → ∀ i, (R i).resource.fillLevel (s.store.sessions i).pool +
      ((inFlight s.domain).toFinset.filter fun b => b.resource = i).card = (R i).blocks) := by
  obtain ⟨hdomain, hstore, -⟩ := h.held
  have hle := h.held.le
  have hs := hstore.sound
  have hshared : ∀ b ∈ inFlight s.domain, b ∈ s.store.owners.shared :=
    fun b hb => Multiset.mem_of_le hle hb
  have hsubset : (inFlight s.domain).toFinset ⊆ s.store.owners.inUse := fun b hb =>
    Owners.mem_inUse.mpr (.inl (hshared b (Multiset.mem_toFinset.mp hb)))
  refine ⟨hdomain, hstore,
    fun b hb => ⟨hshared b hb, fun hmem => hs.disjoint.disposing hmem (hshared b hb),
      fun hmem => (hs.disjoint.returning hmem).1 (hshared b hb)⟩,
    fun bytes alignment b store hcall hb => ?_, fun i => ?_, fun hall i => ?_⟩
  · obtain ⟨-, -, -, hfresh, -⟩ := hs.makeShared_ok hcall
    exact hfresh (hsubset (Multiset.mem_toFinset.mpr hb))
  · have hcard := Finset.card_le_card
      (Finset.filter_subset_filter (fun b => b.resource = i) hsubset)
    exact hcard.trans (Nat.le.intro ((Nat.add_comm _ _).trans (hs.fillLevel_add i)))
  · rw [← hall.inUse_eq]
    exact hs.fillLevel_add i

/-- A producer has made a signal, put it in the queue and let go of it: one block is missing. -/
theorem reachable_flow_queued : ∃ s : Flow (stdSemaphore 1) ℕ ℕ Store.twoPools,
    Reachable 0 none s ∧ s.AllInFlight ∧ (inFlight s.domain).card = 1 ∧
    (Store.twoPools true).resource.fillLevel (s.store.sessions true).pool = 1 := by
  obtain ⟨pools, hpools⟩ := Store.exists_init
  have hinit : Reachable (M := stdSemaphore 1) (O := ℕ) 0 none _ := Reachable.init hpools
  have hset := hinit.step (.store (.setAllocator
    (rfl : CustomAllocator.setAllocator (some true) {} = .ok () ⟨some true, none⟩)) rfl)
  have hserved := hset.held.store.sound.makeShared_iff (i := true) rfl 16 8
  obtain ⟨b, store, hcall⟩ := hserved.mpr ⟨by decide, Nat.zero_lt_two⟩
  obtain ⟨hb, -, -, -, howners, -⟩ := hset.held.store.sound.makeShared_ok hcall
  obtain ⟨allocator, sessions, owners⟩ := store
  obtain rfl : owners = { shared := {b} } := howners
  have hmade := hset.step (.make hcall)
  let entry : QueueEntry ℕ (Block Bool) := ⟨some 5, some b⟩
  let dom : Domain (stdSemaphore 1) ℕ ℕ (Block Bool) :=
    { queue := { queue := [entry], enqueuing := insert 1 ∅, history := [.pushBack entry] } }
  have hqueued : Reachable 0 none
      ⟨dom, ⟨allocator, sessions, { shared := b ::ₘ {b} }⟩, {b}⟩ :=
    hmade.step (.domain (.enqueueBack (.pushBack
        ⟨Finset.notMem_empty 1, Finset.notMem_empty 1⟩ (EventQueue.room_none _)))
      (.copied b (Multiset.mem_singleton_self b) rfl))
  -- the producer drops its own pointer
  have hreset : Owners.reset b { shared := b ::ₘ {b} } = { shared := {b} } := by
    simp [Owners.reset]
  have hdropped := hqueued.step (.drop (Multiset.mem_singleton_self b))
  simp only [hreset] at hdropped
  have hall : AllInFlight (M := stdSemaphore 1) (T := ℕ) (O := ℕ) (R := Store.twoPools)
      ⟨dom, ⟨allocator, sessions, { shared := {b} }⟩, Multiset.erase {b} b⟩ := ⟨rfl, rfl, rfl, rfl⟩
  have hfill : _ + ((inFlight dom).toFinset.filter fun b => b.resource = true).card = 2 :=
    (reachable_flow hdropped).2.2.2.2.2 hall true
  have hresource : b.resource = true := (Option.some.inj hb).symm
  have hone : ((inFlight dom).toFinset.filter fun b => b.resource = true).card = 1 := by
    have htoFinset : (inFlight dom).toFinset = {b} := rfl
    rw [htoFinset, Finset.filter_singleton, if_pos hresource, Finset.card_singleton]
  refine ⟨_, hdropped, hall, rfl, ?_⟩
  rw [hone] at hfill
  exact Nat.succ.inj hfill

end Flow

end EventFramework.Signals
