import EventFramework.ForMathlib.TraceRefinement
import EventFramework.Pools.PoolRuns
import Mathlib.Data.Finset.Basic
import Mathlib.Data.Finset.Insert
import Mathlib.Data.Finset.Option

/-!
# The static pool under threads

The runs of a pool so far are sequences of whole calls. Here threads run `do_allocate` and
`do_deallocate` one memory access after the other (`advance`), and between any two of them
other threads go on: they wait for `mutex_`, write into the blocks they hold, and read
`fill_level_` without the lock, as `FillLevel` does.

`StaticPool.concurrent` is this system, and `StaticPool.atomic` the one in which a call is
carried out in a single step, by the functions the other files are about. The first refines the
second (`concurrent_linearizable`): the threads cannot observe that the calls are not atomic, not
even with `FillLevel`, and so all that has been proved about sequences of whole calls holds for
threads.
-/

namespace EventFramework.Pools

namespace Client.Intact

variable {c : Config} {s : Client c} {free held : List (Fin c.numElements)}

/-- At a fill level other than 0, `first_` points to an element that is not live. -/
theorem exists_first (h : s.Intact free held) (hfill : s.pool.fillLevel ≠ 0) :
    ∃ i, s.pool.first = c.address i ∧ c.address i ∉ s.live := by
  cases free with
  | nil => exact absurd h.fillLevel_eq hfill
  | cons i rest =>
    obtain ⟨hfirst, -⟩ := PointerChain.Seg.cons_iff.mp h.freeList
    exact ⟨i, StaticPool.eq_of_nonnull hfirst, h.mem_free_iff.mp List.mem_cons_self⟩

/-- While a block is live, the fill level is below the number of elements. -/
theorem fillLevel_add_one_le (h : s.Intact free held) {i : Fin c.numElements}
    (hi : c.address i ∈ s.live) : s.pool.fillLevel + 1 ≤ BitVec.ofNat 64 c.numElements := by
  have hfill := h.fillLevel
  have hlen := h.length_add
  have hpos := List.length_pos_of_mem hi
  have hlt := c.numElements_lt
  bv_omega

end Client.Intact

namespace StaticPool

open TraceRefinement

/-! ### Calls -/

/-- A call to the pool. -/
inductive Call
  | allocate (bytes alignment : ℕ)
  | deallocate (ptr : BitVec 64) (bytes alignment : ℕ)

/-- What a call returns, or the fault it ends with. -/
abbrev Returned := Except Fault (Option (BitVec 64))

/-- What a thread can observe of the others, and they of it. -/
inductive Event (T : Type) (c : Config)
  | call (t : T) (call : Call)
  | returns (t : T) (returned : Returned)
  | fillLevel (t : T) (level : BitVec 64)
  | read (i : Fin c.numElements) (contents : Fin c.words → BitVec 64)
  | write (i : Fin c.numElements) (contents : Fin c.words → BitVec 64)

namespace Call

/-- The block a call gives up. -/
def block : Call → Option (BitVec 64)
  | .allocate _ _ => none
  | .deallocate ptr _ _ => some ptr

variable {c : Config}

/-- Carry out a call. -/
def perform (s : Client c) : Call → Returned × Client c
  | .allocate bytes alignment =>
    match doAllocate bytes alignment s.pool with
    | .ok ptr pool => (.ok (some ptr), ⟨pool, ptr :: s.live⟩)
    | .error f pool => (.error f, ⟨pool, s.live⟩)
  | .deallocate ptr bytes alignment =>
    match doDeallocate ptr bytes alignment s.pool with
    | .ok _ pool => (.ok none, ⟨pool, s.live.erase ptr⟩)
    | .error f pool => (.error f, ⟨pool, s.live.erase ptr⟩)

/-- A call is a step of the pool and its clients. -/
theorem perform_step {s : Client c} {call : Call}
    (h : ∀ ptr, call.block = some ptr → ptr ∈ s.live) : Client.Step s (call.perform s).2 := by
  cases call with
  | allocate bytes alignment =>
    simp only [perform]
    cases hcall : doAllocate bytes alignment s.pool with
    | ok ptr pool => exact .allocate bytes alignment hcall
    | error f pool => exact .allocateFails bytes alignment hcall
  | deallocate ptr bytes alignment =>
    simp only [perform]
    cases hcall : doDeallocate ptr bytes alignment s.pool with
    | ok _ pool => exact .deallocate (h ptr rfl) bytes alignment hcall
    | error f pool => exact .deallocateFails (h ptr rfl) bytes alignment hcall

end Call

/-- The block a caller gets. -/
def Returned.block : Returned → Option (BitVec 64)
  | .ok ptr => ptr
  | .error _ => none

/-! ### Atomic calls -/

/-- Where a thread is. -/
inductive Status
  | idle
  | called (call : Call)
  | done (returned : Returned)

/-- A pool with its clients: the threads, and the blocks they hold. -/
structure Atomic (T : Type) (c : Config) where
  client : Client c
  status : T → Status
  held : Finset (BitVec 64)

section

variable {T : Type} [DecidableEq T] {c : Config}

/-- The steps with atomic calls. A thread may give up a block that any of them holds. -/
inductive Atomic.Step : Atomic T c → Option (Event T c) → Atomic T c → Prop
  | call {s : Atomic T c} (t : T) (call : Call) (hidle : s.status t = .idle)
      (hheld : ∀ ptr, call.block = some ptr → ptr ∈ s.held) :
      Step s (some (.call t call))
        { s with
          status := Function.update s.status t (.called call)
          held := s.held \ call.block.toFinset }
  | perform {s : Atomic T c} {t : T} {call : Call} (hcalled : s.status t = .called call) :
      Step s none
        { s with
          client := (call.perform s.client).2
          status := Function.update s.status t (.done (call.perform s.client).1) }
  | returns {s : Atomic T c} {t : T} {returned : Returned} (hdone : s.status t = .done returned) :
      Step s (some (.returns t returned))
        { s with
          status := Function.update s.status t .idle
          held := s.held ∪ returned.block.toFinset }
  | fillLevel {s : Atomic T c} (t : T) :
      Step s (some (.fillLevel t s.client.pool.fillLevel)) s
  | read {s : Atomic T c} {i : Fin c.numElements} (hi : c.address i ∈ s.held) :
      Step s (some (.read i (s.client.pool.poolMem i))) s
  | write {s : Atomic T c} {i : Fin c.numElements} (hi : c.address i ∈ s.held)
      (contents : Fin c.words → BitVec 64) :
      Step s (some (.write i contents))
        { s with client := ⟨s.client.pool.write i contents, s.client.live⟩ }

/-- The pool with atomic calls. -/
def atomic (T : Type) [DecidableEq T] (c : Config) : System (Atomic T c) (Event T c) where
  Init s := StaticPool.construct c = .ok () s.client.pool ∧ s.client.live = [] ∧
    (∀ t, s.status t = .idle) ∧ s.held = ∅
  Step := Atomic.Step

end

/-! ### The accesses of a call -/

/-- A point in a function of the pool, with the lock held. -/
inductive Point
  /-- before `Assert(FillLevel() != 0)` -/
  | allocate
  /-- before `first_` is read -/
  | takeFirst
  /-- before `result->next` is read -/
  | readNext (result : BitVec 64)
  /-- before `first_` is written -/
  | setFirst (result next : BitVec 64)
  /-- before `fill_level_--` -/
  | countDown (result : BitVec 64)
  /-- before `first_` is read, in `do_deallocate` -/
  | deallocate (ptr : BitVec 64)
  /-- before `ptr->next` is written -/
  | link (ptr first : BitVec 64)
  /-- before `first_` is written -/
  | push (ptr : BitVec 64)
  /-- before `fill_level_++` -/
  | countUp (ptr : BitVec 64)
  /-- before `Assert(FillLevel() <= NumElements)` -/
  | check
  /-- the lock is about to be released, at the end or by an exception -/
  | leave (returned : Returned)

/-- The next access of the thread that holds the lock. -/
def advance {c : Config} (pool : StaticPool c) : Point → Point × StaticPool c
  | .allocate =>
    if pool.fillLevel ≠ 0 then (.takeFirst, pool) else (.leave (.error .assertion), pool)
  | .takeFirst => (.readNext pool.first, pool)
  | .readNext result =>
    match c.pointee result with
    | none => (.leave (.error .badPointer), pool)
    | some i => (.setFirst result (pool.poolMem i c.nextWord), pool)
  | .setFirst result next => (.countDown result, { pool with first := next })
  | .countDown result =>
    (.leave (.ok (some result)), { pool with fillLevel := pool.fillLevel - 1 })
  | .deallocate ptr => (.link ptr pool.first, pool)
  | .link ptr first =>
    match c.pointee ptr with
    | none => (.leave (.error .badPointer), pool)
    | some i =>
      (.push ptr, pool.write i (Function.update (pool.poolMem i) c.nextWord first))
  | .push ptr => (.countUp ptr, { pool with first := ptr })
  | .countUp _ => (.check, { pool with fillLevel := pool.fillLevel + 1 })
  | .check =>
    if pool.fillLevel ≤ BitVec.ofNat 64 c.numElements then
      (.leave (.ok none), pool)
    else
      (.leave (.error .assertion), pool)
  | .leave returned => (.leave returned, pool)

/-- Where a thread is. -/
inductive Place
  | idle
  | called (call : Call)
  /-- waiting for the lock -/
  | waiting (call : Call)
  | inside (call : Call) (point : Point)
  | done (returned : Returned)

/-- The first point of a call with the lock held. -/
def Call.point : Call → Point
  | .allocate _ _ => .allocate
  | .deallocate ptr _ _ => .deallocate ptr

/-- What a call does before it waits for the lock: `Assert(bytes <= kAlignedElementSize)`. -/
def Call.enter (c : Config) : Call → Place
  | .allocate bytes alignment =>
    if bytes ≤ kAlignedElementSize c.elemSize then .waiting (.allocate bytes alignment)
    else .done (.error .assertion)
  | .deallocate ptr bytes alignment => .waiting (.deallocate ptr bytes alignment)

/-- A pool and its threads. -/
structure Concurrent (T : Type) (c : Config) where
  pool : StaticPool c
  mutex : Option T
  place : T → Place
  held : Finset (BitVec 64)

variable {T : Type} [DecidableEq T] {c : Config}

/-- The steps of the threads. -/
inductive Concurrent.Step : Concurrent T c → Option (Event T c) → Concurrent T c → Prop
  | call {s : Concurrent T c} (t : T) (call : Call) (hidle : s.place t = .idle)
      (hheld : ∀ ptr, call.block = some ptr → ptr ∈ s.held) :
      Step s (some (.call t call))
        { s with
          place := Function.update s.place t (.called call)
          held := s.held \ call.block.toFinset }
  | enter {s : Concurrent T c} {t : T} {call : Call} (hcalled : s.place t = .called call) :
      Step s none { s with place := Function.update s.place t (call.enter c) }
  | lock {s : Concurrent T c} {t : T} {call : Call} (hwaiting : s.place t = .waiting call)
      (hfree : s.mutex = none) :
      Step s none
        { s with
          mutex := some t
          place := Function.update s.place t (.inside call call.point) }
  | advance {s : Concurrent T c} {t : T} {call : Call} {point : Point}
      (hinside : s.place t = .inside call point) :
      Step s none
        { s with
          pool := (StaticPool.advance s.pool point).2
          place := Function.update s.place t (.inside call (StaticPool.advance s.pool point).1) }
  | unlock {s : Concurrent T c} {t : T} {call : Call} {returned : Returned}
      (hinside : s.place t = .inside call (.leave returned)) :
      Step s none
        { s with
          mutex := none
          place := Function.update s.place t (.done returned) }
  | returns {s : Concurrent T c} {t : T} {returned : Returned}
      (hdone : s.place t = .done returned) :
      Step s (some (.returns t returned))
        { s with
          place := Function.update s.place t .idle
          held := s.held ∪ returned.block.toFinset }
  | fillLevel {s : Concurrent T c} (t : T) :
      Step s (some (.fillLevel t s.pool.fillLevel)) s
  | read {s : Concurrent T c} {i : Fin c.numElements} (hi : c.address i ∈ s.held) :
      Step s (some (.read i (s.pool.poolMem i))) s
  | write {s : Concurrent T c} {i : Fin c.numElements} (hi : c.address i ∈ s.held)
      (contents : Fin c.words → BitVec 64) :
      Step s (some (.write i contents)) { s with pool := s.pool.write i contents }

/-- The pool under threads. -/
def concurrent (T : Type) [DecidableEq T] (c : Config) : System (Concurrent T c) (Event T c) where
  Init s := StaticPool.construct c = .ok () s.pool ∧ s.mutex = none ∧
    (∀ t, s.place t = .idle) ∧ s.held = ∅
  Step := Concurrent.Step

/-! ### The atomic calls -/

/-- The block a thread carries: in a call that gives it up, or as the result of one. -/
def Status.block : Status → Option (BitVec 64)
  | .idle => none
  | .called call => call.block
  | .done returned => returned.block

/-- Who has a block: a thread carries it, or (`none`) it is held. -/
def Atomic.Owns (s : Atomic T c) : Option T → BitVec 64 → Prop
  | none, ptr => ptr ∈ s.held
  | some t, ptr => (s.status t).block = some ptr

/-- **The invariant** of the atomic calls: a block has one owner, and it is live. -/
structure Atomic.Sound (s : Atomic T c) : Prop where
  reachable : s.client.Reachable
  live : ∀ owner ptr, s.Owns owner ptr → ptr ∈ s.client.live
  unique : ∀ owner owner' ptr, s.Owns owner ptr → s.Owns owner' ptr → owner = owner'

/-- A call takes only the block away that it is given, and what it returns was not live. -/
theorem Call.perform_live {s : Client c} (hpos : 0 < c.numElements) (hs : s.Reachable)
    (call : Call) : (∀ ptr ∈ s.live, call.block ≠ some ptr → ptr ∈ (call.perform s).2.live) ∧
      ∀ ptr, (call.perform s).1.block = some ptr →
        ptr ∉ s.live ∧ ptr ∈ (call.perform s).2.live := by
  cases call with
  | allocate bytes alignment =>
    simp only [perform]
    cases hcall : doAllocate bytes alignment s.pool with
    | ok ptr pool =>
      refine ⟨fun q hq _ => List.mem_cons_of_mem _ hq, fun q hq => ?_⟩
      obtain rfl := Option.some.inj hq
      obtain ⟨i, -, hfresh⟩ :=
        ((Client.reachable_freeList hpos).2 s hs).2.1 bytes alignment ptr pool hcall
      exact ⟨hfresh, List.mem_cons_self⟩
    | error f pool => exact ⟨fun _ hq _ => hq, fun _ hq => nomatch hq⟩
  | deallocate ptr bytes alignment =>
    have hkeep : ∀ q ∈ s.live, (Call.deallocate ptr bytes alignment).block ≠ some q →
        q ∈ s.live.erase ptr := fun q hq hne =>
      (List.mem_erase_of_ne fun heq => hne (congrArg some heq.symm)).mpr hq
    simp only [perform]
    cases hcall : doDeallocate ptr bytes alignment s.pool with
    | ok _ pool => exact ⟨hkeep, fun _ hq => nomatch hq⟩
    | error f pool => exact ⟨hkeep, fun _ hq => nomatch hq⟩

namespace Atomic

variable {s s' : Atomic T c}

omit [DecidableEq T] in
/-- A step that moves a block to an owner, and else takes blocks away only. -/
theorem Sound.move (h : s.Sound) (hs' : s'.client.Reachable) (target : Option T)
    (moved : Option (BitVec 64))
    (howns : ∀ owner ptr, s'.Owns owner ptr → ptr ∈ s'.client.live ∧
      (moved ≠ some ptr ∧ s.Owns owner ptr ∨ moved = some ptr ∧ owner = target)) : s'.Sound where
  reachable := hs'
  live owner ptr hptr := (howns owner ptr hptr).1
  unique owner owner' ptr hptr hptr' := by
    obtain ⟨-, ⟨hne, hold⟩ | ⟨heq, rfl⟩⟩ := howns owner ptr hptr
    all_goals obtain ⟨-, ⟨hne', hold'⟩ | ⟨heq', rfl⟩⟩ := howns owner' ptr hptr'
    · exact h.unique owner owner' ptr hold hold'
    · exact absurd heq' hne
    · exact absurd heq hne'
    · rfl

/-- The owners when the status of a thread changes. -/
theorem owns_update {t : T} {status : Status} {owner : Option T} {ptr : BitVec 64}
    (hs' : s'.status = Function.update s.status t status) (h : s'.Owns owner ptr) :
    owner = none ∧ ptr ∈ s'.held ∨ owner = some t ∧ status.block = some ptr ∨
      owner ≠ none ∧ owner ≠ some t ∧ s.Owns owner ptr := by
  cases owner with
  | none => exact .inl ⟨rfl, h⟩
  | some u =>
    rcases eq_or_ne u t with rfl | hu
    · rw [Owns, hs', Function.update_self] at h
      exact .inr (.inl ⟨rfl, h⟩)
    · rw [Owns, hs', Function.update_of_ne hu] at h
      exact .inr (.inr ⟨Option.some_ne_none u, fun heq => hu (Option.some.inj heq), h⟩)

/-- **Every step keeps the invariant.** -/
theorem Sound.step (hpos : 0 < c.numElements) {event : Option (Event T c)} (h : s.Sound)
    (hstep : Step s event s') : s'.Sound := by
  cases hstep with
  | call t call hidle hheld =>
    refine h.move h.reachable (some t) call.block fun owner ptr howns => ?_
    obtain ⟨rfl, hptr⟩ | ⟨rfl, hptr⟩ | ⟨hnone, -, hptr⟩ := owns_update rfl howns
    · obtain ⟨hptr, hblock⟩ := Finset.mem_sdiff.mp hptr
      exact ⟨h.live none ptr hptr, .inl ⟨fun heq => hblock (Option.mem_toFinset.mpr heq), hptr⟩⟩
    · exact ⟨h.live none ptr (hheld ptr hptr), .inr ⟨hptr, rfl⟩⟩
    · refine ⟨h.live owner ptr hptr, .inl ⟨fun heq => hnone ?_, hptr⟩⟩
      exact h.unique owner none ptr hptr (hheld ptr heq)
  | @perform t call hcalled =>
    have hown : ∀ ptr, call.block = some ptr → s.Owns (some t) ptr := by
      intro ptr hptr
      rw [Owns, hcalled]
      exact hptr
    obtain ⟨hkeep, hnew⟩ := call.perform_live hpos h.reachable
    have hother : ∀ owner ptr, owner ≠ some t → s.Owns owner ptr →
        ptr ∈ (call.perform s.client).2.live ∧ (call.perform s.client).1.block ≠ some ptr := by
      intro owner ptr hne hptr
      have hlive := h.live owner ptr hptr
      exact ⟨hkeep ptr hlive fun heq => hne (h.unique owner (some t) ptr hptr (hown ptr heq)),
        fun heq => (hnew ptr heq).1 hlive⟩
    have hreachable := h.reachable.step
      (call.perform_step fun ptr hptr => h.live (some t) ptr (hown ptr hptr))
    refine h.move hreachable (some t) (call.perform s.client).1.block fun owner ptr howns => ?_
    obtain ⟨rfl, hptr⟩ | ⟨rfl, hptr⟩ | ⟨-, hne, hptr⟩ := owns_update rfl howns
    · obtain ⟨hlive, hmoved⟩ := hother none ptr (Option.some_ne_none t).symm hptr
      exact ⟨hlive, .inl ⟨hmoved, hptr⟩⟩
    · exact ⟨(hnew ptr hptr).2, .inr ⟨hptr, rfl⟩⟩
    · obtain ⟨hlive, hmoved⟩ := hother owner ptr hne hptr
      exact ⟨hlive, .inl ⟨hmoved, hptr⟩⟩
  | @returns t returned hdone =>
    have hown : ∀ ptr, returned.block = some ptr → s.Owns (some t) ptr := by
      intro ptr hptr
      rw [Owns, hdone]
      exact hptr
    refine h.move h.reachable none returned.block fun owner ptr howns => ?_
    obtain ⟨rfl, hptr⟩ | ⟨rfl, hptr⟩ | ⟨-, hne, hptr⟩ := owns_update rfl howns
    · by_cases hblock : returned.block = some ptr
      · exact ⟨h.live (some t) ptr (hown ptr hblock), .inr ⟨hblock, rfl⟩⟩
      · have hheld : ptr ∈ s.held := (Finset.mem_union.mp hptr).resolve_right fun hmem =>
          hblock (Option.mem_toFinset.mp hmem)
        exact ⟨h.live none ptr hheld, .inl ⟨hblock, hheld⟩⟩
    · exact nomatch hptr
    · exact ⟨h.live owner ptr hptr, .inl ⟨fun heq =>
        hne (h.unique owner (some t) ptr hptr (hown ptr heq)), hptr⟩⟩
  | fillLevel t => exact h
  | read hi => exact h
  | write hi contents =>
    exact ⟨h.reachable.step (.overwrite (h.live none _ hi) contents), h.live, h.unique⟩

/-- **The invariant holds throughout.** -/
theorem sound (hpos : 0 < c.numElements) : (atomic T c).Invariant Sound where
  init s := by
    rintro ⟨hconstruct, hlive, hidle, hheld⟩
    have hempty : ∀ owner ptr, ¬ s.Owns owner ptr := by
      rintro (_ | t) ptr hptr
      · rw [Owns, hheld] at hptr
        exact absurd hptr (Finset.notMem_empty ptr)
      · rw [Owns, hidle] at hptr
        exact nomatch hptr
    refine ⟨?_, fun owner ptr hptr => absurd hptr (hempty owner ptr),
      fun owner _ ptr hptr => absurd hptr (hempty owner ptr)⟩
    have hclient : s.client = ⟨s.client.pool, []⟩ := by rw [← hlive]
    rw [hclient]
    exact .construct hconstruct
  step _ _ _ h hstep := h.step hpos hstep

end Atomic

/-! ### The pool while the lock is held -/

/-- How far the thread with the lock has come. It has made `pool` of the last whole pool `P`;
in its last write a call becomes visible, and `P` is the pool it leaves from then on. -/
inductive Progress (P : StaticPool c) : Call → Point → StaticPool c → Prop
  | allocate {bytes alignment : ℕ} (hbytes : bytes ≤ kAlignedElementSize c.elemSize) :
      Progress P (.allocate bytes alignment) .allocate P
  | takeFirst {bytes alignment : ℕ} (hbytes : bytes ≤ kAlignedElementSize c.elemSize)
      (hfill : P.fillLevel ≠ 0) : Progress P (.allocate bytes alignment) .takeFirst P
  | readNext {bytes alignment : ℕ} (hbytes : bytes ≤ kAlignedElementSize c.elemSize)
      (hfill : P.fillLevel ≠ 0) : Progress P (.allocate bytes alignment) (.readNext P.first) P
  | setFirst {bytes alignment : ℕ} {i : Fin c.numElements}
      (hbytes : bytes ≤ kAlignedElementSize c.elemSize) (hfill : P.fillLevel ≠ 0)
      (hi : P.first = c.address i) : Progress P (.allocate bytes alignment)
        (.setFirst (c.address i) (P.poolMem i c.nextWord)) P
  | countDown {bytes alignment : ℕ} {i : Fin c.numElements}
      (hbytes : bytes ≤ kAlignedElementSize c.elemSize) (hfill : P.fillLevel ≠ 0)
      (hi : P.first = c.address i) : Progress P (.allocate bytes alignment)
        (.countDown (c.address i)) { P with first := P.poolMem i c.nextWord }
  | deallocate {ptr : BitVec 64} {bytes alignment : ℕ} :
      Progress P (.deallocate ptr bytes alignment) (.deallocate ptr) P
  | link {ptr : BitVec 64} {bytes alignment : ℕ} :
      Progress P (.deallocate ptr bytes alignment) (.link ptr P.first) P
  | push {i : Fin c.numElements} {bytes alignment : ℕ} :
      Progress P (.deallocate (c.address i) bytes alignment) (.push (c.address i))
        (P.write i (Function.update (P.poolMem i) c.nextWord P.first))
  | countUp {i : Fin c.numElements} {bytes alignment : ℕ} :
      Progress P (.deallocate (c.address i) bytes alignment) (.countUp (c.address i))
        { P.write i (Function.update (P.poolMem i) c.nextWord P.first) with
          first := c.address i }
  | check {ptr : BitVec 64} {bytes alignment : ℕ}
      (hfill : P.fillLevel ≤ BitVec.ofNat 64 c.numElements) :
      Progress P (.deallocate ptr bytes alignment) .check P
  | leave (call : Call) (returned : Returned) : Progress P call (.leave returned) P

/-- What a thread with the lock is for the others: before its last write, in a call. -/
def Point.status (call : Call) : Point → Status
  | .check => .done (.ok none)
  | .leave returned => .done returned
  | _ => .called call

/-- What a thread is for the others. -/
def Place.status : Place → Status
  | .idle => .idle
  | .called call => .called call
  | .waiting call => .called call
  | .inside call point => point.status call
  | .done returned => .done returned

theorem write_comm {P : StaticPool c} {i j : Fin c.numElements} (hne : j ≠ i)
    {x y : Fin c.words → BitVec 64} : (P.write i x).write j y = (P.write j y).write i x := by
  rw [write, write, write, write, Function.update_comm hne]

/-- A call waits for the lock, or it fails at once. -/
theorem Call.enter_cases (c : Config) (call : Call) :
    (call.enter c = .waiting call ∧ ∀ bytes alignment, call = .allocate bytes alignment →
      bytes ≤ kAlignedElementSize c.elemSize) ∨
    (call.enter c = .done (.error .assertion) ∧
      ∀ s : Client c, call.perform s = (.error .assertion, s)) := by
  cases call with
  | allocate bytes alignment =>
    rcases Nat.lt_or_ge (kAlignedElementSize c.elemSize) bytes with hlt | hle
    · refine .inr ⟨if_neg (Nat.not_le_of_lt hlt), fun s => ?_⟩
      rw [perform, doAllocate_of_lt hlt]
    · refine .inl ⟨if_pos hle, fun bytes' alignment' heq => ?_⟩
      cases heq
      exact hle
  | deallocate ptr bytes alignment => exact .inl ⟨rfl, fun _ _ heq => nomatch heq⟩

theorem Call.status_point (call : Call) : call.point.status call = .called call := by
  cases call <;> rfl

namespace Progress

variable {P pool : StaticPool c} {call : Call} {point : Point} {i : Fin c.numElements}

/-- The fill level is that of the last whole pool, without the lock. -/
theorem fillLevel (h : Progress P call point pool) : pool.fillLevel = P.fillLevel := by
  cases h <;> rfl

/-- So are the contents of the elements, except for the one that is given up. -/
theorem poolMem (h : Progress P call point pool)
    (hi : point.status call = .called call → call.block ≠ some (c.address i)) :
    pool.poolMem i = P.poolMem i := by
  cases h with
  | @push j =>
    have hne : i ≠ j := fun heq => hi rfl (by rw [heq]; rfl)
    exact Function.update_of_ne hne _ _
  | @countUp j =>
    have hne : i ≠ j := fun heq => hi rfl (by rw [heq]; rfl)
    exact Function.update_of_ne hne _ _
  | _ => rfl

/-- At the end it is the pool. -/
theorem pool_eq {returned : Returned} (h : Progress P call (.leave returned) pool) : pool = P := by
  cases h
  rfl

/-- Others may write into an element that is not given up and not free. -/
theorem write (h : Progress P call point pool)
    (hi : point.status call = .called call → call.block ≠ some (c.address i))
    (hfirst : P.fillLevel ≠ 0 → P.first ≠ c.address i) (contents : Fin c.words → BitVec 64) :
    Progress (P.write i contents) call point (pool.write i contents) := by
  have hmem : ∀ j, j ≠ i → (P.write i contents).poolMem j = P.poolMem j :=
    fun j hj => Function.update_of_ne hj _ _
  have hlinked : ∀ j, j ≠ i →
      (P.write i contents).write j (Function.update ((P.write i contents).poolMem j) c.nextWord
        P.first) =
        (P.write j (Function.update (P.poolMem j) c.nextWord P.first)).write i contents :=
    fun j hj => by rw [hmem j hj, write_comm hj]
  cases h with
  | allocate hbytes => exact .allocate hbytes
  | takeFirst hbytes hfill => exact .takeFirst hbytes hfill
  | readNext hbytes hfill => exact .readNext hbytes hfill
  | @setFirst _ _ j hbytes hfill hj =>
    have hne : j ≠ i := fun heq => hfirst hfill (heq ▸ hj)
    rw [← hmem j hne]
    exact .setFirst hbytes hfill hj
  | @countDown bytes alignment j hbytes hfill hj =>
    have hne : j ≠ i := fun heq => hfirst hfill (heq ▸ hj)
    have hprogress : Progress (P.write i contents) (.allocate bytes alignment)
        (.countDown (c.address j))
        { P.write i contents with first := (P.write i contents).poolMem j c.nextWord } :=
      .countDown hbytes hfill hj
    rw [hmem j hne] at hprogress
    exact hprogress
  | deallocate => exact .deallocate
  | link => exact .link
  | @push j bytes alignment =>
    have hne : j ≠ i := fun heq => hi rfl (by rw [heq]; rfl)
    rw [← hlinked j hne]
    exact .push
  | @countUp j bytes alignment =>
    have hne : j ≠ i := fun heq => hi rfl (by rw [heq]; rfl)
    have hprogress : Progress (P.write i contents) (.deallocate (c.address j) bytes alignment)
        (.countUp (c.address j))
        { (P.write i contents).write j (Function.update ((P.write i contents).poolMem j) c.nextWord
            P.first) with first := c.address j } := .countUp
    rw [hlinked j hne] at hprogress
    exact hprogress
  | check hfill => exact .check hfill
  | leave call returned => exact .leave call returned

/-- **Step lemma.** An access of a thread with the lock is not visible, or it carries out the
call. -/
theorem advance (hpos : 0 < c.numElements) {s : Client c} (hs : s.Reachable)
    (h : Progress s.pool call point pool)
    (hlive : point.status call = .called call → ∀ ptr, call.block = some ptr → ptr ∈ s.live) :
    (Progress s.pool call (StaticPool.advance pool point).1 (StaticPool.advance pool point).2 ∧
      (StaticPool.advance pool point).1.status call = point.status call) ∨
    (point.status call = .called call ∧
      Progress (call.perform s).2.pool call (StaticPool.advance pool point).1
        (StaticPool.advance pool point).2 ∧
      (StaticPool.advance pool point).1.status call = .done (call.perform s).1) := by
  obtain ⟨free, held, hintact⟩ := hs.intact hpos
  cases h with
  | @allocate bytes alignment hbytes =>
    by_cases hfill : s.pool.fillLevel = 0
    · right
      have hperform : (Call.allocate bytes alignment).perform s = (.error .assertion, s) := by
        rw [Call.perform, doAllocate_of_empty hbytes hfill]
      rw [StaticPool.advance, if_neg (not_not.mpr hfill), hperform]
      exact ⟨rfl, .leave _ _, rfl⟩
    · left
      rw [StaticPool.advance, if_pos hfill]
      exact ⟨.takeFirst hbytes hfill, rfl⟩
  | takeFirst hbytes hfill => exact .inl ⟨.readNext hbytes hfill, rfl⟩
  | readNext hbytes hfill =>
    left
    obtain ⟨i, hi, -⟩ := hintact.exists_first hfill
    simp only [StaticPool.advance, hi, Config.pointee_address]
    exact ⟨.setFirst hbytes hfill hi, rfl⟩
  | setFirst hbytes hfill hi => exact .inl ⟨.countDown hbytes hfill hi, rfl⟩
  | @countDown bytes alignment i hbytes hfill hi =>
    right
    rw [Call.perform, doAllocate_of_first hbytes hfill hi]
    exact ⟨rfl, .leave _ _, rfl⟩
  | deallocate => exact .inl ⟨.link, rfl⟩
  | @link ptr bytes alignment =>
    left
    obtain ⟨i, -, rfl⟩ := hintact.exists_of_live (hlive rfl ptr rfl)
    simp only [StaticPool.advance, Config.pointee_address]
    exact ⟨.push, rfl⟩
  | push => exact .inl ⟨.countUp, rfl⟩
  | @countUp i bytes alignment =>
    right
    have hfill := hintact.fillLevel_add_one_le (hlive rfl (c.address i) rfl)
    rw [Call.perform, doDeallocate_address bytes alignment hfill]
    exact ⟨rfl, .check hfill, rfl⟩
  | check hfill =>
    left
    rw [StaticPool.advance, if_pos hfill]
    exact ⟨.leave _ _, rfl⟩
  | leave call returned => exact .inl ⟨.leave call returned, rfl⟩

end Progress

/-! ### Refinement -/

/-- What the threads have made of the pool, and what it is for the others. -/
structure Refines (s : Concurrent T c) (a : Atomic T c) : Prop where
  held : s.held = a.held
  status : ∀ t, a.status t = (s.place t).status
  waiting : ∀ t bytes alignment, s.place t = .waiting (.allocate bytes alignment) →
    bytes ≤ kAlignedElementSize c.elemSize
  unlocked : s.mutex = none → s.pool = a.client.pool
  locked : ∀ t, s.mutex = some t → ∃ call point, s.place t = .inside call point
  inside : ∀ t call point, s.place t = .inside call point →
    s.mutex = some t ∧ Progress a.client.pool call point s.pool

theorem eq_of_update {α : Type} {f : T → α} {t u : T} {x y : α}
    (h : Function.update f t x u = y) : u = t ∧ x = y ∨ u ≠ t ∧ f u = y := by
  rcases eq_or_ne u t with rfl | hu
  · exact .inl ⟨rfl, (Function.update_self ..).symm.trans h⟩
  · exact .inr ⟨hu, (Function.update_of_ne hu ..).symm.trans h⟩

namespace Refines

variable {s : Concurrent T c} {a : Atomic T c} {t : T} {call : Call} {point : Point}

omit [DecidableEq T] in
/-- A thread with the lock keeps the others out. -/
theorem outside (h : Refines s a) (hinside : s.place t = .inside call point) {u : T}
    (hu : u ≠ t) (call' : Call) (point' : Point) : s.place u ≠ .inside call' point' := by
  intro hinside'
  have hlock := (h.inside t call point hinside).1
  rw [(h.inside u call' point' hinside').1] at hlock
  exact hu (Option.some.inj hlock)

omit [DecidableEq T] in
theorem owns_none (h : Refines s a) {ptr : BitVec 64} (hptr : ptr ∈ s.held) :
    a.Owns none ptr := by
  rw [Atomic.Owns, ← h.held]
  exact hptr

omit [DecidableEq T] in
/-- While a call is going on, the block it is given is not held. -/
theorem block_ne (h : Refines s a) (hsound : a.Sound) (hinside : s.place t = .inside call point)
    {ptr : BitVec 64} (hptr : ptr ∈ s.held) (hcalled : point.status call = .called call) :
    call.block ≠ some ptr := by
  intro hblock
  have hcarried : a.Owns (some t) ptr := by
    rw [Atomic.Owns, h.status, hinside, Place.status, hcalled]
    exact hblock
  exact Option.some_ne_none t (hsound.unique (some t) none ptr hcarried (h.owns_none hptr))

omit [DecidableEq T] in
/-- The lock is free, or a thread is at work on the pool. -/
theorem progress (h : Refines s a) : s.pool = a.client.pool ∨
    ∃ t call point, s.place t = .inside call point ∧
      Progress a.client.pool call point s.pool := by
  cases hlock : s.mutex with
  | none => exact .inl (h.unlocked hlock)
  | some t =>
    obtain ⟨call, point, hinside⟩ := h.locked t hlock
    exact .inr ⟨t, call, point, hinside, (h.inside t call point hinside).2⟩

omit [DecidableEq T] in
theorem fillLevel (h : Refines s a) : s.pool.fillLevel = a.client.pool.fillLevel := by
  obtain hpool | ⟨t, call, point, -, hprogress⟩ := h.progress
  · rw [hpool]
  · exact hprogress.fillLevel

omit [DecidableEq T] in
theorem poolMem (h : Refines s a) (hsound : a.Sound) {i : Fin c.numElements}
    (hi : c.address i ∈ s.held) : s.pool.poolMem i = a.client.pool.poolMem i := by
  obtain hpool | ⟨t, call, point, hinside, hprogress⟩ := h.progress
  · rw [hpool]
  · exact hprogress.poolMem (h.block_ne hsound hinside hi)

/-- A thread outside goes on, outside. -/
theorem setOutside (h : Refines s a) {place : Place} {held held' : Finset (BitVec 64)}
    (hheld : held = held') (hold : ∀ call point, s.place t ≠ .inside call point)
    (hnew : ∀ call point, place ≠ .inside call point)
    (hwaiting : ∀ bytes alignment, place = .waiting (.allocate bytes alignment) →
      bytes ≤ kAlignedElementSize c.elemSize) :
    Refines ⟨s.pool, s.mutex, Function.update s.place t place, held⟩
      ⟨a.client, Function.update a.status t place.status, held'⟩ where
  held := hheld
  status u := by
    rcases eq_or_ne u t with rfl | hu
    · simp only [Function.update_self]
    · simp only [Function.update_of_ne hu, h.status]
  waiting u bytes alignment hu := by
    obtain ⟨rfl, hplace⟩ | ⟨-, hplace⟩ := eq_of_update hu
    · exact hwaiting bytes alignment hplace
    · exact h.waiting u bytes alignment hplace
  unlocked := h.unlocked
  locked u hu := by
    obtain ⟨call, point, hinside⟩ := h.locked u hu
    have hne : u ≠ t := fun heq => hold call point (heq ▸ hinside)
    exact ⟨call, point, (Function.update_of_ne hne _ _).trans hinside⟩
  inside u call point hinside := by
    obtain ⟨rfl, hplace⟩ | ⟨-, hplace⟩ := eq_of_update hinside
    · exact absurd hplace (hnew call point)
    · exact h.inside u call point hplace

/-- A thread goes on with the lock. -/
theorem setInside (h : Refines s a) {mutex : Option T} {pool : StaticPool c} {client : Client c}
    (hlock : mutex = some t) (hothers : ∀ u, u ≠ t → ∀ call point, s.place u ≠ .inside call point)
    (hprogress : Progress client.pool call point pool) :
    Refines ⟨pool, mutex, Function.update s.place t (.inside call point), s.held⟩
      ⟨client, Function.update a.status t (point.status call), a.held⟩ where
  held := h.held
  status u := by
    rcases eq_or_ne u t with rfl | hu
    · simp only [Function.update_self, Place.status]
    · simp only [Function.update_of_ne hu, h.status]
  waiting u bytes alignment hu := by
    obtain ⟨-, hplace⟩ | ⟨-, hplace⟩ := eq_of_update hu
    · exact nomatch hplace
    · exact h.waiting u bytes alignment hplace
  unlocked hfree := nomatch hlock.symm.trans hfree
  locked u hu := by
    obtain rfl := Option.some.inj (hlock.symm.trans hu)
    exact ⟨call, point, Function.update_self ..⟩
  inside u call' point' hinside := by
    obtain ⟨rfl, hplace⟩ | ⟨hne, hplace⟩ := eq_of_update hinside
    · cases hplace
      exact ⟨hlock, hprogress⟩
    · exact absurd hplace (hothers u hne call' point')

/-- A thread gives the lock back. -/
theorem unlock (h : Refines s a) {returned : Returned}
    (hinside : s.place t = .inside call (.leave returned)) :
    Refines ⟨s.pool, none, Function.update s.place t (.done returned), s.held⟩ a where
  held := h.held
  status u := by
    rcases eq_or_ne u t with rfl | hu
    · simp only [h.status, hinside, Function.update_self, Place.status, Point.status]
    · simp only [Function.update_of_ne hu, h.status]
  waiting u bytes alignment hu := by
    obtain ⟨-, hplace⟩ | ⟨-, hplace⟩ := eq_of_update hu
    · exact nomatch hplace
    · exact h.waiting u bytes alignment hplace
  unlocked _ := (h.inside t call _ hinside).2.pool_eq
  locked u hu := nomatch hu
  inside u call' point hinside' := by
    obtain ⟨-, hplace⟩ | ⟨hne, hplace⟩ := eq_of_update hinside'
    · exact nomatch hplace
    · exact absurd hplace (h.outside hinside hne call' point)

omit [DecidableEq T] in
/-- A thread writes into a block that is held. -/
theorem write (h : Refines s a) (hpos : 0 < c.numElements) (hsound : a.Sound)
    {i : Fin c.numElements} (hi : c.address i ∈ s.held) (contents : Fin c.words → BitVec 64) :
    Refines { s with pool := s.pool.write i contents }
      { a with client := ⟨a.client.pool.write i contents, a.client.live⟩ } where
  held := h.held
  status := h.status
  waiting := h.waiting
  unlocked hfree := by simp only [h.unlocked hfree]
  locked := h.locked
  inside t call point hinside := by
    obtain ⟨hlock, hprogress⟩ := h.inside t call point hinside
    obtain ⟨free, held, hintact⟩ := hsound.reachable.intact hpos
    have hlive : c.address i ∈ a.client.live := hsound.live none _ (h.owns_none hi)
    have hfirst : a.client.pool.fillLevel ≠ 0 → a.client.pool.first ≠ c.address i := by
      intro hfill heq
      obtain ⟨j, hj, hfree⟩ := hintact.exists_first hfill
      exact hfree ((heq ▸ hj) ▸ hlive)
    exact ⟨hlock, hprogress.write (h.block_ne hsound hinside hi) hfirst contents⟩

/-- **Simulation.** Every access of a thread is one of the atomic steps, or is not visible. -/
theorem step (hpos : 0 < c.numElements) (h : Refines s a) (hsound : a.Sound)
    {event : Option (Event T c)} {s' : Concurrent T c} (hstep : Concurrent.Step s event s') :
    (∃ a', Atomic.Step a event a' ∧ Refines s' a') ∨ event = none ∧ Refines s' a := by
  cases hstep with
  | call t call hidle hheld =>
    left
    have hstatus : a.status t = .idle := by rw [h.status, hidle, Place.status]
    refine ⟨_, .call t call hstatus (h.held ▸ hheld), ?_⟩
    exact h.setOutside (congrArg (· \ _) h.held) (fun _ _ hin => nomatch hidle.symm.trans hin)
      (fun _ _ hin => nomatch hin) fun _ _ hwait => nomatch hwait
  | @enter t call hcalled =>
    have hstatus : a.status t = .called call := by rw [h.status, hcalled, Place.status]
    have hold : ∀ call point, s.place t ≠ .inside call point :=
      fun _ _ hin => nomatch hcalled.symm.trans hin
    obtain ⟨henter, hbytes⟩ | ⟨henter, hperform⟩ := call.enter_cases c
    · right
      have hrefines : Refines ⟨s.pool, s.mutex, Function.update s.place t (.waiting call), s.held⟩
          ⟨a.client, Function.update a.status t (.called call), a.held⟩ :=
        h.setOutside h.held hold (fun _ _ hin => nomatch hin) fun bytes alignment hwait =>
          hbytes bytes alignment (Place.waiting.inj hwait)
      rw [← hstatus, Function.update_eq_self] at hrefines
      rw [henter]
      exact ⟨rfl, hrefines⟩
    · left
      refine ⟨_, .perform hstatus, ?_⟩
      rw [henter, hperform]
      exact h.setOutside h.held hold (fun _ _ hin => nomatch hin) fun _ _ hwait => nomatch hwait
  | @lock t call hwaiting hfree =>
    right
    have hstatus : a.status t = .called call := by rw [h.status, hwaiting, Place.status]
    have hothers : ∀ u, u ≠ t → ∀ call point, s.place u ≠ .inside call point :=
      fun u _ call point hin => nomatch hfree.symm.trans (h.inside u call point hin).1
    have hprogress : Progress a.client.pool call call.point s.pool := by
      rw [h.unlocked hfree]
      cases call with
      | allocate bytes alignment => exact .allocate (h.waiting t bytes alignment hwaiting)
      | deallocate ptr bytes alignment => exact .deallocate
    have hinside := h.setInside rfl hothers hprogress
    rw [call.status_point, ← hstatus, Function.update_eq_self] at hinside
    exact ⟨rfl, hinside⟩
  | @advance t call point hinside =>
    obtain ⟨hlock, hprogress⟩ := h.inside t call point hinside
    have hothers : ∀ u, u ≠ t → ∀ call point, s.place u ≠ .inside call point :=
      fun u hu => h.outside hinside hu
    have hstatus : a.status t = point.status call := by rw [h.status, hinside, Place.status]
    have hlive : point.status call = .called call → ∀ ptr, call.block = some ptr →
        ptr ∈ a.client.live := by
      intro hcalled ptr hblock
      refine hsound.live (some t) ptr ?_
      rw [Atomic.Owns, hstatus, hcalled]
      exact hblock
    obtain ⟨hnext, hkeep⟩ | ⟨hcalled, hnext, hdone⟩ :=
      hprogress.advance hpos hsound.reachable hlive
    · right
      have hrefines := h.setInside hlock hothers hnext
      rw [hkeep, ← hstatus, Function.update_eq_self] at hrefines
      exact ⟨rfl, hrefines⟩
    · left
      refine ⟨_, .perform (hstatus.trans hcalled), ?_⟩
      have hrefines := h.setInside hlock hothers hnext
      rw [hdone] at hrefines
      exact hrefines
  | @unlock t call returned hinside => exact .inr ⟨rfl, h.unlock hinside⟩
  | @returns t returned hdone =>
    left
    have hstatus : a.status t = .done returned := by rw [h.status, hdone, Place.status]
    refine ⟨_, .returns hstatus, ?_⟩
    exact h.setOutside (congrArg (· ∪ _) h.held) (fun _ _ hin => nomatch hdone.symm.trans hin)
      (fun _ _ hin => nomatch hin) fun _ _ hwait => nomatch hwait
  | fillLevel t =>
    left
    rw [h.fillLevel]
    exact ⟨a, .fillLevel t, h⟩
  | @read i hi =>
    left
    rw [h.poolMem hsound hi]
    exact ⟨a, .read (h.held ▸ hi), h⟩
  | @write i hi contents =>
    exact .inl ⟨_, .write (h.held ▸ hi) contents, h.write hpos hsound hi contents⟩

/-- **The simulation.** -/
theorem simulation (hpos : 0 < c.numElements) :
    Simulation (concurrent T c) (atomic T c) Atomic.Sound Refines where
  init s := by
    rintro ⟨hconstruct, hfree, hidle, hheld⟩
    refine ⟨⟨⟨s.pool, []⟩, fun _ => .idle, ∅⟩, ⟨hconstruct, rfl, fun _ => rfl, rfl⟩, ?_⟩
    constructor
    case held => exact hheld
    case status => exact fun t => by rw [hidle, Place.status]
    case waiting => exact fun t _ _ hwaiting => nomatch (hidle t).symm.trans hwaiting
    case unlocked => exact fun _ => rfl
    case locked => exact fun t hlock => nomatch hfree.symm.trans hlock
    case inside => exact fun t _ _ hinside => nomatch (hidle t).symm.trans hinside
  step _ _ _ _ hsound h hstep := h.step hpos hsound hstep

end Refines

/-- **Linearizability.** Whatever the threads do, what they observe (their calls and what these
return, the fill levels read without the lock, the contents of the blocks) is observed in a run
in which every call is carried out at one moment between its start and its end. There a block
has one owner at a time, and the calls lead to a pool with the same fill level, which is the
pool of the threads whenever the lock is free. -/
theorem concurrent_linearizable (hpos : 0 < c.numElements) {trace : List (Event T c)}
    {s : Concurrent T c} (h : (concurrent T c).Run trace s) :
    ∃ a, (atomic T c).Run trace a ∧ a.Sound ∧ a.held = s.held ∧
      (∀ t, a.status t = (s.place t).status) ∧
      a.client.pool.fillLevel = s.pool.fillLevel ∧
      (s.mutex = none → a.client.pool = s.pool) := by
  obtain ⟨a, hrun, hrefines⟩ := (Refines.simulation hpos).run (Atomic.sound hpos) h
  exact ⟨a, hrun, (Atomic.sound hpos).run hrun, hrefines.held.symm, hrefines.status,
    hrefines.fillLevel.symm, fun hfree => (hrefines.unlocked hfree).symm⟩

/-- Two threads of the unit test's pool: one has the lock and the other reads the fill level. -/
theorem threeElements_linearizable : ∃ a : Atomic Bool Client.threeElements,
    (atomic Bool Client.threeElements).Run
      [.call true (.allocate 8 8), .call false (.allocate 16 8), .fillLevel false 3] a ∧
    a.client.Reachable ∧ a.status true = .called (.allocate 8 8) := by
  have hpos : 0 < Client.threeElements.numElements := by decide
  obtain ⟨pool, free, hconstruct, -, -, hfill⟩ := construct_ok hpos
  have hlevel : pool.fillLevel = 3 := hfill
  have h₀ : (concurrent Bool Client.threeElements).Run [] ⟨pool, none, fun _ => .idle, ∅⟩ :=
    .init ⟨hconstruct, rfl, fun _ => rfl, rfl⟩
  have h₁ := h₀.step (.call true (.allocate 8 8) rfl fun _ hptr => nomatch hptr)
  have h₂ := h₁.step (.call false (.allocate 16 8) rfl fun _ hptr => nomatch hptr)
  have h₃ := h₂.step (.enter (t := true) rfl)
  have h₄ := h₃.step (.lock (t := true) rfl rfl)
  obtain ⟨a, hrun, hsound, -, hstatus, -⟩ :=
    concurrent_linearizable hpos (h₄.step (.fillLevel false))
  refine ⟨a, ?_, hsound.reachable, hstatus true⟩
  rw [← hlevel]
  exact hrun

end StaticPool

end EventFramework.Pools
