import EventFramework.Pools.Alignment
import Mathlib.Logic.Relation

/-!
# What a rejected call leaves behind

`do_allocate` checks its assertions before it touches the pool, `do_deallocate` checks the fill
level after it has put the element on the free list. So a rejected allocation changes nothing,
and a rejected deallocation changes all that it would have changed if it had been accepted
(`rejected_unchanged_iff`).

A deallocation is rejected when the pool is full, and then the element is on the free list
already. Putting it in front again closes a cycle, and the pool hands the element out a second
time while it is in use (`not_handsOutOnce`).
-/

namespace EventFramework.Pools

open ErrorState PointerChain Relation

namespace StaticPoolTemplate

variable (t : StaticPoolTemplate)

/-! ### Calls and runs -/

/-- A call of the two operations; only elements of the pool are given back. -/
inductive Call
  | allocate (bytes alignment : ℕ)
  | deallocate (i : Fin t.array.numElements) (bytes alignment : ℕ)

variable {t}

/-- The call ends in a failed assertion and leaves the pool `pool'`. -/
def Call.Rejected (pool pool' : StaticPool t.array) : Call t → Prop
  | .allocate bytes alignment => t.doAllocate bytes alignment pool = .error .assertion pool'
  | .deallocate i bytes alignment =>
    StaticPool.doDeallocate (t.array.address i) bytes alignment pool = .error .assertion pool'

/-- The call does not give an element back to a pool that is full. -/
def Call.Harmless (pool : StaticPool t.array) : Call t → Prop
  | .allocate _ _ => True
  | .deallocate _ _ _ => pool.fillLevel ≠ BitVec.ofNat 64 t.numElements

/-- The pool and the blocks in use after an accepted call, or after an owner has written into a
block; `mayReturn` says which elements are given back. -/
inductive Accepted (mayReturn : List (BitVec 64) → Fin t.array.numElements → Prop) :
    Client t.array → Client t.array → Prop
  | allocate {s : Client t.array} {p : BitVec 64} {pool' : StaticPool t.array}
      (bytes alignment : ℕ) (h : t.doAllocate bytes alignment s.pool = .ok p pool') :
      Accepted mayReturn s ⟨pool', p :: s.live⟩
  | deallocate {s : Client t.array} {i : Fin t.array.numElements} {pool' : StaticPool t.array}
      (hi : mayReturn s.live i) (bytes alignment : ℕ)
      (h : StaticPool.doDeallocate (t.array.address i) bytes alignment s.pool = .ok () pool') :
      Accepted mayReturn s ⟨pool', s.live.erase (t.array.address i)⟩
  | overwrite {s : Client t.array} {i : Fin t.array.numElements} (hi : t.array.address i ∈ s.live)
      (contents : Fin t.array.words → BitVec 64) :
      Accepted mayReturn s ⟨s.pool.write i contents, s.live⟩

/-- Accepted calls of owners, who give back blocks in use. -/
abbrev ByOwners : Client t.array → Client t.array → Prop :=
  Accepted fun live i => t.array.address i ∈ live

variable (t) in
/-- The states reached from a new pool by accepted calls, whichever elements are given back. -/
inductive Reached : Client t.array → Prop
  | construct {pool : StaticPool t.array} (h : StaticPool.construct t.array = .ok () pool) :
      Reached ⟨pool, []⟩
  | accepted {s s' : Client t.array} (hs : Reached s) (h : Accepted (fun _ _ => True) s s') :
      Reached s'

variable (t) in
/-- The states in runs of owners, with rejected calls in between that meet the condition. -/
inductive Run : Client t.array → Prop
  | construct {pool : StaticPool t.array} (h : StaticPool.construct t.array = .ok () pool) :
      Run ⟨pool, []⟩
  | accepted {s s' : Client t.array} (hs : Run s) (h : ByOwners s s') : Run s'
  | rejected {s : Client t.array} {pool' : StaticPool t.array} (hs : Run s) (call : Call t)
      (h : call.Rejected s.pool pool') (hcall : call.Harmless s.pool) : Run ⟨pool', s.live⟩

/-- `first_`, `fill_level_` and the links of the elements that are not in use are the same. -/
structure Unchanged (s : Client t.array) (pool' : StaticPool t.array) : Prop where
  first : pool'.first = s.pool.first
  fillLevel : pool'.fillLevel = s.pool.fillLevel
  next : ∀ i, t.array.address i ∉ s.live →
    pool'.poolMem i t.array.nextWord = s.pool.poolMem i t.array.nextWord

/-- From here on, whatever the owners do, no block is handed out while it is in use. -/
def HandsOutOnce (s : Client t.array) : Prop :=
  ∀ s', ReflTransGen ByOwners s s' → ∀ bytes alignment p pool',
    t.doAllocate bytes alignment s'.pool = .ok p pool' → p ∉ s'.live

/-! ### The fill level -/

variable {s s' : Client t.array} {pool pool' : StaticPool t.array} {bytes alignment : ℕ}
  {i : Fin t.array.numElements}

/-- Below the maximum there is room for the increment. -/
theorem fillLevel_add_one_le_iff (hle : pool.fillLevel ≤ BitVec.ofNat 64 t.numElements) :
    pool.fillLevel + 1 ≤ BitVec.ofNat 64 t.array.numElements ↔
      pool.fillLevel ≠ BitVec.ofNat 64 t.numElements := by
  have hlt := t.numElements_lt
  have harray : t.array.numElements = t.numElements := rfl
  rw [harray]
  constructor
  · intro hnext heq
    bv_omega
  · intro hne
    bv_omega

/-- A step lemma: no accepted call lifts the fill level above the maximum. -/
theorem Accepted.fillLevel_le {mayReturn : List (BitVec 64) → Fin t.array.numElements → Prop}
    (h : Accepted mayReturn s s') (hs : s.pool.fillLevel ≤ BitVec.ofNat 64 t.numElements) :
    s'.pool.fillLevel ≤ BitVec.ofNat 64 t.numElements := by
  cases h with
  | allocate bytes alignment h =>
    obtain ⟨hfill, -, next, rfl⟩ := StaticPool.doAllocate_ok (doAllocate_ok h)
    simp only
    bv_omega
  | @deallocate i pool' hi bytes alignment h =>
    by_cases hroom : s.pool.fillLevel + 1 ≤ BitVec.ofNat 64 t.array.numElements
    · rw [StaticPool.doDeallocate_address bytes alignment hroom] at h
      cases h
      exact hroom
    · rw [StaticPool.doDeallocate_of_full bytes alignment hroom] at h
      exact nomatch h
  | overwrite hi contents => exact hs

theorem Reached.fillLevel_le (hs : t.Reached s) :
    s.pool.fillLevel ≤ BitVec.ofNat 64 t.numElements := by
  induction hs with
  | construct h =>
    obtain ⟨pool, free, hpool, -, -, hfill⟩ :=
      StaticPool.construct_ok (c := t.array) t.numElements_pos
    rw [h] at hpool
    cases hpool
    rw [hfill]
    exact BitVec.le_refl _
  | accepted _ h ih => exact h.fillLevel_le ih

/-! ### Rejected calls -/

/-- A rejected call that does not return an element to a full pool leaves the pool as it is. -/
theorem Call.Rejected.eq_of_harmless {call : Call t} (h : call.Rejected pool pool')
    (hle : pool.fillLevel ≤ BitVec.ofNat 64 t.numElements) (hcall : call.Harmless pool) :
    pool' = pool := by
  cases call with
  | allocate bytes alignment => exact doAllocate_error h
  | deallocate i bytes alignment =>
    have hroom := (fillLevel_add_one_le_iff hle).mpr hcall
    have haccepted := StaticPool.doDeallocate_address (i := i) bytes alignment hroom
    exact nomatch haccepted.symm.trans h

/-- A rejected call that does leaves the pool with the element put on the list. -/
theorem Call.Rejected.of_not_harmless {call : Call t} (h : call.Rejected pool pool')
    (hle : pool.fillLevel ≤ BitVec.ofNat 64 t.numElements) (hcall : ¬ call.Harmless pool) :
    pool.fillLevel = BitVec.ofNat 64 t.numElements ∧ ∃ i, pool' = pool.push i := by
  cases call with
  | allocate bytes alignment => exact absurd trivial hcall
  | deallocate i bytes alignment =>
    have hfull := mt (fillLevel_add_one_le_iff hle).mp hcall
    have hrejected := StaticPool.doDeallocate_of_full (i := i) bytes alignment hfull
    exact ⟨not_not.mp hcall, i, (EStateM.Result.error.inj (h.symm.trans hrejected)).2⟩

theorem unchanged_iff (hle : s.pool.fillLevel ≤ BitVec.ofNat 64 t.numElements) {call : Call t}
    (h : call.Rejected s.pool pool') : Unchanged s pool' ↔ call.Harmless s.pool := by
  by_cases hcall : call.Harmless s.pool
  · obtain rfl := h.eq_of_harmless hle hcall
    exact iff_of_true ⟨rfl, rfl, fun _ _ => rfl⟩ hcall
  · obtain ⟨-, i, rfl⟩ := h.of_not_harmless hle hcall
    refine iff_of_false (fun hsame => ?_) hcall
    -- the fill level at least has been incremented
    have hfill := hsame.fillLevel
    rw [StaticPool.push_fillLevel] at hfill
    bv_omega

/-! ### Handing out a block twice -/

variable {free held : List (Fin t.array.numElements)}

theorem Accepted.intact (h : ByOwners s s') (hs : ∃ free held, Client.Intact s free held) :
    ∃ free held, Client.Intact s' free held := by
  cases h with
  | @allocate p pool' bytes alignment h =>
    have hcall : t.resource.doAllocate bytes alignment s.pool = .ok p pool' := h
    exact (t.handsOut.of_accepted hs hcall).2.2
  | deallocate hi bytes alignment h =>
    obtain ⟨pool₁, hcall, hintact⟩ := t.handsOut.giveBack hs hi bytes alignment
    obtain ⟨-, rfl⟩ := EStateM.Result.ok.inj (hcall.symm.trans h)
    exact hintact
  | overwrite hi contents => exact t.handsOut.overwrite hs ⟨_, contents, hi, rfl⟩

theorem fillLevel_le_of_intact (hs : Client.Intact s free held) :
    s.pool.fillLevel ≤ BitVec.ofNat 64 t.numElements := by
  have hlength : free.length + s.live.length = t.numElements := hs.length_add
  have hfill := hs.fillLevel
  have hlt := t.numElements_lt
  bv_omega

/-- **Owners keep the pool intact**, and so do rejected calls that meet the condition. -/
theorem Run.intact (hs : t.Run s) : ∃ free held, Client.Intact s free held := by
  induction hs with
  | construct h =>
    obtain ⟨free, hintact⟩ := Client.construct_intact h t.numElements_pos
    exact ⟨free, [], hintact⟩
  | accepted _ h ih => exact Accepted.intact h ih
  | rejected _ call h hcall ih =>
    obtain ⟨free, held, hintact⟩ := ih
    obtain rfl := h.eq_of_harmless (fillLevel_le_of_intact hintact) hcall
    exact ⟨free, held, hintact⟩

theorem handsOutOnce_of_intact (hs : ∃ free held, Client.Intact s free held) :
    HandsOutOnce s := by
  intro s' hpath
  have hintact : ∃ free held, Client.Intact s' free held := by
    induction hpath with
    | refl => exact hs
    | tail _ hstep ih => exact hstep.intact ih
  intro bytes alignment p pool' h
  have hcall : t.resource.doAllocate bytes alignment s'.pool = .ok p pool' := h
  exact (t.handsOut.of_accepted hintact hcall).2.1

/-- Allocations hand out the elements of a chain that starts at `first_`. -/
theorem exists_path {q : BitVec 64} (l : List (Fin t.array.numElements)) :
    ∀ {s : Client t.array}, Seg s.pool.next (StaticPool.nonnull s.pool.first) (some q)
        (l.map t.array.address) → l.length < s.pool.fillLevel.toNat →
      ∃ s', ReflTransGen ByOwners s s' ∧ s'.pool.first = q ∧ s'.pool.fillLevel ≠ 0 ∧
        s.live ⊆ s'.live ∧ ∀ j ∈ l, t.array.address j ∈ s'.live := by
  induction l with
  | nil =>
    intro s hseg hfill
    refine ⟨s, .refl, StaticPool.eq_of_nonnull (Seg.nil_iff.mp hseg), ?_, List.Subset.refl _,
      fun j hj => nomatch hj⟩
    rintro hzero
    simp [hzero] at hfill
  | cons x l ih =>
    intro s hseg hfill
    obtain ⟨hfirst, htail⟩ := Seg.cons_iff.mp hseg
    rw [List.length_cons] at hfill
    have hzero : s.pool.fillLevel ≠ 0 := by
      rintro hzero
      simp [hzero] at hfill
    have hcall : t.doAllocate 0 8 s.pool = .ok (t.array.address x) _ :=
      (doAllocate_of_le (Nat.zero_le _) 8).trans (StaticPool.doAllocate_of_first (Nat.zero_le _)
        hzero (StaticPool.eq_of_nonnull hfirst) 8)
    rw [StaticPool.next_address] at htail
    have hrest : l.length < (s.pool.fillLevel - 1).toNat := by bv_omega
    obtain ⟨s', hpath, hq, hfill', hsub, hmem⟩ := ih
      (s := ⟨{ s.pool with
        first := s.pool.poolMem x t.array.nextWord
        fillLevel := s.pool.fillLevel - 1 }, t.array.address x :: s.live⟩) htail hrest
    have hx : t.array.address x ∈ s'.live := hsub List.mem_cons_self
    refine ⟨s', .head (.allocate 0 8 hcall) hpath, hq, hfill',
      fun p hp => hsub (List.mem_cons_of_mem _ hp), fun j hj => ?_⟩
    rcases List.mem_cons.mp hj with rfl | hj
    · exact hx
    · exact hmem j hj

/-- **The cycle.** An element put on the list of a full pool is handed out twice. -/
theorem not_handsOutOnce (hs : Client.Intact s free held)
    (hfull : s.pool.fillLevel = BitVec.ofNat 64 t.numElements) (i : Fin t.array.numElements) :
    ¬ HandsOutOnce ⟨s.pool.push i, s.live⟩ := by
  intro honce
  have hlength : free.length + s.live.length = t.numElements := hs.length_add
  have hfill := hs.fillLevel
  have hlt := t.numElements_lt
  have hlive : s.live = [] := List.length_eq_zero_iff.mp (by bv_omega)
  have hi : i ∈ free := hs.mem_free_iff.mpr (by rw [hlive]; exact List.not_mem_nil)
  obtain ⟨u, v, rfl⟩ := List.append_of_mem hi
  have hseg := hs.freeList
  unfold StaticPool.FreeList at hseg
  rw [List.map_append, List.map_cons] at hseg
  have hcycle : Seg (s.pool.push i).next (StaticPool.nonnull (s.pool.push i).first)
      (some (t.array.address i)) ((i :: u).map t.array.address) := by
    rw [StaticPool.next_push, StaticPool.push_first, StaticPool.nonnull_address]
    exact Seg.push_cycle hseg
  have hroom : (i :: u).length < (s.pool.fillLevel + 1).toNat := by
    rw [List.length_append, List.length_cons] at hlength
    rw [List.length_cons]
    bv_omega
  obtain ⟨s', hpath, hfirst, hfill', -, hmem⟩ :=
    exists_path (i :: u) (s := ⟨s.pool.push i, s.live⟩) hcycle hroom
  have hcall : t.doAllocate 0 8 s'.pool = .ok (t.array.address i) _ :=
    (doAllocate_of_le (Nat.zero_le _) 8).trans
      (StaticPool.doAllocate_of_first (Nat.zero_le _) hfill' hfirst 8)
  exact honce s' hpath 0 8 _ _ hcall (hmem i List.mem_cons_self)

/-! ### The result -/

/-- **A rejected call changes nothing unless an element is returned to a full pool.** This holds
in every state that accepted calls lead to, whichever elements they give back. In runs of owners
every pool keeps handing out each element at most once, and it still does after a rejected call
exactly under that condition. -/
theorem rejected_unchanged_iff (t : StaticPoolTemplate) :
    (∀ s, t.Reached s → ∀ (call : Call t) pool', call.Rejected s.pool pool' →
      (Unchanged s pool' ↔ call.Harmless s.pool)) ∧
    ∀ s, t.Run s → HandsOutOnce s ∧ ∀ (call : Call t) pool', call.Rejected s.pool pool' →
      (Unchanged s pool' ∧ HandsOutOnce ⟨pool', s.live⟩ ↔ call.Harmless s.pool) := by
  refine ⟨fun s hs call pool' h => unchanged_iff hs.fillLevel_le h, fun s hs => ?_⟩
  obtain ⟨free, held, hintact⟩ := hs.intact
  have honce : HandsOutOnce s := handsOutOnce_of_intact ⟨free, held, hintact⟩
  have hle := fillLevel_le_of_intact hintact
  refine ⟨honce, fun call pool' h => ?_⟩
  by_cases hcall : call.Harmless s.pool
  · obtain rfl := h.eq_of_harmless hle hcall
    exact iff_of_true ⟨⟨rfl, rfl, fun _ _ => rfl⟩, honce⟩ hcall
  · obtain ⟨hfull, i, rfl⟩ := h.of_not_harmless hle hcall
    exact iff_of_false (fun hboth => not_handsOutOnce hintact hfull i hboth.2) hcall

/-- One element of eight bytes, with the default alignment. -/
def oneElement : StaticPoolTemplate :=
  { byteAligned with
    alignment := 8
    alignment_pos := Nat.succ_pos 7
    base_fits := by decide }

/-- The element is allocated, given back, and given back again. The last call is rejected and
leaves the fill level 2 and an element linked to itself, which is then handed out twice. -/
theorem oneElement_returned_twice : ∃ s pool₁ pool₂ pool₃, oneElement.Reached s ∧
    (Call.deallocate ⟨0, by decide⟩ 8 8).Rejected s.pool pool₁ ∧ ¬ Unchanged s pool₁ ∧
    s.pool.fillLevel = 1 ∧ pool₁.fillLevel = 2 ∧
    s.pool.next 8192 = none ∧ pool₁.next 8192 = some 8192 ∧
    oneElement.doAllocate 8 8 pool₁ = .ok 8192 pool₂ ∧
    oneElement.doAllocate 8 8 pool₂ = .ok 8192 pool₃ := by
  have hnew : StaticPool.construct oneElement.array = .ok () _ := rfl
  have hreached := (Reached.construct hnew).accepted (.allocate 8 8 rfl)
  have hreached' := hreached.accepted (.deallocate (i := ⟨0, by decide⟩) trivial 8 8 rfl)
  refine ⟨_, _, _, _, hreached', rfl, fun hsame => ?_, rfl, rfl, rfl, rfl, rfl, rfl⟩
  exact absurd hsame.fillLevel (by decide)

end StaticPoolTemplate

end EventFramework.Pools
