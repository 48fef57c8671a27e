import EventFramework.Pools.StaticPool
import Mathlib.Data.List.Perm.Basic
import Mathlib.Data.List.Perm.Lattice

/-!
# A pool and its clients

`Client` is a pool with the pointers its users hold. Users allocate, give back blocks they
hold, in any order, and overwrite the contents of blocks they hold (`Step`). `Intact` is the
invariant: the elements on the free list and those of the held blocks together are all
elements of the pool, each once, and `fill_level_` is the length of the free list. It is
preserved by every step (`Intact.step`), and the main result, `reachable_freeList`, reads off
what it means for the callers.
-/

namespace EventFramework.Pools

open PointerChain

/-- A pool, and the pointers that have been handed out and not been given back. -/
structure Client (c : Config) where
  pool : StaticPool c
  live : List (BitVec 64)

namespace Client

variable {c : Config}

/-- What can happen to a pool. A failing call leaves the pool as the function leaves it. -/
inductive Step : Client c → Client c → Prop
  | allocate {s : Client c} {p : BitVec 64} {pool' : StaticPool c} (bytes alignment : ℕ)
      (h : StaticPool.doAllocate bytes alignment s.pool = .ok p pool') :
      Step s ⟨pool', p :: s.live⟩
  | allocateFails {s : Client c} {f : Fault} {pool' : StaticPool c} (bytes alignment : ℕ)
      (h : StaticPool.doAllocate bytes alignment s.pool = .error f pool') :
      Step s ⟨pool', s.live⟩
  | deallocate {s : Client c} {p : BitVec 64} {pool' : StaticPool c} (hp : p ∈ s.live)
      (bytes alignment : ℕ)
      (h : StaticPool.doDeallocate p bytes alignment s.pool = .ok () pool') :
      Step s ⟨pool', s.live.erase p⟩
  | deallocateFails {s : Client c} {p : BitVec 64} {f : Fault} {pool' : StaticPool c}
      (hp : p ∈ s.live) (bytes alignment : ℕ)
      (h : StaticPool.doDeallocate p bytes alignment s.pool = .error f pool') :
      Step s ⟨pool', s.live.erase p⟩
  | overwrite {s : Client c} {i : Fin c.numElements} (hi : c.address i ∈ s.live)
      (contents : Fin c.words → BitVec 64) :
      Step s ⟨s.pool.write i contents, s.live⟩

/-- The states reached from a new pool. -/
inductive Reachable : Client c → Prop
  | construct {pool : StaticPool c} (h : StaticPool.construct c = .ok () pool) :
      Reachable ⟨pool, []⟩
  | step {s s' : Client c} (hs : Reachable s) (h : Step s s') : Reachable s'

/-- **The invariant**: `free` and `held` partition the elements. -/
structure Intact (s : Client c) (free held : List (Fin c.numElements)) : Prop where
  live : s.live = held.map c.address
  freeList : s.pool.FreeList free
  partition : (free ++ held).Perm (List.finRange c.numElements)
  fillLevel : s.pool.fillLevel.toNat = free.length

namespace Intact

variable {s s' : Client c} {free held : List (Fin c.numElements)} {i : Fin c.numElements}

theorem length_add (h : Intact s free held) : free.length + s.live.length = c.numElements := by
  have hlen := h.partition.length_eq
  rw [List.length_append, List.length_finRange] at hlen
  rw [h.live, List.length_map, hlen]

theorem mem_free_iff (h : Intact s free held) : i ∈ free ↔ c.address i ∉ s.live := by
  have hmem : i ∈ free ++ held := h.partition.mem_iff.mpr (List.mem_finRange i)
  have hnodup := h.partition.nodup_iff.mpr (List.nodup_finRange _)
  rw [h.live, StaticPool.address_mem_map]
  exact ⟨fun hfree hheld => (List.nodup_append'.mp hnodup).2.2 hfree hheld,
    (List.mem_append.mp hmem).resolve_right⟩

theorem exists_of_live (h : Intact s free held) {p : BitVec 64} (hp : p ∈ s.live) :
    ∃ i ∈ held, c.address i = p := by
  rw [h.live] at hp
  exact List.mem_map.mp hp

theorem fillLevel_eq (h : Intact s free held) :
    s.pool.fillLevel = BitVec.ofNat 64 free.length := by
  rw [← h.fillLevel, BitVec.ofNat_toNat, BitVec.setWidth_eq]

theorem fillLevel_ne_zero (h : Intact s (i :: free) held) : s.pool.fillLevel ≠ 0 := by
  intro hzero
  have hfill := h.fillLevel
  rw [hzero, List.length_cons] at hfill
  simp at hfill

/-! ### Calls -/

/-- An allocation hands out the first free element. -/
theorem doAllocate_eq (h : Intact s (i :: free) held) {bytes : ℕ}
    (hbytes : bytes ≤ kAlignedElementSize c.elemSize) (alignment : ℕ) :
    ∃ pool', StaticPool.doAllocate bytes alignment s.pool = .ok (c.address i) pool' ∧
      Intact ⟨pool', c.address i :: s.live⟩ free (i :: held) := by
  obtain ⟨pool', hcall, hfree, hlevel⟩ :=
    h.freeList.doAllocate hbytes h.fillLevel_ne_zero alignment
  refine ⟨pool', hcall, ?_, hfree, ?_, ?_⟩
  · rw [h.live, List.map_cons]
  · exact List.perm_middle.trans h.partition
  · have hfill := h.fillLevel
    rw [List.length_cons] at hfill
    simp only [hlevel]
    bv_omega

/-- With no free element, every allocation fails. -/
theorem doAllocate_of_nil (h : Intact s [] held) (bytes alignment : ℕ) :
    StaticPool.doAllocate bytes alignment s.pool = .error .assertion s.pool := by
  rcases Nat.lt_or_ge (kAlignedElementSize c.elemSize) bytes with hlt | hle
  · exact StaticPool.doAllocate_of_lt hlt alignment
  · exact StaticPool.doAllocate_of_empty hle h.fillLevel_eq alignment

/-- Giving back a live block succeeds, and makes it the first free element. -/
theorem doDeallocate_eq (h : Intact s free held) (hi : i ∈ held) (bytes alignment : ℕ) :
    ∃ pool', StaticPool.doDeallocate (c.address i) bytes alignment s.pool = .ok () pool' ∧
      Intact ⟨pool', s.live.erase (c.address i)⟩ (i :: free) (held.erase i) := by
  have hlive : c.address i ∈ s.live := by
    rw [h.live, StaticPool.address_mem_map]
    exact hi
  have hfree : i ∉ free := fun hfree => h.mem_free_iff.mp hfree hlive
  have hlen := h.length_add
  have hpos := List.length_pos_of_mem hlive
  have hlt := c.numElements_lt
  have hfill := h.fillLevel
  -- a live block means that the fill level is below the maximum; nothing wraps around
  have hlevel : s.pool.fillLevel + 1 ≤ BitVec.ofNat 64 c.numElements := by
    bv_omega
  obtain ⟨pool', hcall, hfree', hlevel'⟩ := h.freeList.doDeallocate hfree hlevel bytes alignment
  refine ⟨pool', hcall, ?_, hfree', ?_, ?_⟩
  · simp only [h.live, List.map_erase Config.address_injective]
  · have hback : (free ++ i :: held.erase i).Perm (free ++ held) :=
      (List.perm_cons_erase hi).symm.append_left free
    exact (List.perm_middle.symm.trans hback).trans h.partition
  · simp only [hlevel', List.length_cons]
    bv_omega

theorem allocate_ok (h : Intact s free held) {bytes alignment : ℕ} {p : BitVec 64}
    {pool' : StaticPool c}
    (hcall : StaticPool.doAllocate bytes alignment s.pool = .ok p pool') :
    ∃ i rest, free = i :: rest ∧ p = c.address i ∧
      Intact ⟨pool', p :: s.live⟩ rest (i :: held) := by
  cases free with
  | nil =>
    rw [h.doAllocate_of_nil] at hcall
    exact nomatch hcall
  | cons i rest =>
    rcases Nat.lt_or_ge (kAlignedElementSize c.elemSize) bytes with hlt | hle
    · rw [StaticPool.doAllocate_of_lt hlt] at hcall
      exact nomatch hcall
    · obtain ⟨pool₁, hcall₁, hintact⟩ := h.doAllocate_eq hle alignment
      rw [hcall] at hcall₁
      cases hcall₁
      exact ⟨i, rest, rfl, rfl, hintact⟩

theorem allocate_error (h : Intact s free held) {bytes alignment : ℕ} {f : Fault}
    {pool' : StaticPool c}
    (hcall : StaticPool.doAllocate bytes alignment s.pool = .error f pool') :
    pool' = s.pool ∧ (bytes ≤ kAlignedElementSize c.elemSize → free = []) := by
  rcases Nat.lt_or_ge (kAlignedElementSize c.elemSize) bytes with hlt | hle
  · rw [StaticPool.doAllocate_of_lt hlt] at hcall
    cases hcall
    exact ⟨rfl, fun hle => absurd hle (Nat.not_le_of_lt hlt)⟩
  · cases free with
    | nil =>
      rw [h.doAllocate_of_nil] at hcall
      cases hcall
      exact ⟨rfl, fun _ => rfl⟩
    | cons i rest =>
      obtain ⟨pool₁, hcall₁, -⟩ := h.doAllocate_eq hle alignment
      rw [hcall] at hcall₁
      exact nomatch hcall₁

/-- Writing into a live block touches no link of the free list. -/
theorem write (h : Intact s free held) (hi : i ∈ held) (contents : Fin c.words → BitVec 64) :
    Intact ⟨s.pool.write i contents, s.live⟩ free held := by
  have hlive : c.address i ∈ s.live := by
    rw [h.live, StaticPool.address_mem_map]
    exact hi
  have hfree : i ∉ free := fun hfree => h.mem_free_iff.mp hfree hlive
  exact ⟨h.live, h.freeList.write hfree contents, h.partition, h.fillLevel⟩

/-- The order of the live blocks does not matter. -/
theorem perm {held' : List (Fin c.numElements)} (h : Intact s free held)
    (hperm : held'.Perm held) : Intact ⟨s.pool, held'.map c.address⟩ free held' :=
  ⟨rfl, h.freeList, (hperm.append_left free).trans h.partition, h.fillLevel⟩

theorem nodup_held (h : Intact s free held) : held.Nodup :=
  (List.nodup_append'.mp (h.partition.nodup_iff.mpr (List.nodup_finRange _))).2.1

/-- **Every step keeps the invariant.** -/
theorem step (h : Intact s free held) (hstep : Step s s') :
    ∃ free held, Intact s' free held := by
  cases hstep with
  | allocate bytes alignment hcall =>
    obtain ⟨i, rest, -, -, hintact⟩ := h.allocate_ok hcall
    exact ⟨rest, i :: held, hintact⟩
  | allocateFails bytes alignment hcall =>
    obtain ⟨rfl, -⟩ := h.allocate_error hcall
    exact ⟨free, held, h⟩
  | deallocate hp bytes alignment hcall =>
    obtain ⟨i, hi, rfl⟩ := h.exists_of_live hp
    obtain ⟨pool₁, hcall₁, hintact⟩ := h.doDeallocate_eq hi bytes alignment
    rw [hcall] at hcall₁
    cases hcall₁
    exact ⟨i :: free, held.erase i, hintact⟩
  | deallocateFails hp bytes alignment hcall =>
    obtain ⟨i, hi, rfl⟩ := h.exists_of_live hp
    obtain ⟨pool₁, hcall₁, -⟩ := h.doDeallocate_eq hi bytes alignment
    rw [hcall] at hcall₁
    exact nomatch hcall₁
  | @overwrite i hi contents =>
    have hheld : i ∈ held := by
      rw [h.live] at hi
      exact StaticPool.address_mem_map.mp hi
    exact ⟨free, held, h.write hheld contents⟩

end Intact

/-- The invariant holds of a new pool. -/
theorem construct_intact {pool : StaticPool c} (h : StaticPool.construct c = .ok () pool)
    (hpos : 0 < c.numElements) : ∃ free, Intact ⟨pool, []⟩ free [] := by
  obtain ⟨pool₁, free, hpool₁, hfree, hall, hfill⟩ := StaticPool.construct_ok hpos
  rw [h] at hpool₁
  cases hpool₁
  have hpart : (free ++ []).Perm (List.finRange c.numElements) := by
    rw [List.append_nil]
    refine (List.perm_ext_iff_of_nodup hfree.nodup (List.nodup_finRange _)).mpr fun i => ?_
    exact iff_of_true (hall i) (List.mem_finRange i)
  refine ⟨free, rfl, hfree, hpart, ?_⟩
  have hlen := hpart.length_eq
  have hlt := c.numElements_lt
  rw [List.append_nil, List.length_finRange] at hlen
  simp only [hfill, hlen]
  bv_omega

/-- **Run lemma.** -/
theorem Reachable.intact (hpos : 0 < c.numElements) {s : Client c} (h : Reachable s) :
    ∃ free held, Intact s free held := by
  induction h with
  | construct h =>
    obtain ⟨free, hintact⟩ := construct_intact h hpos
    exact ⟨free, [], hintact⟩
  | step _ hstep ih =>
    obtain ⟨free, held, hintact⟩ := ih
    exact hintact.step hstep

/-- **Free-list integrity.** The constructor succeeds, and from then on, whatever the clients
do, the chain from `first_` visits exactly the elements that are not live, each once, and ends
in null; its length is `fill_level_`, the number of elements less the number of live blocks.
Hence an allocation that returns hands out an element that is not live, one of a fitting size
fails exactly when all elements are live, and giving back a live block never fails. -/
theorem reachable_freeList (hpos : 0 < c.numElements) :
    (∃ pool, StaticPool.construct c = .ok () pool) ∧
    ∀ s : Client c, Reachable s →
      (∃ free, s.pool.FreeList free ∧ free.Nodup ∧ (∀ i, i ∈ free ↔ c.address i ∉ s.live) ∧
        s.pool.fillLevel.toNat = free.length ∧
        free.length = c.numElements - s.live.length) ∧
      (∀ bytes alignment p pool', StaticPool.doAllocate bytes alignment s.pool = .ok p pool' →
        ∃ i, p = c.address i ∧ p ∉ s.live) ∧
      (∀ bytes alignment, bytes ≤ kAlignedElementSize c.elemSize →
        ((∃ f pool', StaticPool.doAllocate bytes alignment s.pool = .error f pool') ↔
          s.live.length = c.numElements)) ∧
      ∀ p ∈ s.live, ∀ bytes alignment,
        ∃ pool', StaticPool.doDeallocate p bytes alignment s.pool = .ok () pool' := by
  obtain ⟨pool, -, hpool, -⟩ := StaticPool.construct_ok (c := c) hpos
  refine ⟨⟨pool, hpool⟩, fun s hs => ?_⟩
  obtain ⟨free, held, h⟩ := hs.intact hpos
  have hlen := h.length_add
  refine ⟨⟨free, h.freeList, h.freeList.nodup, fun i => h.mem_free_iff, h.fillLevel, by omega⟩,
    ?_, ?_, ?_⟩
  · intro bytes alignment p pool' hcall
    obtain ⟨i, rest, hfree, rfl, -⟩ := h.allocate_ok hcall
    have hi : i ∈ free := by
      rw [hfree]
      exact List.mem_cons_self
    exact ⟨i, rfl, h.mem_free_iff.mp hi⟩
  · intro bytes alignment hle
    constructor
    · rintro ⟨f, pool', hcall⟩
      rw [(h.allocate_error hcall).2 hle, List.length_nil] at hlen
      omega
    · intro hall
      obtain rfl := List.length_eq_zero_iff.mp (by omega : free.length = 0)
      exact ⟨_, _, h.doAllocate_of_nil bytes alignment⟩
  · intro p hp bytes alignment
    obtain ⟨i, hi, rfl⟩ := h.exists_of_live hp
    obtain ⟨pool', hcall, -⟩ := h.doDeallocate_eq hi bytes alignment
    exact ⟨pool', hcall⟩

/-- The pool of the unit test, with three elements of 16 bytes. -/
def threeElements : Config where
  numElements := 3
  elemSize := 16
  base := 4096
  numElements_lt := by decide
  elemSize_lt := by decide
  base_pos := by decide
  base_fits := by decide

/-- Two blocks are handed out, the first is overwritten and given back before the second. -/
theorem threeElements_freeList : ∃ (i j : Fin threeElements.numElements) (s : Client threeElements),
    Reachable s ∧ s.live = [threeElements.address j] ∧ i ≠ j ∧
    (∃ free, s.pool.FreeList (i :: free) ∧ free.length = 1) ∧
    (∃ free, s.pool.FreeList free ∧ free.Nodup ∧ free.length = 2 ∧ j ∉ free) ∧
    ∃ pool, StaticPool.doDeallocate (threeElements.address j) 16 8 s.pool = .ok () pool := by
  obtain ⟨⟨pool, hpool⟩, hreachable⟩ := reachable_freeList (c := threeElements) (by decide)
  obtain ⟨free, hnew⟩ := construct_intact hpool (by decide)
  have hlength : free.length + 0 = 3 := hnew.length_add
  obtain ⟨i, j, k, rfl⟩ := List.length_eq_three.mp hlength
  have hbytes : 16 ≤ kAlignedElementSize threeElements.elemSize := by decide
  obtain ⟨pool₁, hcall₁, hintact₁⟩ := hnew.doAllocate_eq hbytes 8
  obtain ⟨pool₂, hcall₂, hintact₂⟩ := hintact₁.doAllocate_eq hbytes 8
  have hij : j ≠ i := (List.nodup_cons.mp hintact₂.nodup_held).1 ∘ (· ▸ List.mem_cons_self)
  have hi : i ∈ [j, i] := by simp
  have hintact₃ := hintact₂.write hi fun _ => 42
  obtain ⟨pool₃, hcall₃, hintact₄⟩ := hintact₃.doDeallocate_eq hi 16 8
  have hallocated := ((Reachable.construct hpool).step (.allocate 16 8 hcall₁)).step
    (.allocate 16 8 hcall₂)
  have hs := (hallocated.step (.overwrite (i := i) (by simp) fun _ => 42)).step
    (.deallocate (by simp) 16 8 hcall₃)
  have hlive : [threeElements.address j, threeElements.address i].erase (threeElements.address i) =
      [threeElements.address j] := by
    rw [List.erase_cons_tail (by simpa using Config.address_injective.ne hij),
      List.erase_cons_head]
  obtain ⟨⟨free', hfree, hnodup, hmem, -, hlen⟩, -, -, hback⟩ := hreachable _ hs
  simp only [hlive] at hs hmem hlen hback hintact₄
  refine ⟨i, j, _, hs, rfl, hij.symm, ⟨[k], hintact₄.freeList, rfl⟩,
    ⟨free', hfree, hnodup, hlen, fun hj => (hmem j).mp hj (List.mem_singleton_self _)⟩, ?_⟩
  exact hback _ (List.mem_singleton_self _) 16 8

end Client

end EventFramework.Pools
