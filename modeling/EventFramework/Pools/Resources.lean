import EventFramework.Pools.MemoryResource
import EventFramework.Pools.Pool
import EventFramework.Pools.PoolRuns

/-!
# The two pools as memory resources

`Pool` keeps its free blocks in a queue and hands out the one returned first; `StaticPool`
threads them on a list and hands out the one returned last. Both hand out the blocks they have
(`Pool.handsOut`, `StaticPool.handsOut`), and so a caller cannot tell them apart
(`pools_interchangeable`).
-/

namespace EventFramework.Pools

namespace Pool

variable {alignment elementSize count memData : BitVec 64} {pool : Pool}

/-! ### Pool -/

/-- The pointers to the blocks of a pool that has been constructed with these arguments. -/
def blocks (alignment elementSize count memData : BitVec 64) : List (BitVec 64) :=
  (List.range count.toNat).map fun i =>
    memData + BitVec.ofNat 64 i * alignedElementSize alignment elementSize

/-- **The invariant**: the pointers in the queue and the live ones are all blocks, each once. -/
structure Inv (alignment elementSize count memData : BitVec 64) (pool : Pool)
    (live : List (BitVec 64)) : Prop where
  size_eq : pool.size = count
  elementSize_eq : pool.elementSize = alignedElementSize alignment elementSize
  partition : (pool.pool ++ live).Perm (blocks alignment elementSize count memData)

theorem nodup_blocks (hpos : alignment ≠ 0)
    (h : construct alignment elementSize count memData = .ok () pool) :
    (blocks alignment elementSize count memData).Nodup := by
  have hlt := count.isLt
  refine List.Nodup.map_on (fun i hi j hj hij => ?_) List.nodup_range
  rw [List.mem_range] at hi hj
  obtain ⟨hsize, hprod⟩ := construct_no_wrap (by bv_omega) (by omega) h
  obtain ⟨-, -, rfl⟩ := construct_ok_iff.mp h
  -- the offsets do not wrap around either
  have hoffset : ∀ k < count.toNat,
      (BitVec.ofNat 64 k * alignedElementSize alignment elementSize).toNat =
        k * (alignedElementSize alignment elementSize).toNat := by
    intro k hk
    have hle := Nat.mul_le_mul_left (alignedElementSize alignment elementSize).toNat hk.le
    rw [toNat_mul_of_lt _ (by omega), Nat.mul_comm, Nat.mod_eq_of_lt (hle.trans_lt hprod)]
  have heq : BitVec.ofNat 64 i * alignedElementSize alignment elementSize =
      BitVec.ofNat 64 j * alignedElementSize alignment elementSize := by
    simpa using hij
  have hmul := congrArg BitVec.toNat heq
  rw [hoffset i hi, hoffset j hj] at hmul
  exact Nat.eq_of_mul_eq_mul_right (Nat.zero_lt_of_lt hsize) hmul

/-- The pool as a memory resource. What is stored in the blocks is not part of its state. -/
def resource (alignment elementSize count memData : BitVec 64) : MemoryResource PoolFault Pool where
  Init pool := construct alignment elementSize count memData = .ok () pool
  Overwrite _ pool pool' := pool' = pool
  doAllocate := doAllocate
  doDeallocate := doDeallocate
  fillLevel := fillLevel
  size pool := pool.size.toNat

/-- **The pool hands out its blocks.** -/
theorem handsOut (hpos : alignment ≠ 0)
    (h : construct alignment elementSize count memData = .ok () pool) :
    (resource alignment elementSize count memData).HandsOut count.toNat
      (alignedElementSize alignment elementSize).toNat
      (Inv alignment elementSize count memData) := by
  have hnodup := nodup_blocks hpos h
  have hlength : ∀ {pool live}, Inv alignment elementSize count memData pool live →
      pool.pool.length + live.length = count.toNat := by
    intro pool live hs
    have hlen := hs.partition.length_eq
    rwa [List.length_append, blocks, List.length_map, List.length_range] at hlen
  constructor
  case init =>
    intro pool hpool
    obtain ⟨-, -, rfl⟩ := construct_ok_iff.mp hpool
    exact ⟨rfl, rfl, .of_eq (List.append_nil _)⟩
  case overwrite =>
    rintro pool _ live hs rfl
    exact hs
  case nodup =>
    intro pool live hs
    exact (List.nodup_append'.mp (hs.partition.nodup_iff.mpr hnodup)).2.1
  case fillLevel =>
    intro pool live hs
    exact hlength hs
  case size =>
    intro pool live hs
    exact congrArg BitVec.toNat hs.size_eq
  case accept =>
    intro pool live bytes hs hbytes hfree al
    have hlen := hlength hs
    obtain ⟨ptr, rest, hptr⟩ := List.exists_cons_of_length_pos (l := pool.pool) (by omega)
    have hpart := hs.partition
    rw [hptr] at hpart
    refine ⟨ptr, _, doAllocate_of_cons (hs.elementSize_eq ▸ hbytes) hptr al, fun hlive => ?_,
      hs.size_eq, hs.elementSize_eq, List.perm_middle.trans hpart⟩
    have hdisjoint := (List.nodup_append'.mp (hpart.nodup_iff.mpr hnodup)).2.2
    exact hdisjoint List.mem_cons_self hlive
  case reject =>
    intro pool live bytes hs hreject al
    have hlen := hlength hs
    refine ⟨.assertion, doAllocate_of_reject ?_ al⟩
    rw [hs.elementSize_eq]
    exact hreject.imp_right fun hall => List.length_eq_zero_iff.mp (by omega)
  case giveBack =>
    intro pool live ptr hs hptr bytes al
    refine ⟨_, rfl, hs.size_eq, hs.elementSize_eq, ?_⟩
    rw [List.append_assoc]
    exact ((List.perm_cons_erase hptr).symm.append_left pool.pool).trans hs.partition

/-- The pool with as many elements of the same size as a static pool. -/
def resourceLike (c : Config) (memData : BitVec 64) : MemoryResource PoolFault Pool :=
  resource 8 (BitVec.ofNat 64 c.elemSize) (BitVec.ofNat 64 c.numElements) memData

end Pool

/-! ### StaticPool -/

namespace StaticPool

variable {c : Config}

/-- The static pool as a memory resource. Its free list runs through the memory that the owners
of live blocks write into. -/
def resource (c : Config) : MemoryResource Fault (StaticPool c) where
  Init pool := construct c = .ok () pool
  Overwrite live pool pool' := ∃ i contents, c.address i ∈ live ∧ pool' = pool.write i contents
  doAllocate := doAllocate
  doDeallocate := doDeallocate
  fillLevel pool := pool.fillLevel.toNat
  size _ := c.numElements

/-- **The static pool hands out its elements.** -/
theorem handsOut (hpos : 0 < c.numElements) :
    (resource c).HandsOut c.numElements (kAlignedElementSize c.elemSize) fun pool live =>
      ∃ free held, Client.Intact ⟨pool, live⟩ free held := by
  constructor
  case init =>
    intro pool hpool
    obtain ⟨free, hintact⟩ := Client.construct_intact hpool hpos
    exact ⟨free, [], hintact⟩
  case overwrite =>
    rintro pool _ live ⟨free, held, hintact⟩ ⟨i, contents, hi, rfl⟩
    exact hintact.step (.overwrite hi contents)
  case nodup =>
    rintro pool live ⟨free, held, hintact⟩
    have hlive : live = held.map c.address := hintact.live
    rw [hlive]
    exact hintact.nodup_held.map Config.address_injective
  case fillLevel =>
    rintro pool live ⟨free, held, hintact⟩
    have hfill : pool.fillLevel.toNat = free.length := hintact.fillLevel
    have hlen : free.length + live.length = c.numElements := hintact.length_add
    rwa [← hfill] at hlen
  case size => exact fun _ => rfl
  case accept =>
    rintro pool live bytes ⟨free, held, hintact⟩ hbytes hfree al
    have hlen : free.length + live.length = c.numElements := hintact.length_add
    obtain ⟨i, free, rfl⟩ := List.exists_cons_of_length_pos (l := free) (by omega)
    obtain ⟨pool', hcall, hintact'⟩ := hintact.doAllocate_eq hbytes al
    exact ⟨_, pool', hcall, hintact.mem_free_iff.mp List.mem_cons_self, free, _, hintact'⟩
  case reject =>
    rintro pool live bytes ⟨free, held, hintact⟩ (hlarge | hall) al
    · exact ⟨.assertion, doAllocate_of_lt hlarge al⟩
    · have hlen : free.length + live.length = c.numElements := hintact.length_add
      obtain rfl := List.length_eq_zero_iff.mp (by omega : free.length = 0)
      exact ⟨.assertion, hintact.doAllocate_of_nil bytes al⟩
  case giveBack =>
    rintro pool live ptr ⟨free, held, hintact⟩ hptr bytes al
    obtain ⟨i, hi, rfl⟩ := hintact.exists_of_live hptr
    obtain ⟨pool', hcall, hintact'⟩ := hintact.doDeallocate_eq hi bytes al
    exact ⟨pool', hcall, _, _, hintact'⟩

end StaticPool

/-! ### Interchanging them -/

/-- Both pools round the element size in the same way. -/
theorem toNat_alignedElementSize_eight {elemSize : ℕ} (h : elemSize < 2 ^ 64) :
    (Pool.alignedElementSize 8 (BitVec.ofNat 64 elemSize)).toNat =
      kAlignedElementSize elemSize := by
  rw [Pool.toNat_alignedElementSize, BitVec.toNat_ofNat, Nat.mod_eq_of_lt h]
  rfl

/-- When nothing overflows the constructor completes. -/
theorem Pool.construct_ok {c : Config} (memData : BitVec 64) (helem : c.elemSize + 8 < 2 ^ 64)
    (hsize : kAlignedElementSize c.elemSize * c.numElements < 2 ^ 63) :
    ∃ pool, (Pool.resourceLike c memData).Init pool := by
  have hround := toNat_alignedElementSize_eight c.elemSize_lt
  have hlt := c.numElements_lt
  have hcount : (BitVec.ofNat 64 c.numElements).toNat = c.numElements := by
    rw [BitVec.toNat_ofNat, Nat.mod_eq_of_lt (by omega)]
  have hpos : 0 < kAlignedElementSize c.elemSize := by
    have hsplit := Nat.div_add_mod' (c.elemSize + 8) 8
    rw [kAlignedElementSize, Nat.mod_eq_of_lt helem]
    omega
  have hmem : (alignedElementSize 8 (BitVec.ofNat 64 c.elemSize) *
      BitVec.ofNat 64 c.numElements).toNat = kAlignedElementSize c.elemSize * c.numElements := by
    rw [BitVec.toNat_mul, hround, hcount, Nat.mod_eq_of_lt (by omega)]
  refine ⟨_, construct_ok_iff.mpr ⟨?_, fun i hi => ?_, rfl⟩⟩
  · omega
  · rw [hcount] at hi
    have hprod := Nat.mul_lt_mul_of_pos_right hi hpos
    rw [Nat.mul_comm c.numElements] at hprod
    rw [BitVec.lt_def, hmem, toNat_mul_of_lt _ (by omega), hround, Nat.mod_eq_of_lt (by omega)]
    exact hprod

/-- Two elements of 16 bytes. -/
def twoElements : Config :=
  { Client.threeElements with
    numElements := 2
    numElements_lt := by decide
    base_fits := by decide }

/-- **The pools are interchangeable.** For elements of the same size in the same number, with no
overflow: each pool serves the requests that the other serves, with the same outcomes; in both,
an accepted allocation returns a block that is not live, and the fill level is the number of
elements less that of the live blocks. -/
theorem pools_interchangeable (c : Config) (memData : BitVec 64) (hpos : 0 < c.numElements)
    (helem : c.elemSize + 8 < 2 ^ 64)
    (hsize : kAlignedElementSize c.elemSize * c.numElements < 2 ^ 63) :
    (∀ requests outs s, (Pool.resourceLike c memData).Run requests outs s →
      (∃ s', (StaticPool.resource c).Run requests outs s') ∧
      Pool.fillLevel s.pool = c.numElements - s.live.length ∧
      ∀ bytes alignment p pool', Pool.doAllocate bytes alignment s.pool = .ok p pool' →
        p ∉ s.live) ∧
    (∀ requests outs s, (StaticPool.resource c).Run requests outs s →
      (∃ s', (Pool.resourceLike c memData).Run requests outs s') ∧
      s.pool.fillLevel.toNat = c.numElements - s.live.length ∧
      ∀ bytes alignment p pool', StaticPool.doAllocate bytes alignment s.pool = .ok p pool' →
        p ∉ s.live) ∧
    ∀ requests outs outs' s s', (Pool.resourceLike c memData).Run requests outs s →
      (StaticPool.resource c).Run requests outs' s' → outs = outs' := by
  obtain ⟨pool, hpool⟩ := Pool.construct_ok memData helem hsize
  obtain ⟨static, -, hstatic, -⟩ := StaticPool.construct_ok hpos
  have hlt := c.numElements_lt
  have hcount : (BitVec.ofNat 64 c.numElements).toNat = c.numElements := by
    rw [BitVec.toNat_ofNat, Nat.mod_eq_of_lt (by omega)]
  have hR := Pool.handsOut (by decide) hpool
  rw [hcount, toNat_alignedElementSize_eight c.elemSize_lt] at hR
  have hR' := StaticPool.handsOut hpos
  refine ⟨fun requests outs s h => ?_, fun requests outs s h => ?_,
    fun requests outs outs' s s' h h' => (hR.outcomes_eq hR' h h').1⟩
  · exact ⟨hR.exists_run hR' ⟨static, hstatic⟩ h, hR.fresh h⟩
  · exact ⟨hR'.exists_run hR ⟨pool, hpool⟩ h, hR'.fresh h⟩

/-- With two elements, both pools reject the third allocation, and accept one again when the
first block has been given back. -/
theorem pools_interchangeable_two : ∃ s : Session (StaticPool twoElements),
    (StaticPool.resource twoElements).Run
      [.allocate 24 8, .allocate 24 8, .allocate 1 8, .deallocate 1 24 8, .allocate 24 8]
      [⟨true, 1, 2⟩, ⟨true, 0, 2⟩, ⟨false, 0, 2⟩, ⟨true, 1, 2⟩, ⟨true, 0, 2⟩] s := by
  let state (pool : List (BitVec 64)) : Pool := ⟨2, 24, 48, 4096, pool⟩
  have haccept : ∀ ptr rest, (Pool.resourceLike twoElements 4096).doAllocate 24 8
      (state (ptr :: rest)) = .ok ptr (state rest) :=
    fun ptr rest => Pool.doAllocate_of_cons (show 24 ≤ (24 : BitVec 64).toNat by decide)
      rfl 8
  have hreject : (Pool.resourceLike twoElements 4096).doAllocate 1 8 (state []) =
      .error .assertion (state []) := Pool.doAllocate_of_reject (.inr rfl) 8
  have hreturn : (Pool.resourceLike twoElements 4096).doDeallocate 4096 24 8 (state []) =
      .ok () (state [4096]) := rfl
  have hinit : (Pool.resourceLike twoElements 4096).Init (state [4096, 4120]) :=
    Pool.construct_ok_iff.mpr ⟨by decide, by decide, by decide⟩
  have hfirst := MemoryResource.Run.accepted (.init hinit) (haccept 4096 [4120])
  have hsecond := hfirst.accepted (haccept 4120 [])
  have hthird := hsecond.rejected hreject
  have hplace : ([4120, 4096] : List (BitVec 64))[1]? = some 4096 := rfl
  have hreturned := hthird.returned hplace hreturn
  have hagain := hreturned.accepted (haccept 4096 [])
  exact ((pools_interchangeable twoElements 4096 (by decide) (by decide) (by decide)).1 _ _ _
    hagain).1

end EventFramework.Pools
