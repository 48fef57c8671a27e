import EventFramework.Pools.Resources

/-!
# Alignment

Both pools take an alignment as a template argument, eight by default, and ignore the alignment
of a request. This module says what follows for the two questions it raises.

* Whether a block of `Pool` is aligned as requested (`Pool.aligned_iff`): up to eight always,
  to sixteen only when the block size is a multiple of sixteen or there is one block at most.
* Whether a request accepted by `StaticPool` fits into its element
  (`StaticPoolTemplate.fits_iff`): the accepted size is rounded to the alignment, that of an
  element to whole words.
-/

namespace EventFramework.Pools

open ErrorState

/-! ### The address of a block -/

namespace Pool

variable {elementSize count memData : BitVec 64} {pool : Pool} {a : ℕ}

/-- A divisor of base, block size and address space divides the address of every block. -/
theorem dvd_toNat_block {e : BitVec 64} (hspace : a ∣ 2 ^ 64) (hbase : a ∣ memData.toNat)
    {i : ℕ} (he : a ∣ i * e.toNat) (hi : i < 2 ^ 64) :
    a ∣ (memData + BitVec.ofNat 64 i * e).toNat := by
  rw [BitVec.toNat_add, toNat_mul_of_lt e hi, Nat.dvd_mod_iff hspace]
  exact Nat.dvd_add hbase ((Nat.dvd_mod_iff hspace).mpr he)

theorem eight_dvd_alignedElementSize (elementSize : BitVec 64) :
    8 ∣ (alignedElementSize 8 elementSize).toNat := by
  rw [toNat_alignedElementSize]
  exact Nat.dvd_mul_left 8 _

/-- With two blocks, the second allocation is answered with the second one. -/
theorem exists_second_block (hcount : 2 ≤ count.toNat)
    (h : construct 8 elementSize count memData = .ok () pool) (alignment : ℕ) :
    ∃ requests outs s pool', (resource 8 elementSize count memData).Run requests outs s ∧
      doAllocate 0 alignment s.pool =
        .ok (memData + BitVec.ofNat 64 1 * alignedElementSize 8 elementSize) pool' := by
  obtain ⟨-, -, hpool⟩ := construct_ok_iff.mp h
  obtain ⟨n, hn⟩ := Nat.exists_eq_add_of_le' hcount
  let address (i : ℕ) := memData + BitVec.ofNat 64 i * alignedElementSize 8 elementSize
  have hqueue : pool.pool =
      address 0 :: address 1 :: (List.range n).map (address ∘ Nat.succ ∘ Nat.succ) := by
    rw [congrArg Pool.pool hpool, hn, List.range_succ_eq_map, List.range_succ_eq_map]
    simp only [List.map_cons, List.map_map]
    rfl
  have hfirst : (resource 8 elementSize count memData).doAllocate 0 alignment pool =
      .ok (address 0) _ := doAllocate_of_cons (Nat.zero_le _) hqueue alignment
  exact ⟨_, _, _, _, .accepted (.init h) hfirst,
    doAllocate_of_cons (Nat.zero_le _) rfl alignment⟩

/-- **Which alignments a pool provides.** Let the bytes of the vector start at a multiple of 16.
All requests that the pool accepts with the alignment `a`, in all its states, are answered with
a multiple of `a` if and only if `a` is at most eight, or the block size is a multiple of 16, or
there is one block at most. -/
theorem aligned_iff (hbase : 16 ∣ memData.toNat) (ha : a ∈ [1, 2, 4, 8, 16])
    (h : construct 8 elementSize count memData = .ok () pool) :
    (∀ requests outs s, (resource 8 elementSize count memData).Run requests outs s →
      ∀ bytes p pool', doAllocate bytes a s.pool = .ok p pool' → a ∣ p.toNat) ↔
    a ≤ 8 ∨ 16 ∣ (alignedElementSize 8 elementSize).toNat ∨ count.toNat ≤ 1 := by
  have hspace : 16 ∣ 2 ^ 64 := by decide
  have hdvd : a ∣ 16 := by
    simp only [List.mem_cons, List.not_mem_nil, or_false] at ha
    rcases ha with rfl | rfl | rfl | rfl | rfl <;> decide
  constructor
  · intro hall
    by_contra hcond
    simp only [not_or, Nat.not_le] at hcond
    obtain ⟨hlarge, hsize, hcount⟩ := hcond
    obtain rfl : a = 16 := by
      simp only [List.mem_cons, List.not_mem_nil, or_false] at ha
      omega
    obtain ⟨requests, outs, s, pool', hrun, hcall⟩ := exists_second_block hcount h 16
    have hblock := hall requests outs s hrun 0 _ pool' hcall
    rw [BitVec.toNat_add, toNat_mul_of_lt _ (by decide), Nat.one_mul, Nat.dvd_mod_iff hspace,
      Nat.dvd_add_right hbase, Nat.dvd_mod_iff hspace] at hblock
    exact hsize hblock
  · intro hcond requests outs s hrun bytes p pool' hcall
    have hR := handsOut (by decide) h
    have hcall' : (resource 8 elementSize count memData).doAllocate bytes a s.pool =
        .ok p pool' := hcall
    obtain ⟨-, -, hinv⟩ := hR.of_accepted (hR.run hrun).1 hcall'
    -- what is handed out is a block
    have hp : p ∈ blocks 8 elementSize count memData := hinv.partition.mem_iff.mp (by simp)
    obtain ⟨i, hi, rfl⟩ := List.mem_map.mp hp
    rw [List.mem_range] at hi
    have hlt := count.isLt
    refine dvd_toNat_block (Nat.dvd_trans hdvd hspace) (Nat.dvd_trans hdvd hbase) ?_ (by omega)
    rcases hcond with hsmall | hsize | hcount
    · have height : a ∣ 8 := by
        simp only [List.mem_cons, List.not_mem_nil, or_false] at ha
        rcases ha with rfl | rfl | rfl | rfl | rfl <;> first | decide | omega
      exact Nat.dvd_mul_left_of_dvd
        (Nat.dvd_trans height (eight_dvd_alignedElementSize elementSize)) i
    · exact Nat.dvd_mul_left_of_dvd (Nat.dvd_trans hdvd hsize) i
    · obtain rfl : i = 0 := by omega
      rw [Nat.zero_mul]
      exact Nat.dvd_zero a

/-- Elements of 24 bytes take 32, and are aligned to 16. -/
theorem aligned_thirtyTwo : 16 ∣ (alignedElementSize 8 24).toNat ∧
    ∀ requests outs s, (resource 8 24 2 4096).Run requests outs s →
      ∀ bytes p pool', doAllocate bytes 16 s.pool = .ok p pool' → 16 ∣ p.toNat := by
  have h : construct 8 24 2 4096 = .ok () ⟨2, 32, 64, 4096, [4096, 4128]⟩ :=
    construct_ok_iff.mpr ⟨by decide, by decide, by decide⟩
  exact ⟨by decide, (aligned_iff (by decide) (by decide) h).mpr (.inr (.inl (by decide)))⟩

/-- Elements of 16 bytes take 24, and the second one is not aligned to 16. -/
theorem not_aligned_sixteen : 16 ∣ (4096 : BitVec 64).toNat ∧
    ¬ ∀ requests outs s, (resource 8 16 2 4096).Run requests outs s →
      ∀ bytes p pool', doAllocate bytes 16 s.pool = .ok p pool' → 16 ∣ p.toNat := by
  refine ⟨by decide, fun hall => ?_⟩
  have h : construct 8 16 2 4096 = .ok () ⟨2, 24, 48, 4096, [4096, 4120]⟩ :=
    construct_ok_iff.mpr ⟨by decide, by decide, by decide⟩
  obtain ⟨requests, outs, s, pool', hrun, hcall⟩ := exists_second_block (by decide) h 16
  exact absurd (hall requests outs s hrun 0 _ pool' hcall) (by decide)

end Pool

/-! ### The size of an element -/

/-- Every number of words is that of an element size that is a multiple of eight. -/
theorem elementWords_eight_mul {words : ℕ} (hpos : 0 < words) (hlt : 8 * words < 2 ^ 64) :
    elementWords (8 * (words - 1)) = words := by
  have hsize : kAlignedElementSize (8 * (words - 1)) = words * 8 := by
    have hsum : 8 * (words - 1) + 8 = words * 8 := by omega
    rw [kAlignedElementSize, hsum, Nat.mod_eq_of_lt (by omega), Nat.mul_div_cancel _ (by decide)]
  rw [elementWords, hsize, Nat.mul_div_cancel _ (by decide)]
  exact max_eq_right hpos

/-- Template arguments of a static pool, its alignment included, and the address of its array.
The arithmetic of the compiler is exact. -/
structure StaticPoolTemplate where
  numElements : ℕ
  elemSize : ℕ
  alignment : ℕ
  base : ℕ
  numElements_pos : 0 < numElements
  numElements_lt : numElements < 2 ^ 32
  alignment_pos : 0 < alignment
  base_pos : 0 < base
  base_fits : base + numElements *
    (8 * max 1 ((elemSize + alignment) / alignment * alignment / 8)) ≤ 2 ^ 64

namespace StaticPoolTemplate

variable (t : StaticPoolTemplate)

/-- `kAlignedElementSize`. -/
def kAlignedElementSize : ℕ := (t.elemSize + t.alignment) / t.alignment * t.alignment

/-- The words of a `QueueElement`: as many as its contents have, and one for `next`. -/
def elementWords : ℕ := max 1 (t.kAlignedElementSize / 8)

theorem elementWords_pos : 0 < t.elementWords := lt_of_lt_of_le Nat.zero_lt_one (le_max_left _ _)

theorem elementWords_lt : 8 * t.elementWords < 2 ^ 64 := by
  have hfits : t.base + t.numElements * (8 * t.elementWords) ≤ 2 ^ 64 := t.base_fits
  have hone := Nat.mul_le_mul_right (8 * t.elementWords) t.numElements_pos
  have hpos := t.base_pos
  omega

/-- The array of the pool. A pool with elements of as many words and the default alignment has
the same. -/
def array : Config where
  numElements := t.numElements
  elemSize := 8 * (t.elementWords - 1)
  base := t.base
  numElements_lt := t.numElements_lt
  elemSize_lt := by
    have hlt := t.elementWords_lt
    omega
  base_pos := t.base_pos
  base_fits := by
    rw [elementWords_eight_mul t.elementWords_pos t.elementWords_lt]
    exact t.base_fits

theorem words_array : t.array.words = t.elementWords :=
  elementWords_eight_mul t.elementWords_pos t.elementWords_lt

/-- `do_allocate`; the alignment of the request is ignored. -/
def doAllocate (bytes _alignment : ℕ) : PoolM t.array (BitVec 64) := do
  StaticPool.assert (bytes ≤ t.kAlignedElementSize)
  StaticPool.assert ((← get).fillLevel ≠ 0)
  let result := (← get).first
  let next ← StaticPool.getNext result
  modify fun pool => { pool with first := next, fillLevel := pool.fillLevel - 1 }
  return result

/-- The pool as a memory resource. The size of a request matters to `do_allocate` only. -/
def resource : MemoryResource Fault (StaticPool t.array) :=
  { StaticPool.resource t.array with doAllocate := t.doAllocate }

variable {t} {pool : StaticPool t.array} {bytes : ℕ}

theorem doAllocate_of_le (h : bytes ≤ t.kAlignedElementSize) (alignment : ℕ) :
    t.doAllocate bytes alignment pool = StaticPool.doAllocate 0 alignment pool := by
  have hfits : StaticPool.assert (bytes ≤ t.kAlignedElementSize) pool = .ok () pool :=
    StaticPool.assert_of_true (decide_eq_true h)
  have hzero : StaticPool.assert (0 ≤ Pools.kAlignedElementSize t.array.elemSize) pool =
      .ok () pool := StaticPool.assert_of_true (decide_eq_true (Nat.zero_le _))
  unfold doAllocate StaticPool.doAllocate
  rw [bind_of_ok hfits, bind_of_ok hzero]

theorem doAllocate_of_lt (h : t.kAlignedElementSize < bytes) (alignment : ℕ) :
    t.doAllocate bytes alignment pool = .error .assertion pool :=
  bind_of_error (StaticPool.assert_of_false (decide_eq_false (Nat.not_le_of_lt h)))

theorem doAllocate_ok {alignment : ℕ} {p : BitVec 64} {pool' : StaticPool t.array}
    (h : t.doAllocate bytes alignment pool = .ok p pool') :
    StaticPool.doAllocate 0 alignment pool = .ok p pool' := by
  rcases Nat.lt_or_ge t.kAlignedElementSize bytes with hlarge | hsmall
  · rw [doAllocate_of_lt hlarge] at h
    exact nomatch h
  · rwa [doAllocate_of_le hsmall] at h

/-- A rejected allocation changes nothing. -/
theorem doAllocate_error {alignment : ℕ} {f : Fault} {pool' : StaticPool t.array}
    (h : t.doAllocate bytes alignment pool = .error f pool') : pool' = pool := by
  rcases Nat.lt_or_ge t.kAlignedElementSize bytes with hlarge | hsmall
  · rw [doAllocate_of_lt hlarge] at h
    exact (EStateM.Result.error.inj h).2.symm
  · rw [doAllocate_of_le hsmall] at h
    exact StaticPool.doAllocate_error h

/-- The pool hands out its elements, and accepts requests of up to `kAlignedElementSize`. -/
theorem handsOut (t : StaticPoolTemplate) :
    t.resource.HandsOut t.numElements t.kAlignedElementSize fun pool live =>
      ∃ free held, Client.Intact ⟨pool, live⟩ free held := by
  have hR := StaticPool.handsOut (c := t.array) t.numElements_pos
  refine ⟨hR.init, hR.overwrite, hR.nodup, hR.fillLevel, hR.size, ?_, ?_, hR.giveBack⟩
  · intro pool live bytes hs hbytes hfree alignment
    obtain ⟨p, pool', hcall, hp⟩ := hR.accept hs (Nat.zero_le _) hfree alignment
    exact ⟨p, pool', (doAllocate_of_le hbytes alignment).trans hcall, hp⟩
  · rintro pool live bytes hs (hlarge | hall) alignment
    · exact ⟨.assertion, doAllocate_of_lt hlarge alignment⟩
    · rcases Nat.lt_or_ge t.kAlignedElementSize bytes with hlarge | hsmall
      · exact ⟨.assertion, doAllocate_of_lt hlarge alignment⟩
      · obtain ⟨f, hcall⟩ : ∃ f, StaticPool.doAllocate 0 alignment pool = .error f pool :=
          hR.reject hs (.inr hall) alignment
        exact ⟨f, (doAllocate_of_le hsmall alignment).trans hcall⟩

/-- The addresses of the bytes of an element. -/
def element (t : StaticPoolTemplate) (i : Fin t.array.numElements) : Set ℕ :=
  Set.Ico (t.array.address i).toNat ((t.array.address i).toNat + 8 * t.elementWords)

/-- A block of `bytes` bytes at `p` lies in the element at `p`, apart from the other ones, and in
the array. -/
structure Fits (t : StaticPoolTemplate) (p : BitVec 64) (bytes : ℕ) (i : Fin t.array.numElements) :
    Prop where
  address : p = t.array.address i
  inside : Set.Ico p.toNat (p.toNat + bytes) ⊆ t.element i
  apart : ∀ j, j ≠ i → Disjoint (Set.Ico p.toNat (p.toNat + bytes)) (t.element j)
  le_end : p.toNat + bytes ≤ t.base + t.numElements * (8 * t.elementWords)

theorem toNat_address (i : Fin t.array.numElements) :
    (t.array.address i).toNat = t.base + i * (8 * t.elementWords) := by
  rw [Config.toNat_address, words_array]
  rfl

theorem disjoint_element {i j : Fin t.array.numElements} (hij : j ≠ i) :
    Disjoint (t.element i) (t.element j) := by
  refine Set.disjoint_left.mpr fun x hi hj => hij ?_
  have hpos := t.elementWords_pos
  simp only [element, Set.mem_Ico, toNat_address] at hi hj
  -- the number of its element can be computed from an address
  have hnumber : ∀ k : ℕ, t.base + k * (8 * t.elementWords) ≤ x →
      x < t.base + k * (8 * t.elementWords) + 8 * t.elementWords →
      (x - t.base) / (8 * t.elementWords) = k := by
    intro k hle hlt
    refine Nat.div_eq_of_lt_le (by omega) ?_
    rw [Nat.add_mul, Nat.one_mul]
    omega
  exact Fin.ext ((hnumber j hj.1 hj.2).symm.trans (hnumber i hi.1 hi.2))

/-- A request fits if it is no larger than an element. -/
theorem fits_address_iff (i : Fin t.array.numElements) :
    t.Fits (t.array.address i) bytes i ↔ bytes ≤ 8 * t.elementWords := by
  constructor
  · intro h
    by_contra hlarge
    -- the first byte behind the element belongs to the block
    have hmem := h.inside (a := (t.array.address i).toNat + 8 * t.elementWords)
      ⟨by omega, by omega⟩
    exact absurd hmem.2 (Nat.lt_irrefl _)
  · intro hle
    have hinside : Set.Ico (t.array.address i).toNat ((t.array.address i).toNat + bytes) ⊆
        t.element i := Set.Ico_subset_Ico_right (by omega)
    have hlt : (i : ℕ) + 1 ≤ t.numElements := i.isLt
    have hnext := Nat.mul_le_mul_right (8 * t.elementWords) hlt
    rw [Nat.succ_mul] at hnext
    refine ⟨rfl, hinside, fun j hij => (disjoint_element hij).mono_left hinside, ?_⟩
    rw [toNat_address]
    omega

/-- **When accepted requests fit.** Every request that is accepted, in every state of the pool,
fits into the element it is given if and only if the accepted size is at most eight, or a
multiple of eight. -/
theorem fits_iff (t : StaticPoolTemplate) :
    (∀ requests outs s, t.resource.Run requests outs s → ∀ bytes alignment p pool',
      t.doAllocate bytes alignment s.pool = .ok p pool' → ∃ i, t.Fits p bytes i) ↔
    t.kAlignedElementSize ≤ 8 ∨ 8 ∣ t.kAlignedElementSize := by
  have hR := t.handsOut
  have hwords : 8 * t.elementWords = 8 * max 1 (t.kAlignedElementSize / 8) := rfl
  constructor
  · intro hall
    obtain ⟨pool, -, hpool, -⟩ := StaticPool.construct_ok (c := t.array) t.numElements_pos
    -- the largest request that is accepted
    obtain ⟨p, pool', hcall, -⟩ := hR.accept (hR.init hpool) le_rfl t.numElements_pos 8
    obtain ⟨i, hi⟩ := hall [] [] ⟨pool, []⟩ (.init hpool) _ 8 p pool' hcall
    obtain rfl := hi.address
    have hle := (fits_address_iff i).mp hi
    omega
  · intro hcond requests outs s hrun bytes alignment p pool' hcall
    obtain ⟨free, held, hintact⟩ := (hR.run hrun).1
    have hcall' : t.resource.doAllocate bytes alignment s.pool = .ok p pool' := hcall
    obtain ⟨⟨hbytes, -⟩, -, -⟩ := hR.of_accepted (hR.run hrun).1 hcall'
    obtain ⟨i, -, -, rfl, -⟩ := hintact.allocate_ok (doAllocate_ok hcall)
    exact ⟨i, (fits_address_iff i).mpr (by omega)⟩

/-- Elements of eight bytes without an alignment. -/
def byteAligned : StaticPoolTemplate where
  numElements := 1
  elemSize := 8
  alignment := 1
  base := 8192
  numElements_pos := by decide
  numElements_lt := by decide
  alignment_pos := by decide
  base_pos := by decide
  base_fits := by decide

/-- A request for nine bytes is answered with an element of eight. -/
theorem byteAligned_overruns : ∃ pool, StaticPool.construct byteAligned.array = .ok () pool ∧
    ∃ p pool', byteAligned.doAllocate 9 1 pool = .ok p pool' ∧
      ¬ ∃ i, byteAligned.Fits p 9 i := by
  obtain ⟨pool, -, hpool, -⟩ := StaticPool.construct_ok (c := byteAligned.array) (by decide)
  have hR := byteAligned.handsOut
  obtain ⟨p, pool', hcall, -⟩ := hR.accept (hR.init hpool)
    (show 9 ≤ byteAligned.kAlignedElementSize by decide) (by decide) 1
  refine ⟨pool, hpool, p, pool', hcall, ?_⟩
  rintro ⟨i, hi⟩
  obtain rfl := hi.address
  exact absurd ((fits_address_iff i).mp hi) (by decide)

end StaticPoolTemplate

end EventFramework.Pools
