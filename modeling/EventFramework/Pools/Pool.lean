import EventFramework.ForMathlib.ErrorState
import Mathlib.Algebra.Group.Nat.Defs
import Mathlib.Data.List.Range
import Mathlib.Data.Set.BooleanAlgebra
import Mathlib.Order.CompletePartialOrder
import Mathlib.Order.Interval.Set.Basic

/-!
# The pool

`Pool.hxx`: a byte vector cut into blocks of `element_size_` bytes, and a queue of pointers to
the free ones. Sizes and pointers are 64-bit values, and all arithmetic on them wraps around.
The constructor checks nothing itself: `resize` rejects a vector of more than `2 ^ 63 - 1` bytes,
and `at` an index outside the vector.

The checks of the standard library are enough (`construct_blocks`): when the wrapped product
`element_size_ * count` is too small for the blocks, one of the wrapped indices
`i * element_size_` lies outside the vector.
-/

namespace EventFramework.Pools

open ErrorState

/-- Why a function of the pool stops. -/
inductive PoolFault
  /-- an assertion fails -/
  | assertion
  /-- `at` is given an index out of range -/
  | outOfRange
  /-- `resize` is given a length out of range -/
  | lengthError
  deriving DecidableEq, Repr

/-- `Pool`; the name is for logging only and is left out. -/
structure Pool where
  size : BitVec 64
  elementSize : BitVec 64
  /-- `pool_mem_.size()` -/
  memSize : BitVec 64
  /-- `pool_mem_.data()` -/
  memData : BitVec 64
  /-- `pool_`, the pointer to be handed out next in front -/
  pool : List (BitVec 64)
  deriving DecidableEq, Repr

namespace Pool

/-- Member functions of a pool. -/
abbrev PoolM := EStateM PoolFault Pool

/-- `AssertionProviderType::Assert`. -/
def assert (condition : Bool) : PoolM Unit :=
  if condition then pure () else throw .assertion

/-- The initial value of `element_size_`. -/
def alignedElementSize (alignment elementSize : BitVec 64) : BitVec 64 :=
  (elementSize + alignment) / alignment * alignment

/-- `pool_mem_.resize(n)`. -/
def resize (n : BitVec 64) : PoolM Unit :=
  if n.toNat ≤ 2 ^ 63 - 1 then modify fun pool => { pool with memSize := n }
  else throw .lengthError

/-- `&pool_mem_.at(i)`. -/
def elementAt (i : BitVec 64) : PoolM (BitVec 64) := do
  let pool ← get
  if i < pool.memSize then return pool.memData + i else throw .outOfRange

/-- One round of the loop of the constructor. -/
def pushBlock (i : ℕ) : PoolM Unit := do
  let block ← elementAt (BitVec.ofNat 64 i * (← get).elementSize)
  modify fun pool => { pool with pool := pool.pool ++ [block] }

/-- The constructor, for the template argument `alignment`, with the bytes of the vector at
`memData`. -/
def construct (alignment elementSize count memData : BitVec 64) :
    EStateM.Result PoolFault Pool Unit :=
  EStateM.run (do
      resize ((← get).elementSize * (← get).size)
      (List.range count.toNat).forM pushBlock)
    { size := count
      elementSize := alignedElementSize alignment elementSize
      memSize := 0
      memData
      pool := [] }

/-- `do_allocate`; the alignment is ignored. -/
def doAllocate (bytes _alignment : ℕ) : PoolM (BitVec 64) := do
  assert (bytes ≤ (← get).elementSize.toNat)
  assert (!(← get).pool.isEmpty)
  match (← get).pool with
  | [] => throw .assertion
  | result :: rest =>
    modify fun pool => { pool with pool := rest }
    return result

/-- `do_deallocate`; size and alignment are ignored. -/
def doDeallocate (ptr : BitVec 64) (_bytes _alignment : ℕ) : PoolM Unit :=
  modify fun pool => { pool with pool := pool.pool ++ [ptr] }

/-- `FillLevel`. -/
def fillLevel (pool : Pool) : ℕ := pool.pool.length

/-! ### What the functions do -/

section Apply

variable {pool : Pool} {bytes : ℕ}

theorem assert_of_true {condition : Bool} (h : condition = true) :
    assert condition pool = .ok () pool := by
  rw [assert, if_pos h]
  rfl

theorem assert_of_false {condition : Bool} (h : condition = false) :
    assert condition pool = .error .assertion pool := by
  rw [assert, h, if_neg Bool.false_ne_true]
  rfl

theorem get_apply (pool : Pool) : (get : PoolM Pool) pool = .ok pool pool := rfl

/-- An allocation of a fitting size hands out the pointer in front. -/
theorem doAllocate_of_cons (h : bytes ≤ pool.elementSize.toNat) {ptr : BitVec 64}
    {rest : List (BitVec 64)} (hpool : pool.pool = ptr :: rest) (alignment : ℕ) :
    doAllocate bytes alignment pool = .ok ptr { pool with pool := rest } := by
  have hfits : assert (bytes ≤ pool.elementSize.toNat) pool = .ok () pool :=
    assert_of_true (decide_eq_true h)
  have hsome : assert (!pool.pool.isEmpty) pool = .ok () pool := assert_of_true (by simp [hpool])
  unfold doAllocate
  rw [bind_of_ok (get_apply pool), bind_of_ok hfits, bind_of_ok (get_apply pool),
    bind_of_ok hsome, bind_of_ok (get_apply pool), hpool]
  rfl

/-- An allocation that is too large, or from an empty queue, fails. -/
theorem doAllocate_of_reject (h : pool.elementSize.toNat < bytes ∨ pool.pool = [])
    (alignment : ℕ) : doAllocate bytes alignment pool = .error .assertion pool := by
  unfold doAllocate
  rw [bind_of_ok (get_apply pool)]
  by_cases hbytes : bytes ≤ pool.elementSize.toNat
  · have hfits : assert (bytes ≤ pool.elementSize.toNat) pool = .ok () pool :=
      assert_of_true (decide_eq_true hbytes)
    have hnone : assert (!pool.pool.isEmpty) pool = .error .assertion pool :=
      assert_of_false (by simp [h.resolve_left (Nat.not_lt.mpr hbytes)])
    rw [bind_of_ok hfits, bind_of_ok (get_apply pool), bind_of_error hnone]
  · have hfits : assert (bytes ≤ pool.elementSize.toNat) pool = .error .assertion pool :=
      assert_of_false (decide_eq_false hbytes)
    rw [bind_of_error hfits]

end Apply

/-! ### The constructor -/

variable {alignment elementSize count memData : BitVec 64} {pool pool' : Pool}

/-- The pointer to block `i`. -/
def block (pool : Pool) (i : ℕ) : BitVec 64 :=
  pool.memData + BitVec.ofNat 64 i * pool.elementSize

theorem pushBlock_eq (i : ℕ) (pool : Pool) : pushBlock i pool =
    if BitVec.ofNat 64 i * pool.elementSize < pool.memSize then
      .ok () { pool with pool := pool.pool ++ [pool.block i] }
    else .error .outOfRange pool := by
  have hget := get_apply pool
  unfold pushBlock
  rw [bind_of_ok hget]
  by_cases h : BitVec.ofNat 64 i * pool.elementSize < pool.memSize
  · have hat : elementAt (BitVec.ofNat 64 i * pool.elementSize) pool = .ok (pool.block i) pool := by
      unfold elementAt
      rw [bind_of_ok hget, if_pos h]
      rfl
    rw [bind_of_ok hat, if_pos h]
    rfl
  · have hat : elementAt (BitVec.ofNat 64 i * pool.elementSize) pool = .error .outOfRange pool := by
      unfold elementAt
      rw [bind_of_ok hget, if_neg h]
      rfl
    rw [bind_of_error hat, if_neg h]

/-- The loop of the constructor pushes one block after the other. -/
theorem pushBlock_loop {l : List ℕ} : (l.forM pushBlock : PoolM Unit) pool = .ok () pool' ↔
    (∀ i ∈ l, BitVec.ofNat 64 i * pool.elementSize < pool.memSize) ∧
      pool' = { pool with pool := pool.pool ++ l.map pool.block } := by
  induction l generalizing pool with
  | nil =>
    rw [List.map_nil, List.append_nil]
    constructor
    · intro hok
      cases hok
      exact ⟨List.forall_mem_nil _, rfl⟩
    · rintro ⟨-, rfl⟩
      rfl
  | cons i l ih =>
    change (pushBlock i >>= fun _ => l.forM pushBlock) pool = _ ↔ _
    rw [List.forall_mem_cons]
    by_cases h : BitVec.ofNat 64 i * pool.elementSize < pool.memSize
    · have hpush := (pushBlock_eq i pool).trans (if_pos h)
      rw [bind_of_ok hpush, ih, List.map_cons, List.append_assoc]
      simp only [h, true_and]
      rfl
    · have hpush := (pushBlock_eq i pool).trans (if_neg h)
      rw [bind_of_error hpush]
      exact iff_of_false (fun hok => nomatch hok) fun hall => h hall.1.1

/-- What the constructor requires and builds. -/
theorem construct_ok_iff : construct alignment elementSize count memData = .ok () pool ↔
    (alignedElementSize alignment elementSize * count).toNat ≤ 2 ^ 63 - 1 ∧
      (∀ i < count.toNat, BitVec.ofNat 64 i * alignedElementSize alignment elementSize <
        alignedElementSize alignment elementSize * count) ∧
      pool = {
        size := count
        elementSize := alignedElementSize alignment elementSize
        memSize := alignedElementSize alignment elementSize * count
        memData
        pool := (List.range count.toNat).map fun i =>
          memData + BitVec.ofNat 64 i * alignedElementSize alignment elementSize } := by
  let pool₀ : Pool := ⟨count, alignedElementSize alignment elementSize, 0, memData, []⟩
  have hget := get_apply pool₀
  unfold construct EStateM.run
  rw [bind_of_ok hget, bind_of_ok hget]
  by_cases h : (alignedElementSize alignment elementSize * count).toNat ≤ 2 ^ 63 - 1
  · have hresize : resize (pool₀.elementSize * pool₀.size) pool₀ =
        .ok () { pool₀ with memSize := pool₀.elementSize * pool₀.size } := by
      rw [resize, if_pos h]
      rfl
    rw [bind_of_ok hresize, pushBlock_loop]
    simp only [h, List.mem_range, true_and]
    rfl
  · have hresize : resize (pool₀.elementSize * pool₀.size) pool₀ = .error .lengthError pool₀ := by
      rw [resize, if_neg h]
      rfl
    rw [bind_of_error hresize]
    exact iff_of_false (fun hok => nomatch hok) fun hall => h hall.1

/-! ### Overflow -/

/-- The sum may wrap around, the product does not. -/
theorem toNat_alignedElementSize (alignment elementSize : BitVec 64) :
    (alignedElementSize alignment elementSize).toNat =
      (elementSize.toNat + alignment.toNat) % 2 ^ 64 / alignment.toNat * alignment.toNat := by
  have hle := Nat.div_mul_le_self ((elementSize.toNat + alignment.toNat) % 2 ^ 64) alignment.toNat
  have hlt := Nat.mod_lt (elementSize.toNat + alignment.toNat) (Nat.two_pow_pos 64)
  rw [alignedElementSize, BitVec.toNat_mul, BitVec.toNat_udiv, BitVec.toNat_add,
    Nat.mod_eq_of_lt (hle.trans_lt hlt)]

/-- Without a wrap-around the size is rounded up to more than was asked for. -/
theorem lt_alignedElementSize (hpos : 0 < alignment.toNat)
    (h : elementSize.toNat + alignment.toNat < 2 ^ 64) :
    elementSize.toNat < (alignedElementSize alignment elementSize).toNat := by
  have hsplit := Nat.div_add_mod' (elementSize.toNat + alignment.toNat) alignment.toNat
  have hmod := Nat.mod_lt (elementSize.toNat + alignment.toNat) hpos
  rw [toNat_alignedElementSize, Nat.mod_eq_of_lt h]
  omega

/-- With one it becomes zero. -/
theorem alignedElementSize_of_wrap (h : 2 ^ 64 ≤ elementSize.toNat + alignment.toNat) :
    (alignedElementSize alignment elementSize).toNat = 0 := by
  have hlt := elementSize.isLt
  have hlt' := alignment.isLt
  have hmod : (elementSize.toNat + alignment.toNat) % 2 ^ 64 =
      elementSize.toNat + alignment.toNat - 2 ^ 64 := by omega
  rw [toNat_alignedElementSize, hmod, Nat.div_eq_of_lt (by omega), Nat.zero_mul]

/-- **Some index is out of range.** When the product wraps around to at most half of the range,
a multiple of `e` below it wraps around to no less. -/
theorem exists_le_mul_mod {e n m : ℕ} (hm : m < 2 ^ 63) (he : e < 2 ^ 64) (h : 2 ^ 64 ≤ e * n) :
    ∃ i < n, m ≤ i * e % 2 ^ 64 := by
  have hpos : 0 < e := Nat.pos_of_ne_zero fun h0 => by rw [h0] at h; omega
  rcases Nat.lt_or_ge (2 ^ 63) e with hlarge | hsmall
  · -- the first multiple is large enough
    refine ⟨1, ?_, ?_⟩
    · by_contra hn
      have hle : e * n ≤ e * 1 := Nat.mul_le_mul_left e (by omega)
      omega
    · rw [Nat.one_mul, Nat.mod_eq_of_lt he]
      omega
  · -- the first multiple from `m` on does not wrap around
    have hsplit := Nat.div_add_mod' (m + e - 1) e
    have hmod := Nat.mod_lt (m + e - 1) hpos
    have hle : m ≤ (m + e - 1) / e * e := by omega
    have hlt : (m + e - 1) / e * e < 2 ^ 64 := by omega
    refine ⟨(m + e - 1) / e, ?_, ?_⟩
    · have hprod : (m + e - 1) / e * e < n * e := by
        rw [Nat.mul_comm n]
        omega
      exact Nat.lt_of_mul_lt_mul_right hprod
    · rwa [Nat.mod_eq_of_lt hlt]

/-- The offsets of the bytes of block `i` in the vector. -/
def extent (pool : Pool) (i : ℕ) : Set ℕ :=
  Set.Ico (i * pool.elementSize.toNat) ((i + 1) * pool.elementSize.toNat)

theorem toNat_mul_of_lt {i : ℕ} (e : BitVec 64) (hi : i < 2 ^ 64) :
    (BitVec.ofNat 64 i * e).toNat = i * e.toNat % 2 ^ 64 := by
  rw [BitVec.toNat_mul, BitVec.toNat_ofNat, Nat.mod_eq_of_lt hi]

/-- A constructor that completes has not wrapped around. -/
theorem construct_no_wrap (hpos : 0 < alignment.toNat) (hcount : 0 < count.toNat)
    (h : construct alignment elementSize count memData = .ok () pool) :
    elementSize.toNat < pool.elementSize.toNat ∧
      pool.elementSize.toNat * count.toNat < 2 ^ 64 := by
  obtain ⟨hresize, hat, rfl⟩ := construct_ok_iff.mp h
  have hlt := count.isLt
  simp only
  constructor
  · -- a block size of zero means an empty vector, which has no index
    by_contra hle
    have hzero : (alignedElementSize alignment elementSize).toNat = 0 := by
      by_contra hne
      refine hle (lt_alignedElementSize hpos ?_)
      by_contra hwrap
      exact hne (alignedElementSize_of_wrap (by omega))
    have hfirst := hat 0 hcount
    rw [BitVec.lt_def, BitVec.toNat_mul _ count, hzero] at hfirst
    simp at hfirst
  · by_contra hwrap
    have hprod := BitVec.toNat_mul (alignedElementSize alignment elementSize) count
    obtain ⟨i, hi, hle⟩ := exists_le_mul_mod (m := (alignedElementSize alignment elementSize *
      count).toNat) (by omega) (alignedElementSize alignment elementSize).isLt (Nat.not_lt.mp hwrap)
    have hindex := hat i hi
    rw [BitVec.lt_def, toNat_mul_of_lt _ (by omega)] at hindex
    omega

/-- **Construction is safe under overflow.** When the constructor completes with at least one
block, the block size is at least the size asked for, the size of the vector has not wrapped
around, and the blocks are disjoint and lie in the vector; they are what is in the queue. -/
theorem construct_blocks (hpos : alignment ≠ 0) (hcount : count ≠ 0)
    (h : construct alignment elementSize count memData = .ok () pool) :
    elementSize.toNat ≤ pool.elementSize.toNat ∧
    pool.memSize.toNat = pool.elementSize.toNat * count.toNat ∧
    (∀ i j, i ≠ j → Disjoint (pool.extent i) (pool.extent j)) ∧
    (∀ i < count.toNat, pool.extent i ⊆ Set.Iio pool.memSize.toNat) ∧
    pool.pool = (List.range count.toNat).map pool.block := by
  obtain ⟨hsize, hprod⟩ := construct_no_wrap (by bv_omega) (by bv_omega) h
  obtain ⟨-, -, rfl⟩ := construct_ok_iff.mp h
  have hmem : (alignedElementSize alignment elementSize * count).toNat =
      (alignedElementSize alignment elementSize).toNat * count.toNat := by
    rw [BitVec.toNat_mul, Nat.mod_eq_of_lt hprod]
  refine ⟨hsize.le, hmem, fun i j hij => ?_, fun i hi x hx => ?_, rfl⟩
  · -- the number of its block can be computed from an offset
    refine Set.disjoint_left.mpr fun x hi hj => hij ?_
    exact (Nat.div_eq_of_lt_le hi.1 hi.2).symm.trans (Nat.div_eq_of_lt_le hj.1 hj.2)
  · have hend : (i + 1) * (alignedElementSize alignment elementSize).toNat ≤
        count.toNat * (alignedElementSize alignment elementSize).toNat := Nat.mul_le_mul_right _ hi
    rw [Set.mem_Iio, hmem, Nat.mul_comm]
    exact lt_of_lt_of_le hx.2 hend

/-- Two blocks of 24 bytes, from a request for 16. -/
theorem construct_blocks_two : ∃ pool, construct 8 16 2 4096 = .ok () pool ∧
    pool.pool = [4096, 4120] ∧ Disjoint (pool.extent 0) (pool.extent 1) := by
  have h : construct 8 16 2 4096 = .ok () ⟨2, 24, 48, 4096, [4096, 4120]⟩ :=
    construct_ok_iff.mpr ⟨by decide, by decide, by decide⟩
  exact ⟨_, h, rfl, (construct_blocks (by decide) (by decide) h).2.2.1 0 1 (by decide)⟩

end Pool

end EventFramework.Pools
