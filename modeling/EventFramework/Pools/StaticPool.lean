import EventFramework.ForMathlib.ErrorState
import EventFramework.ForMathlib.PointerChain
import Mathlib.Algebra.Group.Nat.Defs
import Mathlib.Data.List.FinRange
import Mathlib.Data.Fintype.Basic

/-!
# The static pool

`StaticPool.hxx`: a fixed array of elements whose free ones are threaded on a list that runs
through the elements themselves. An element is a union of its contents and a pointer `next`,
so the pointer is the first machine word of the contents, and whoever holds a block overwrites
it. Pointers are 64-bit addresses; `Config` holds the template arguments together with the
place of the array in memory.

The functions are programs over the pool that stop at a failed assertion, at an index that
`at` rejects, or at a pointer to no element. `mutex_` serialises them, so a run of a pool and
its clients is a sequence of whole calls and of writes into live blocks.
-/

namespace EventFramework.Pools

open ErrorState PointerChain

/-! ### Layout -/

/-- `kAlignedElementSize`, with the default alignment. -/
def kAlignedElementSize (elemSize : ℕ) : ℕ := (elemSize + 8) % 2 ^ 64 / 8 * 8

/-- The words of a `QueueElement`: as many as its contents have, and one for `next`. -/
def elementWords (elemSize : ℕ) : ℕ := max 1 (kAlignedElementSize elemSize / 8)

theorem elementWords_pos (elemSize : ℕ) : 0 < elementWords elemSize :=
  lt_of_lt_of_le Nat.zero_lt_one (le_max_left _ _)

/-- Template arguments of a pool, and the address of its array. -/
structure Config where
  numElements : ℕ
  elemSize : ℕ
  base : ℕ
  numElements_lt : numElements < 2 ^ 32
  elemSize_lt : elemSize < 2 ^ 64
  base_pos : 0 < base
  base_fits : base + numElements * (8 * elementWords elemSize) ≤ 2 ^ 64

namespace Config

variable (c : Config)

/-- The words of an element of the pool. -/
abbrev words : ℕ := elementWords c.elemSize

/-- The word that `next` shares with the contents. -/
def nextWord : Fin c.words := ⟨0, elementWords_pos c.elemSize⟩

/-- `&pool_mem_[i]`. -/
def address (i : Fin c.numElements) : BitVec 64 := BitVec.ofNat 64 (c.base + i * (8 * c.words))

/-- The element a pointer points to. -/
def pointee (p : BitVec 64) : Option (Fin c.numElements) :=
  (List.finRange c.numElements).find? fun i => c.address i = p

variable {c} {i j : Fin c.numElements} {p : BitVec 64}

theorem toNat_address (i : Fin c.numElements) :
    (c.address i).toNat = c.base + i * (8 * c.words) := by
  have hi : ((i : ℕ) + 1) * (8 * c.words) ≤ c.numElements * (8 * c.words) :=
    Nat.mul_le_mul_right _ i.isLt
  have hpos : 0 < c.words := elementWords_pos c.elemSize
  have hfits : c.base + c.numElements * (8 * c.words) ≤ 2 ^ 64 := c.base_fits
  rw [Nat.add_mul, Nat.one_mul] at hi
  rw [address, BitVec.toNat_ofNat, Nat.mod_eq_of_lt (by omega)]

theorem address_injective : Function.Injective c.address := by
  intro i j hij
  have hpos : 0 < 8 * c.words := Nat.mul_pos (by omega) (elementWords_pos c.elemSize)
  have heq : (c.address i).toNat = (c.address j).toNat := by rw [hij]
  rw [toNat_address, toNat_address, Nat.add_left_cancel_iff] at heq
  exact Fin.ext (Nat.eq_of_mul_eq_mul_right hpos heq)

theorem address_ne_zero (i : Fin c.numElements) : c.address i ≠ 0 := by
  intro h
  have heq : (c.address i).toNat = 0 := by rw [h]; rfl
  have hpos := c.base_pos
  rw [toNat_address] at heq
  omega

theorem address_of_pointee (h : c.pointee p = some i) : c.address i = p := by
  simpa using List.find?_some h

@[simp]
theorem pointee_address (i : Fin c.numElements) : c.pointee (c.address i) = some i := by
  cases h : c.pointee (c.address i) with
  | none =>
    have hnone := List.find?_eq_none.mp h i (List.mem_finRange i)
    simp at hnone
  | some j => rw [address_injective (address_of_pointee h)]

end Config

/-! ### The pool -/

/-- Why a function of the pool stops. -/
inductive Fault
  /-- an assertion fails -/
  | assertion
  /-- `at` is given an index out of range -/
  | outOfRange
  /-- a pointer to no element is followed -/
  | badPointer
  deriving DecidableEq, Repr

/-- `StaticPool`; the name is for logging only and is left out. -/
structure StaticPool (c : Config) where
  poolMem : Fin c.numElements → Fin c.words → BitVec 64
  first : BitVec 64
  fillLevel : BitVec 64

/-- Member functions of a pool. -/
abbrev PoolM (c : Config) := EStateM Fault (StaticPool c)

namespace StaticPool

variable {c : Config}

/-- `AssertionProviderType::Assert`. -/
def assert (condition : Bool) : PoolM c Unit :=
  if condition then pure () else throw .assertion

/-- `&pool_mem_.at(i)`. -/
def elementAt (i : ℕ) : PoolM c (BitVec 64) :=
  if h : i < c.numElements then pure (c.address ⟨i, h⟩) else throw .outOfRange

/-- Replace the contents of an element. -/
def write (pool : StaticPool c) (i : Fin c.numElements) (contents : Fin c.words → BitVec 64) :
    StaticPool c :=
  { pool with poolMem := Function.update pool.poolMem i contents }

/-- `ptr->next`. -/
def getNext (ptr : BitVec 64) : PoolM c (BitVec 64) := do
  match c.pointee ptr with
  | none => throw .badPointer
  | some i => return (← get).poolMem i c.nextWord

/-- `ptr->next = value`. -/
def setNext (ptr value : BitVec 64) : PoolM c Unit := do
  match c.pointee ptr with
  | none => throw .badPointer
  | some i =>
    modify fun pool => pool.write i (Function.update (pool.poolMem i) c.nextWord value)

/-- One round of the loop of the constructor; it returns the new `prev`. -/
def linkElement (prev : BitVec 64) (i : ℕ) : PoolM c (BitVec 64) := do
  let element ← elementAt i
  setNext prev element
  getNext prev

/-- The constructor, from zeroed memory. -/
def construct (c : Config) : EStateM.Result Fault (StaticPool c) Unit :=
  EStateM.run (do
      let first ← elementAt 0
      modify fun pool => { pool with first := first }
      let _ ← (List.range' 1 (c.numElements - 1)).foldlM linkElement first
      pure ())
    { poolMem := fun _ _ => 0, first := 0, fillLevel := BitVec.ofNat 64 c.numElements }

/-- `do_allocate`; the alignment is ignored. -/
def doAllocate (bytes _alignment : ℕ) : PoolM c (BitVec 64) := do
  assert (bytes ≤ kAlignedElementSize c.elemSize)
  assert ((← get).fillLevel ≠ 0)
  let result := (← get).first
  let next ← getNext result
  modify fun pool => { pool with first := next, fillLevel := pool.fillLevel - 1 }
  return result

/-- `do_deallocate`; size and alignment are ignored. -/
def doDeallocate (ptr : BitVec 64) (_bytes _alignment : ℕ) : PoolM c Unit := do
  setNext ptr (← get).first
  modify fun pool => { pool with first := ptr, fillLevel := pool.fillLevel + 1 }
  assert ((← get).fillLevel ≤ BitVec.ofNat 64 c.numElements)

/-! ### What the functions do -/

/-- The pool with an element put in front of the free list. -/
def push (pool : StaticPool c) (i : Fin c.numElements) : StaticPool c :=
  { pool.write i (Function.update (pool.poolMem i) c.nextWord pool.first) with
    first := c.address i
    fillLevel := pool.fillLevel + 1 }

section Apply

variable {pool : StaticPool c} {i : Fin c.numElements} {bytes : ℕ}

@[simp]
theorem push_first : (pool.push i).first = c.address i := rfl

@[simp]
theorem push_fillLevel : (pool.push i).fillLevel = pool.fillLevel + 1 := rfl

theorem getNext_address (i : Fin c.numElements) (pool : StaticPool c) :
    getNext (c.address i) pool = .ok (pool.poolMem i c.nextWord) pool := by
  unfold getNext
  rw [Config.pointee_address]
  rfl

theorem setNext_address (i : Fin c.numElements) (value : BitVec 64) (pool : StaticPool c) :
    setNext (c.address i) value pool = .ok ()
      (pool.write i (Function.update (pool.poolMem i) c.nextWord value)) := by
  unfold setNext
  rw [Config.pointee_address]
  rfl

theorem assert_of_true {condition : Bool} (h : condition = true) :
    assert condition pool = .ok () pool := by
  rw [assert, if_pos h]
  rfl

theorem assert_of_false {condition : Bool} (h : condition = false) :
    assert condition pool = .error .assertion pool := by
  rw [assert, h, if_neg Bool.false_ne_true]
  rfl

/-- An allocation that is too large fails. -/
theorem doAllocate_of_lt (h : kAlignedElementSize c.elemSize < bytes) (alignment : ℕ) :
    doAllocate bytes alignment pool = .error .assertion pool :=
  bind_of_error (assert_of_false (by simpa using h))

/-- An allocation of a fitting size fails at fill level 0. -/
theorem doAllocate_of_empty (h : bytes ≤ kAlignedElementSize c.elemSize)
    (hfill : pool.fillLevel = 0) (alignment : ℕ) :
    doAllocate bytes alignment pool = .error .assertion pool := by
  have hfits : assert (bytes ≤ kAlignedElementSize c.elemSize) pool = .ok () pool :=
    assert_of_true (by simpa using h)
  have hlevel : assert (pool.fillLevel ≠ 0) pool = .error .assertion pool :=
    assert_of_false (by simpa using hfill)
  have hget : (get : PoolM c _) pool = .ok pool pool := rfl
  exact (bind_of_ok hfits).trans ((bind_of_ok hget).trans (bind_of_error hlevel))

/-- Else it takes the first element from the list. -/
theorem doAllocate_of_first (h : bytes ≤ kAlignedElementSize c.elemSize)
    (hfill : pool.fillLevel ≠ 0) (hfirst : pool.first = c.address i) (alignment : ℕ) :
    doAllocate bytes alignment pool = .ok (c.address i)
      { pool with
        first := pool.poolMem i c.nextWord
        fillLevel := pool.fillLevel - 1 } := by
  have hfits : assert (bytes ≤ kAlignedElementSize c.elemSize) pool = .ok () pool :=
    assert_of_true (by simpa using h)
  have hlevel : assert (pool.fillLevel ≠ 0) pool = .ok () pool :=
    assert_of_true (by simpa using hfill)
  refine (bind_of_ok hfits).trans ((bind_of_ok hlevel).trans ?_)
  rw [← hfirst]
  exact bind_of_ok (hfirst ▸ getNext_address i pool)

/-- A deallocation puts the element in front of the list, and then checks the fill level. -/
theorem doDeallocate_address (bytes alignment : ℕ)
    (hfill : pool.fillLevel + 1 ≤ BitVec.ofNat 64 c.numElements) :
    doDeallocate (c.address i) bytes alignment pool = .ok () (pool.push i) := by
  refine (bind_of_ok (setNext_address i pool.first pool)).trans ?_
  exact assert_of_true (decide_eq_true hfill)

/-- The updates have been made when the check of a deallocation fails. -/
theorem doDeallocate_of_full (bytes alignment : ℕ)
    (hfill : ¬ pool.fillLevel + 1 ≤ BitVec.ofNat 64 c.numElements) :
    doDeallocate (c.address i) bytes alignment pool = .error .assertion (pool.push i) := by
  refine (bind_of_ok (setNext_address i pool.first pool)).trans ?_
  exact assert_of_false (decide_eq_false hfill)

end Apply

/-! ### What the functions leave alone -/

section Frame

variable {pool pool' : StaticPool c} {bytes alignment : ℕ} {p : BitVec 64}

theorem assert_ok_iff {condition : Bool} {u : Unit} :
    assert condition pool = .ok u pool' ↔ condition = true ∧ pool' = pool := by
  cases condition with
  | true =>
    rw [assert_of_true rfl]
    simp [eq_comm]
  | false =>
    rw [assert_of_false rfl]
    simp

theorem getNext_state {next : BitVec 64} (h : getNext p pool = .ok next pool') :
    pool' = pool := by
  unfold getNext at h
  cases hp : c.pointee p with
  | none =>
    rw [hp] at h
    cases h
  | some i =>
    rw [hp] at h
    cases h
    rfl

theorem assert_error {condition : Bool} {f : Fault}
    (h : assert condition pool = .error f pool') : pool' = pool := by
  cases condition with
  | true => exact nomatch (assert_of_true rfl).symm.trans h
  | false =>
    rw [assert_of_false rfl] at h
    exact (EStateM.Result.error.inj h).2.symm

theorem getNext_error {f : Fault} (h : getNext p pool = .error f pool') : pool' = pool := by
  unfold getNext at h
  cases hp : c.pointee p with
  | none =>
    rw [hp] at h
    exact (EStateM.Result.error.inj h).2.symm
  | some i =>
    rw [hp] at h
    cases h

theorem setNext_poolMem {value : BitVec 64} {u : Unit} (h : setNext p value pool = .ok u pool')
    {i : Fin c.numElements} (hi : c.address i ≠ p) : pool'.poolMem i = pool.poolMem i := by
  unfold setNext at h
  cases hp : c.pointee p with
  | none =>
    rw [hp] at h
    cases h
  | some j =>
    rw [hp] at h
    cases h
    refine Function.update_of_ne ?_ _ _
    rintro rfl
    exact hi (Config.address_of_pointee hp)

/-- An allocation that returns takes one element off the list. -/
theorem doAllocate_ok (h : doAllocate bytes alignment pool = .ok p pool') :
    pool.fillLevel ≠ 0 ∧ p = pool.first ∧
      ∃ next, pool' = { pool with first := next, fillLevel := pool.fillLevel - 1 } := by
  unfold doAllocate at h
  obtain ⟨⟨⟩, pool₁, hfits, h₁⟩ := bind_ok_iff.mp h
  obtain ⟨-, rfl⟩ := assert_ok_iff.mp hfits
  obtain ⟨_, _, ⟨⟩, h₂⟩ := bind_ok_iff.mp h₁
  obtain ⟨⟨⟩, pool₂, hlevel, h₃⟩ := bind_ok_iff.mp h₂
  obtain ⟨hfill, rfl⟩ := assert_ok_iff.mp hlevel
  obtain ⟨_, _, ⟨⟩, h₄⟩ := bind_ok_iff.mp h₃
  obtain ⟨next, pool₃, hnext, h₅⟩ := bind_ok_iff.mp h₄
  obtain rfl := getNext_state hnext
  cases h₅
  exact ⟨of_decide_eq_true hfill, rfl, next, rfl⟩

/-- An allocation writes no element. -/
theorem doAllocate_poolMem (h : doAllocate bytes alignment pool = .ok p pool') :
    pool'.poolMem = pool.poolMem := by
  obtain ⟨-, -, next, rfl⟩ := doAllocate_ok h
  rfl

/-- An allocation that fails changes nothing. -/
theorem doAllocate_error {f : Fault} (h : doAllocate bytes alignment pool = .error f pool') :
    pool' = pool := by
  unfold doAllocate at h
  rcases bind_error_iff.mp h with hfits | ⟨⟨⟩, pool₁, hfits, h₁⟩
  · exact assert_error hfits
  obtain ⟨-, rfl⟩ := assert_ok_iff.mp hfits
  rcases bind_error_iff.mp h₁ with hget | ⟨_, _, ⟨⟩, h₂⟩
  · exact nomatch hget
  rcases bind_error_iff.mp h₂ with hlevel | ⟨⟨⟩, pool₂, hlevel, h₃⟩
  · exact assert_error hlevel
  obtain ⟨-, rfl⟩ := assert_ok_iff.mp hlevel
  rcases bind_error_iff.mp h₃ with hget | ⟨_, _, ⟨⟩, h₄⟩
  · exact nomatch hget
  rcases bind_error_iff.mp h₄ with hnext | ⟨next, pool₃, -, h₅⟩
  · exact getNext_error hnext
  · exact nomatch h₅

/-- A deallocation writes the element it is given only. -/
theorem doDeallocate_poolMem (h : doDeallocate p bytes alignment pool = .ok () pool')
    {i : Fin c.numElements} (hi : c.address i ≠ p) : pool'.poolMem i = pool.poolMem i := by
  unfold doDeallocate at h
  obtain ⟨_, _, ⟨⟩, h₁⟩ := bind_ok_iff.mp h
  obtain ⟨⟨⟩, pool₁, hset, h₂⟩ := bind_ok_iff.mp h₁
  obtain ⟨⟨⟩, _, ⟨⟩, h₃⟩ := bind_ok_iff.mp h₂
  obtain ⟨_, _, ⟨⟩, h₄⟩ := bind_ok_iff.mp h₃
  obtain ⟨-, rfl⟩ := assert_ok_iff.mp h₄
  exact setNext_poolMem hset hi

end Frame

/-! ### The free list -/

/-- A pointer that is not null. -/
def nonnull (ptr : BitVec 64) : Option (BitVec 64) := if ptr = 0 then none else some ptr

@[simp]
theorem nonnull_address (i : Fin c.numElements) :
    nonnull (c.address i) = some (c.address i) := if_neg (Config.address_ne_zero i)

theorem eq_of_nonnull {p q : BitVec 64} (h : nonnull p = some q) : p = q := by
  unfold nonnull at h
  split at h
  · exact nomatch h
  · exact Option.some.inj h

/-- Where the `next` pointer of the element at an address leads. -/
def next (pool : StaticPool c) (ptr : BitVec 64) : Option (BitVec 64) :=
  (c.pointee ptr).bind fun i => nonnull (pool.poolMem i c.nextWord)

/-- The chain from `first_` through `next` visits exactly the elements `free` and ends in
null. -/
def FreeList (pool : StaticPool c) (free : List (Fin c.numElements)) : Prop :=
  Seg pool.next (nonnull pool.first) none (free.map c.address)

variable {pool : StaticPool c} {free : List (Fin c.numElements)} {i : Fin c.numElements}

theorem next_address (i : Fin c.numElements) :
    pool.next (c.address i) = nonnull (pool.poolMem i c.nextWord) := by
  rw [next, Config.pointee_address, Option.bind_some]

/-- Writing an element changes one pointer at most. -/
theorem next_write (pool : StaticPool c) (i : Fin c.numElements)
    (contents : Fin c.words → BitVec 64) :
    (pool.write i contents).next =
      Function.update pool.next (c.address i) (nonnull (contents c.nextWord)) := by
  funext ptr
  by_cases hi : ptr = c.address i
  · rw [hi, Function.update_self, next_address]
    simp [write]
  · rw [Function.update_of_ne hi]
    unfold next
    cases hptr : c.pointee ptr with
    | none => rfl
    | some j =>
      have hj : j ≠ i := by
        rintro rfl
        exact hi (Config.address_of_pointee hptr).symm
      simp [write, Function.update_of_ne hj]

theorem next_link (pool : StaticPool c) (i : Fin c.numElements) (value : BitVec 64) :
    (pool.write i (Function.update (pool.poolMem i) c.nextWord value)).next =
      Function.update pool.next (c.address i) (nonnull value) := by
  rw [next_write, Function.update_self]

theorem next_push (pool : StaticPool c) (i : Fin c.numElements) :
    (pool.push i).next = Function.update pool.next (c.address i) (nonnull pool.first) :=
  pool.next_link i pool.first

theorem address_mem_map : c.address i ∈ free.map c.address ↔ i ∈ free :=
  List.mem_map_of_injective Config.address_injective

namespace FreeList

theorem nodup (h : FreeList pool free) : free.Nodup := (Seg.nodup h).of_map

/-- Writing an element off the free list does not disturb it. -/
theorem write (h : FreeList pool free) (hi : i ∉ free) (contents : Fin c.words → BitVec 64) :
    FreeList (pool.write i contents) free := by
  unfold FreeList
  rw [next_write]
  exact Seg.update_of_not_mem (address_mem_map.not.mpr hi) h

/-- **Allocation** takes the first free element. -/
theorem doAllocate (h : FreeList pool (i :: free)) {bytes : ℕ}
    (hbytes : bytes ≤ kAlignedElementSize c.elemSize) (hfill : pool.fillLevel ≠ 0)
    (alignment : ℕ) :
    ∃ pool', StaticPool.doAllocate bytes alignment pool = .ok (c.address i) pool' ∧
      FreeList pool' free ∧ pool'.fillLevel = pool.fillLevel - 1 := by
  obtain ⟨hfirst, htail⟩ := Seg.cons_iff.mp h
  refine ⟨_, doAllocate_of_first hbytes hfill (eq_of_nonnull hfirst) alignment, ?_, rfl⟩
  rwa [next_address] at htail

/-- **Deallocation** makes the element the first free one. -/
theorem doDeallocate (h : FreeList pool free) (hi : i ∉ free)
    (hfill : pool.fillLevel + 1 ≤ BitVec.ofNat 64 c.numElements) (bytes alignment : ℕ) :
    ∃ pool', StaticPool.doDeallocate (c.address i) bytes alignment pool = .ok () pool' ∧
      FreeList pool' (i :: free) ∧ pool'.fillLevel = pool.fillLevel + 1 := by
  refine ⟨_, doDeallocate_address bytes alignment hfill, ?_, rfl⟩
  have hpush := Seg.push h (address_mem_map.not.mpr hi)
  rw [← next_push, ← nonnull_address] at hpush
  exact hpush

end FreeList

/-! ### The constructor -/

/-- One round of the constructor puts the next element behind the last one. -/
theorem linkElement_spec {before : List (Fin c.numElements)} {x y : Fin c.numElements}
    (h : FreeList pool (before ++ [x])) (hy : y ∉ before ++ [x])
    (hnull : pool.poolMem y c.nextWord = 0) :
    ∃ pool', linkElement (c.address x) y pool = .ok (c.address y) pool' ∧
      FreeList pool' (before ++ [x] ++ [y]) ∧ pool'.fillLevel = pool.fillLevel ∧
      ∀ z, z ≠ x → pool'.poolMem z = pool.poolMem z := by
  have hlt : (y : ℕ) < c.numElements := y.isLt
  have hat : elementAt y pool = .ok (c.address y) pool := by
    rw [elementAt, dif_pos hlt]
    rfl
  have hget := getNext_address x
    (pool.write x (Function.update (pool.poolMem x) c.nextWord (c.address y)))
  have hword : (pool.write x (Function.update (pool.poolMem x) c.nextWord
      (c.address y))).poolMem x c.nextWord = c.address y := by
    simp [write]
  rw [hword] at hget
  refine ⟨_, (bind_of_ok hat).trans ((bind_of_ok (setNext_address x _ pool)).trans hget), ?_, rfl,
    fun z hz => Function.update_of_ne hz _ _⟩
  have hnext := pool.next_link x (c.address y)
  rw [nonnull_address] at hnext
  -- the element was zero, so the list still ends in null
  have hynull : pool.next (c.address y) = none := by
    rw [next_address, hnull]
    rfl
  have hlast : (before ++ [x]).map c.address = before.map c.address ++ [c.address x] :=
    List.map_append
  have hyaddress : c.address y ∉ before.map c.address ++ [c.address x] := by
    rw [← hlast]
    exact address_mem_map.not.mpr hy
  unfold FreeList at h ⊢
  rw [hlast] at h
  have hconcat := Seg.concat h hyaddress hynull
  rw [List.map_append, hlast, hnext]
  exact hconcat

/-- The loop of the constructor puts the elements from `k` on behind the first `k`. -/
theorem linkElement_loop {before : List (Fin c.numElements)} {x : Fin c.numElements} (n k : ℕ)
    (hk : (x : ℕ) + 1 = k) (hn : k + n ≤ c.numElements) (h : FreeList pool (before ++ [x]))
    (hmem : ∀ i, i ∈ before ++ [x] ↔ (i : ℕ) < k)
    (hnull : ∀ i : Fin c.numElements, k ≤ i → pool.poolMem i c.nextWord = 0) :
    ∃ p pool' free, (List.range' k n).foldlM linkElement (c.address x) pool = .ok p pool' ∧
      FreeList pool' free ∧ (∀ i, i ∈ free ↔ (i : ℕ) < k + n) ∧
      pool'.fillLevel = pool.fillLevel := by
  induction n generalizing pool before x k with
  | zero => exact ⟨_, _, _, rfl, h, hmem, rfl⟩
  | succ n ih =>
    have hlt : k < c.numElements := by omega
    obtain ⟨pool₁, hlink, hfree, hfill, hothers⟩ := linkElement_spec (y := ⟨k, hlt⟩) h
      (fun hy => by simpa using (hmem _).mp hy) (hnull _ le_rfl)
    obtain ⟨p, pool', free, hloop, hfree', hmem', hfill'⟩ := ih (k + 1) rfl (by omega) hfree
      (fun i => by rw [List.mem_append, hmem, List.mem_singleton, Fin.ext_iff]; simp; omega)
      (fun i hi => by
        have hix : i ≠ x := fun h => by rw [h] at hi; omega
        rw [hothers i hix, hnull i (by omega)])
    -- this round's element, then the rest of the loop
    refine ⟨p, pool', free, ?_, hfree', fun i => ?_, hfill'.trans hfill⟩
    · rw [List.range'_succ, List.foldlM_cons]
      exact (bind_of_ok hlink).trans hloop
    · rw [hmem']
      omega

/-- **A new pool** has all its elements on the free list. -/
theorem construct_ok (hpos : 0 < c.numElements) : ∃ pool free, construct c = .ok () pool ∧
    FreeList pool free ∧ (∀ i, i ∈ free) ∧ pool.fillLevel = BitVec.ofNat 64 c.numElements := by
  let pool₀ : StaticPool c :=
    { poolMem := fun _ _ => 0
      first := c.address ⟨0, hpos⟩
      fillLevel := BitVec.ofNat 64 c.numElements }
  have hfirst : FreeList pool₀ ([] ++ [⟨0, hpos⟩]) := by
    have hnext : pool₀.next (c.address ⟨0, hpos⟩) = none := next_address _
    unfold FreeList
    rw [nonnull_address]
    refine .cons ?_
    rw [hnext]
    exact .nil none
  obtain ⟨p, pool, free, hloop, hfree, hmem, hfill⟩ := linkElement_loop (x := ⟨0, hpos⟩)
    (c.numElements - 1) 1 rfl (by omega) hfirst (fun i => by simp [Fin.ext_iff]) fun _ _ => rfl
  refine ⟨pool, free, ?_, hfree, fun i => (hmem i).mpr (by omega), hfill⟩
  have hat : elementAt 0 { pool₀ with first := 0 } = .ok (c.address ⟨0, hpos⟩)
      { pool₀ with first := 0 } := by
    rw [elementAt, dif_pos hpos]
    rfl
  exact (bind_of_ok hat).trans (bind_of_ok hloop)

end StaticPool

end EventFramework.Pools
