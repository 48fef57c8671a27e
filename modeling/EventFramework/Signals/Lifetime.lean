import EventFramework.ForMathlib.SharedOwnership
import EventFramework.Pools.Resources
import Mathlib.Data.Finset.Card

/-!
# Signals from a pool

`MakeShared` and `CustomAllocator` of `Signal.hxx`. A signal lives with its counters in one block
of the memory resource that the allocator class holds, and goes back there when its last shared
and weak pointer are gone. The resources are pools, each with its own states
(`BlockResource`). Threads make signals, copy and drop pointers, and write into their signals in
any order (`Step`).

The allocator can be set once, and so every signal comes from the same pool. The blocks that are
not free are those of the signals that exist (`Sound`), from which `reachable_owned` reads off
that no block is handed out twice, that none is lost, and when `MakeShared` fails.
-/

namespace EventFramework.Signals

open Pools SharedOwnership

/-! ### The allocator class -/

/-- Why a function of this file stops. -/
inductive SignalFault
  /-- an assertion fails -/
  | assertion
  /-- an allocator of null pointer -/
  | nullAllocator
  /-- `do_allocate` fails -/
  | allocate
  /-- `do_deallocate` fails -/
  | deallocate
  deriving DecidableEq, Repr

/-- `CustomAllocator`, two static pointers that may be null. `I` are the resources. -/
structure CustomAllocator (I : Type) where
  allocator : Option I := none
  sharedAllocator : Option I := none
  deriving DecidableEq, Repr

namespace CustomAllocator

variable {I : Type}

/-- `AssertionProviderType::Assert`. -/
def assert (condition : Bool) : EStateM SignalFault (CustomAllocator I) Unit :=
  if condition then pure () else throw .assertion

/-- `SetAllocator` for a plain pointer. -/
def setAllocator (alloc : Option I) : EStateM SignalFault (CustomAllocator I) Unit := do
  assert (← get).allocator.isNone
  modify fun a => { a with allocator := alloc }

/-- `SetAllocator` for a shared pointer. -/
def setAllocatorShared (alloc : Option I) : EStateM SignalFault (CustomAllocator I) Unit := do
  assert (← get).allocator.isNone
  modify fun a => { a with sharedAllocator := alloc }
  modify fun a => { a with allocator := a.sharedAllocator }

/-- `GetAllocator`. -/
def getAllocator (a : CustomAllocator I) : Option I := a.allocator

/-- Setting an allocator succeeds as long as there is none. -/
theorem setAllocator_eq (alloc : Option I) (a : CustomAllocator I) :
    setAllocator alloc a =
      if a.allocator = none then .ok () { a with allocator := alloc } else .error .assertion a := by
  obtain ⟨_ | _, _⟩ := a <;> rfl

theorem setAllocatorShared_eq (alloc : Option I) (a : CustomAllocator I) :
    setAllocatorShared alloc a =
      if a.allocator = none then .ok () ⟨alloc, alloc⟩ else .error .assertion a := by
  obtain ⟨_ | _, _⟩ := a <;> rfl

end CustomAllocator

/-! ### Resources and blocks -/

/-- A memory resource with a fixed number of equal blocks, and the invariant that shows it. -/
structure BlockResource where
  Fault : Type
  State : Type
  resource : MemoryResource Fault State
  blocks : ℕ
  limit : ℕ
  Inv : State → List (BitVec 64) → Prop
  spec : resource.HandsOut blocks limit Inv

/-- A constructed `Pool`. -/
def BlockResource.ofPool {alignment elementSize count memData : BitVec 64} {pool : Pool}
    (hpos : alignment ≠ 0) (h : Pool.construct alignment elementSize count memData = .ok () pool) :
    BlockResource :=
  ⟨_, _, Pool.resource alignment elementSize count memData, _, _, _, Pool.handsOut hpos h⟩

/-- A `StaticPool`. -/
def BlockResource.ofStaticPool {c : Config} (hpos : 0 < c.numElements) : BlockResource :=
  ⟨_, _, StaticPool.resource c, _, _, _, StaticPool.handsOut hpos⟩

/-- The block of a signal: where it comes from, as its counters know. -/
@[ext]
structure Block (I : Type) where
  resource : I
  address : BitVec 64
  deriving DecidableEq, Repr

/-- The signals of one allocator class, and the resources with the blocks they have handed out. -/
structure Store {I : Type} (R : I → BlockResource) where
  allocator : CustomAllocator I := {}
  sessions : ∀ i, Session (R i).State
  owners : Owners (Block I) := {}

namespace Store

variable {I : Type} [DecidableEq I] {R : I → BlockResource}

/-- `MakeShared` for a signal that takes `bytes` with its counters. -/
def makeShared (bytes alignment : ℕ) : EStateM SignalFault (Store R) (Block I) := fun s =>
  match s.allocator.getAllocator with
  | none => .error .nullAllocator s
  | some i =>
    match (R i).resource.doAllocate bytes alignment (s.sessions i).pool with
    | .ok p pool =>
      .ok ⟨i, p⟩ { s with
        sessions := Function.update s.sessions i ⟨pool, p :: (s.sessions i).live⟩
        owners := s.owners.share ⟨i, p⟩ }
    | .error _ pool =>
      .error .allocate { s with
        sessions := Function.update s.sessions i ⟨pool, (s.sessions i).live⟩ }

/-- What the last owner of a block does with it. -/
def giveBack (b : Block I) (bytes alignment : ℕ) : EStateM SignalFault (Store R) Unit := fun s =>
  let session := s.sessions b.resource
  match (R b.resource).resource.doDeallocate b.address bytes alignment session.pool with
  | .ok () pool =>
    .ok () { s with
      sessions := Function.update s.sessions b.resource ⟨pool, session.live.erase b.address⟩
      owners := s.owners.returned b }
  | .error _ pool =>
    .error .deallocate { s with
      sessions := Function.update s.sessions b.resource ⟨pool, session.live⟩ }

/-- The steps of the threads. A block that has lost its last owner goes back in a step of its
own; a failing operation leaves the state as it leaves it. -/
inductive Step : Store R → Store R → Prop
  | setAllocator {s : Store R} {alloc allocator}
      (h : CustomAllocator.setAllocator alloc s.allocator = .ok () allocator) :
      Step s { s with allocator }
  | setAllocatorShared {s : Store R} {alloc allocator}
      (h : CustomAllocator.setAllocatorShared alloc s.allocator = .ok () allocator) :
      Step s { s with allocator }
  | makeShared {s s' : Store R} {bytes alignment b}
      (h : makeShared bytes alignment s = .ok b s') : Step s s'
  | makeSharedFails {s s' : Store R} {bytes alignment f}
      (h : makeShared bytes alignment s = .error f s') : Step s s'
  | use {s : Store R} {owners} (h : s.owners.Use owners) : Step s { s with owners }
  | write {s : Store R} {i pool}
      (h : (R i).resource.Overwrite (s.sessions i).live (s.sessions i).pool pool) :
      Step s { s with sessions := Function.update s.sessions i ⟨pool, (s.sessions i).live⟩ }
  | giveBack {s s' : Store R} {b bytes alignment} (hb : b ∈ s.owners.returning)
      (h : giveBack b bytes alignment s = .ok () s') : Step s s'
  | giveBackFails {s s' : Store R} {b bytes alignment f} (hb : b ∈ s.owners.returning)
      (h : giveBack b bytes alignment s = .error f s') : Step s s'

/-- The states reached with new resources. -/
inductive Reachable : Store R → Prop
  | init {pools : ∀ i, (R i).State} (h : ∀ i, (R i).resource.Init (pools i)) :
      Reachable { sessions := fun i => ⟨pools i, []⟩ }
  | step {s s' : Store R} (hs : Reachable s) (h : Step s s') : Reachable s'

/-! ### The invariant -/

/-- The blocks of the resources that are not free are those in use, which all come from the
allocator that has been set. -/
structure Sound (s : Store R) : Prop where
  inv (i : I) : (R i).Inv (s.sessions i).pool (s.sessions i).live
  live (b : Block I) : b.address ∈ (s.sessions b.resource).live ↔ b ∈ s.owners.inUse
  disjoint : s.owners.Disjoint
  allocator {b : Block I} (hb : b ∈ s.owners.inUse) : s.allocator.allocator = some b.resource

variable {s s' : Store R} {bytes alignment : ℕ} {b : Block I}

/-- An operation of one resource, which may change the use of its own blocks. -/
theorem Sound.update (hs : s.Sound) {i : I} {session : Session (R i).State}
    {owners : Owners (Block I)} (hinv : (R i).Inv session.pool session.live)
    (hlive : ∀ p, p ∈ session.live ↔ (⟨i, p⟩ : Block I) ∈ owners.inUse)
    (hother : ∀ b : Block I, b.resource ≠ i → (b ∈ owners.inUse ↔ b ∈ s.owners.inUse))
    (hdisjoint : owners.Disjoint)
    (hallocator : ∀ b ∈ owners.inUse, s.allocator.allocator = some b.resource) :
    Sound { s with sessions := Function.update s.sessions i session, owners } where
  inv j := by
    obtain rfl | hne := eq_or_ne j i
    · simpa using hinv
    · simpa [hne] using hs.inv j
  live b := by
    obtain ⟨j, p⟩ := b
    obtain rfl | hne := eq_or_ne j i
    · simpa using hlive p
    · simpa [hne] using (hs.live ⟨j, p⟩).trans (hother ⟨j, p⟩ hne).symm
  disjoint := hdisjoint
  allocator hb := hallocator _ hb

/-- The live blocks of a resource, counted as those in use. -/
theorem Sound.length_live (hs : s.Sound) (i : I) :
    (s.sessions i).live.length = (s.owners.inUse.filter fun b => b.resource = i).card := by
  have hnodup := (R i).spec.nodup (hs.inv i)
  have hinj : Function.Injective (Block.mk i) := fun p p' h => (Block.mk.inj h).2
  have hmap : ((s.sessions i).live.map (Block.mk i)).toFinset =
      s.owners.inUse.filter fun b => b.resource = i := by
    ext b
    rw [List.mem_toFinset, List.mem_map, Finset.mem_filter]
    constructor
    · rintro ⟨p, hp, rfl⟩
      exact ⟨(hs.live ⟨i, p⟩).mp hp, rfl⟩
    · rintro ⟨hb, rfl⟩
      exact ⟨b.address, (hs.live b).mpr hb, rfl⟩
  rw [← hmap, List.toFinset_card_of_nodup (hnodup.map hinj), List.length_map]

/-- The blocks missing in a resource are those in use. -/
theorem Sound.fillLevel_add (hs : s.Sound) (i : I) :
    (R i).resource.fillLevel (s.sessions i).pool +
      (s.owners.inUse.filter fun b => b.resource = i).card = (R i).blocks := by
  rw [← hs.length_live i]
  exact (R i).spec.fillLevel (hs.inv i)

/-- When `MakeShared` succeeds. -/
theorem Sound.makeShared_ok (hs : s.Sound) (h : makeShared bytes alignment s = .ok b s') :
    s.allocator.allocator = some b.resource ∧ bytes ≤ (R b.resource).limit ∧
      (s.sessions b.resource).live.length < (R b.resource).blocks ∧ b ∉ s.owners.inUse ∧
      s'.owners = s.owners.share b ∧ s'.allocator = s.allocator ∧ s'.Sound := by
  unfold makeShared at h
  split at h
  · exact nomatch h
  next i hi =>
    split at h
    · next p pool hcall =>
      obtain ⟨rfl, rfl⟩ := EStateM.Result.ok.inj h
      obtain ⟨⟨hbytes, hfree⟩, hfresh, hinv⟩ := (R i).spec.of_accepted (hs.inv i) hcall
      have hnew : (⟨i, p⟩ : Block I) ∉ s.owners.inUse := fun hmem =>
        hfresh ((hs.live ⟨i, p⟩).mpr hmem)
      refine ⟨hi, hbytes, hfree, hnew, rfl, rfl, hs.update hinv (fun q => ?_) (fun b hb => ?_) ?_
        fun b hb => ?_⟩
      · rw [List.mem_cons, Owners.inUse_share, Finset.mem_insert, hs.live ⟨i, q⟩]
        simp
      · rw [Owners.inUse_share, Finset.mem_insert, or_iff_right]
        rintro rfl
        exact hb rfl
      · refine hs.disjoint.share (fun hmem => hnew ?_) fun hmem => hnew ?_
        · exact Owners.mem_inUse.mpr (.inr (.inr (.inl hmem)))
        · exact Owners.mem_inUse.mpr (.inr (.inr (.inr hmem)))
      · rw [Owners.inUse_share, Finset.mem_insert] at hb
        obtain rfl | hb := hb
        · exact hi
        · exact hs.allocator hb
    · exact nomatch h

/-- When `MakeShared` fails: nothing has changed. -/
theorem Sound.makeShared_error (hs : s.Sound) {f : SignalFault}
    (h : makeShared bytes alignment s = .error f s') :
    s' = s ∧ ∀ i, s.allocator.allocator = some i →
      ¬ (bytes ≤ (R i).limit ∧ (s.sessions i).live.length < (R i).blocks) := by
  unfold makeShared at h
  split at h
  · next hi =>
    obtain ⟨-, rfl⟩ := EStateM.Result.error.inj h
    exact ⟨rfl, fun i hi' => nomatch hi.symm.trans hi'⟩
  next i hi =>
    split at h
    · exact nomatch h
    · next f' pool hcall =>
      obtain ⟨-, rfl⟩ := EStateM.Result.error.inj h
      obtain ⟨hreject, rfl⟩ := (R i).spec.of_rejected (hs.inv i) hcall
      refine ⟨?_, fun j hj => ?_⟩
      · rw [Function.update_eq_self]
      · obtain rfl : i = j := Option.some.inj (hi.symm.trans hj)
        exact hreject

/-- A block on its way back is taken. -/
theorem Sound.giveBack_ok (hs : s.Sound) (hb : b ∈ s.owners.returning) (bytes alignment : ℕ) :
    ∃ s', giveBack b bytes alignment s = .ok () s' ∧ s'.owners = s.owners.returned b ∧
      s'.allocator = s.allocator ∧ s'.Sound := by
  have hused : b ∈ s.owners.inUse := Owners.mem_inUse.mpr (.inr (.inr (.inr hb)))
  have hlive := (hs.live b).mpr hused
  obtain ⟨pool, hcall, hinv⟩ :=
    (R b.resource).spec.giveBack (hs.inv b.resource) hlive bytes alignment
  have hgive : giveBack b bytes alignment s = .ok () { s with
      sessions := Function.update s.sessions b.resource
        ⟨pool, (s.sessions b.resource).live.erase b.address⟩
      owners := s.owners.returned b } := by
    simp only [giveBack, hcall]
  refine ⟨_, hgive, rfl, rfl, hs.update hinv (fun q => ?_) (fun c hc => ?_)
    hs.disjoint.returned fun c hc => ?_⟩
  · have hnodup := (R b.resource).spec.nodup (hs.inv b.resource)
    rw [hnodup.mem_erase_iff, hs.disjoint.inUse_returned hb, Finset.mem_erase, hs.live ⟨_, q⟩]
    simp [Block.ext_iff]
  · rw [hs.disjoint.inUse_returned hb, Finset.mem_erase, and_iff_right]
    rintro rfl
    exact hc rfl
  · rw [hs.disjoint.inUse_returned hb] at hc
    exact hs.allocator (Finset.mem_of_mem_erase hc)

/-- Another allocator can only be set while no signal exists. -/
theorem Sound.setAllocator (hs : s.Sound) (hnone : s.allocator.allocator = none)
    (allocator : CustomAllocator I) : Sound { s with allocator } :=
  ⟨hs.inv, hs.live, hs.disjoint, fun hb => nomatch hnone.symm.trans (hs.allocator hb)⟩

theorem Step.sound (hs : s.Sound) (h : Step s s') : s'.Sound := by
  cases h with
  | setAllocator h =>
    rw [CustomAllocator.setAllocator_eq] at h
    split at h
    · exact hs.setAllocator ‹_› _
    · exact nomatch h
  | setAllocatorShared h =>
    rw [CustomAllocator.setAllocatorShared_eq] at h
    split at h
    · exact hs.setAllocator ‹_› _
    · exact nomatch h
  | makeShared h =>
    obtain ⟨-, -, -, -, -, -, hs'⟩ := hs.makeShared_ok h
    exact hs'
  | makeSharedFails h => exact (hs.makeShared_error h).1 ▸ hs
  | use h =>
    exact ⟨hs.inv, h.inUse_eq ▸ hs.live, h.disjoint hs.disjoint, h.inUse_eq ▸ hs.allocator⟩
  | @write i pool h =>
    exact hs.update ((R i).spec.overwrite (hs.inv i) h) (fun p => hs.live ⟨i, p⟩)
      (fun _ _ => .rfl) hs.disjoint fun _ => hs.allocator
  | giveBack hb h =>
    obtain ⟨s₁, hcall, -, -, hs₁⟩ := hs.giveBack_ok hb _ _
    obtain ⟨-, rfl⟩ := EStateM.Result.ok.inj (h.symm.trans hcall)
    exact hs₁
  | giveBackFails hb h =>
    obtain ⟨s₁, hcall, -⟩ := hs.giveBack_ok hb _ _
    exact nomatch h.symm.trans hcall

theorem Reachable.sound (h : Reachable s) : s.Sound := by
  induction h with
  | init h =>
    exact ⟨fun i => (R i).spec.init (h i), fun b => by simp [Owners.inUse], .nil,
      fun hb => by simp [Owners.inUse] at hb⟩
  | step _ hstep ih => exact hstep.sound ih

/-- An allocator stays. -/
theorem Step.allocator_eq (hs : s.Sound) (h : Step s s') {i : I}
    (hi : s.allocator.allocator = some i) : s'.allocator = s.allocator := by
  cases h with
  | setAllocator h =>
    rw [CustomAllocator.setAllocator_eq, if_neg (by simp [hi])] at h
    exact nomatch h
  | setAllocatorShared h =>
    rw [CustomAllocator.setAllocatorShared_eq, if_neg (by simp [hi])] at h
    exact nomatch h
  | makeShared h => exact (hs.makeShared_ok h).2.2.2.2.2.1
  | makeSharedFails h => rw [(hs.makeShared_error h).1]
  | use _ => rfl
  | write _ => rfl
  | giveBack hb h =>
    obtain ⟨s₁, hcall, -, hallocator, -⟩ := hs.giveBack_ok hb _ _
    obtain ⟨-, rfl⟩ := EStateM.Result.ok.inj (h.symm.trans hcall)
    exact hallocator
  | giveBackFails hb h =>
    obtain ⟨s₁, hcall, -⟩ := hs.giveBack_ok hb _ _
    exact nomatch h.symm.trans hcall

/-- All blocks in use are those of the allocator. -/
theorem Sound.filter_inUse (hs : s.Sound) {i : I} (hi : s.allocator.allocator = some i) :
    (s.owners.inUse.filter fun b => b.resource = i) = s.owners.inUse :=
  Finset.filter_true_of_mem fun _ hb => (Option.some.inj (hi.symm.trans (hs.allocator hb))).symm

/-- When `MakeShared` is served. -/
theorem Sound.makeShared_iff (hs : s.Sound) {i : I} (hi : s.allocator.allocator = some i)
    (bytes alignment : ℕ) : (∃ b s', makeShared bytes alignment s = .ok b s') ↔
      bytes ≤ (R i).limit ∧ s.owners.inUse.card < (R i).blocks := by
  rw [← hs.filter_inUse hi, ← hs.length_live i]
  constructor
  · rintro ⟨b, s', h⟩
    obtain ⟨hb, hbytes, hfree, -⟩ := hs.makeShared_ok h
    obtain rfl := Option.some.inj (hi.symm.trans hb)
    exact ⟨hbytes, hfree⟩
  · intro hfits
    cases h : makeShared bytes alignment s with
    | ok b s' => exact ⟨b, s', rfl⟩
    | error f s' => exact absurd hfits ((hs.makeShared_error h).2 i hi)

/-- One more signal, while there are blocks. -/
theorem Reachable.exists_makeShared (h : Reachable s) {i : I}
    (hi : s.allocator.allocator = some i) (alignment : ℕ) (hbytes : bytes ≤ (R i).limit)
    (hfree : s.owners.inUse.card < (R i).blocks) :
    ∃ s' : Store R, Reachable s' ∧ s'.allocator = s.allocator ∧
      s'.owners.inUse.card = s.owners.inUse.card + 1 := by
  obtain ⟨b, s', hcall⟩ := (h.sound.makeShared_iff hi bytes alignment).mpr ⟨hbytes, hfree⟩
  obtain ⟨-, -, -, hfresh, howners, hallocator, -⟩ := h.sound.makeShared_ok hcall
  refine ⟨s', h.step (.makeShared hcall), hallocator, ?_⟩
  rw [howners, Owners.inUse_share, Finset.card_insert_of_notMem hfresh]

/-- **Signals own the blocks of their pool.** Under every interleaving of making signals, moving
their pointers, and giving blocks back: the blocks missing in a pool are those of signals that
have an owner left, whose object is being destroyed, or that are on their way back, and these
phases are apart; they all come from the one allocator, which stays when it has been set.
`MakeShared` is served if and only if the signal fits into a block and not all blocks are in use;
it gives out a block that is not in use, and leaves the state when it fails. No block that comes
back is refused. -/
theorem reachable_owned (h : Reachable s) :
    s.owners.Disjoint ∧
    (∀ i, (R i).resource.fillLevel (s.sessions i).pool +
      (s.owners.inUse.filter fun b => b.resource = i).card = (R i).blocks) ∧
    (∀ b ∈ s.owners.inUse, s.allocator.getAllocator = some b.resource) ∧
    (∀ i s', s.allocator.getAllocator = some i → Step s s' → s'.allocator = s.allocator) ∧
    (∀ i bytes alignment, s.allocator.getAllocator = some i →
      ((∃ b s', makeShared bytes alignment s = .ok b s') ↔
        bytes ≤ (R i).limit ∧ s.owners.inUse.card < (R i).blocks)) ∧
    (∀ bytes alignment b s', makeShared bytes alignment s = .ok b s' →
      b ∉ s.owners.inUse ∧ s'.owners = s.owners.share b) ∧
    (∀ bytes alignment f s', makeShared bytes alignment s = .error f s' → s' = s) ∧
    ∀ b ∈ s.owners.returning, ∀ bytes alignment, ∃ s',
      giveBack b bytes alignment s = .ok () s' ∧ s'.owners = s.owners.returned b := by
  have hs := h.sound
  refine ⟨hs.disjoint, hs.fillLevel_add, fun b hb => hs.allocator hb,
    fun i s' hi hstep => hstep.allocator_eq hs hi, fun i _ _ hi => hs.makeShared_iff hi _ _,
    fun _ _ b s' hcall => ?_, fun _ _ f s' hcall => (hs.makeShared_error hcall).1,
    fun b hb bytes alignment => ?_⟩
  · obtain ⟨-, -, -, hfresh, howners, -⟩ := hs.makeShared_ok hcall
    exact ⟨hfresh, howners⟩
  · obtain ⟨s', hcall, howners, -⟩ := hs.giveBack_ok hb bytes alignment
    exact ⟨s', hcall, howners⟩

/-- A pool of two blocks. -/
theorem construct_two : Pool.construct 8 16 2 4096 = .ok () ⟨2, 24, 48, 4096, [4096, 4120]⟩ :=
  Pool.construct_ok_iff.mpr ⟨by decide, by decide, by decide⟩

/-- A pool and a static pool, of two blocks each. -/
def twoPools : Bool → BlockResource
  | true => .ofPool (by decide : (8 : BitVec 64) ≠ 0) construct_two
  | false => .ofStaticPool (by decide : 0 < twoElements.numElements)

theorem exists_init :
    ∃ pools : ∀ i, (twoPools i).State, ∀ i, (twoPools i).resource.Init (pools i) := by
  have hinit : ∀ i, ∃ pool, (twoPools i).resource.Init pool := by
    intro i
    cases i with
    | true => exact ⟨_, construct_two⟩
    | false =>
      obtain ⟨static, -, hstatic, -⟩ := StaticPool.construct_ok (c := twoElements) (by decide)
      exact ⟨static, hstatic⟩
  exact Classical.skolem.mp hinit

/-- The third signal is refused by the pool; the static pool is not touched. -/
theorem reachable_owned_exhausted : ∃ s : Store twoPools, s.Reachable ∧
    s.owners.inUse.card = 2 ∧ (¬ ∃ b s', makeShared 16 8 s = .ok b s') ∧
    (twoPools false).resource.fillLevel (s.sessions false).pool = 2 := by
  obtain ⟨pools, hpools⟩ := exists_init
  have hset := (Reachable.init hpools).step
    (.setAllocator (rfl : CustomAllocator.setAllocator (some true) {} = .ok () ⟨some true, none⟩))
  have hfits : 16 ≤ (twoPools true).limit := by decide
  have hblocks : (twoPools true).blocks = 2 := rfl
  obtain ⟨s₁, h₁, hi₁, hcard₁⟩ := hset.exists_makeShared rfl 8 hfits Nat.zero_lt_two
  have hone : s₁.owners.inUse.card = 1 := hcard₁
  obtain ⟨s₂, h₂, hi₂, hcard₂⟩ := h₁.exists_makeShared (by rw [hi₁]) 8 hfits (by omega)
  have htwo : s₂.owners.inUse.card = 2 := by omega
  have hi : s₂.allocator.getAllocator = some true := by rw [hi₂, hi₁]; rfl
  obtain ⟨-, hfill, hall, -, hserved, -⟩ := reachable_owned h₂
  refine ⟨s₂, h₂, htwo, ?_, ?_⟩
  · rw [hserved true 16 8 hi, htwo]
    exact fun h => absurd h.2 (by omega)
  · have hnone : (s₂.owners.inUse.filter fun b => b.resource = false) = ∅ :=
      Finset.filter_false_of_mem fun b hb hfalse => by
        have hb' := hi.symm.trans (hall b hb)
        rw [hfalse] at hb'
        exact nomatch hb'
    have hstatic := hfill false
    rw [hnone, Finset.card_empty] at hstatic
    exact hstatic

end Store

end EventFramework.Signals
