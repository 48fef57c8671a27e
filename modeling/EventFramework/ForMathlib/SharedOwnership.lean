import Mathlib.Data.Finset.Basic
import Mathlib.Data.Multiset.Basic

/-!
# Shared and weak ownership of blocks

The protocol of reference-counted objects that live in one block with their counters. A block
holds an object as long as it has a shared owner. When the last one goes the object is
destroyed, which takes a while, and the block is given back when it has no owner left, shared or
weak; that takes a while too. So a block in use is owned, or its object is being destroyed, or
it is on its way back.

`Use` are the moves of the owners. They keep the phases apart (`Use.disjoint`) and leave the set
of blocks in use as it is (`Use.inUse_eq`): only `share` of a new block and `returned` change it.
-/

namespace SharedOwnership

/-- The owners of the blocks, and the blocks that are being given up. -/
structure Owners (B : Type*) where
  shared : Multiset B := 0
  weak : Multiset B := 0
  /-- the object in the block is being destroyed -/
  disposing : Finset B := ∅
  /-- the block is being given back -/
  returning : Finset B := ∅

namespace Owners

variable {B : Type*} [DecidableEq B] {o o' : Owners B} {b c : B}

/-- One more shared owner. -/
def share (b : B) (o : Owners B) : Owners B := { o with shared := b ::ₘ o.shared }

/-- One more weak owner. -/
def weaken (b : B) (o : Owners B) : Owners B := { o with weak := b ::ₘ o.weak }

/-- A shared owner goes, and the last one starts the destruction of the object. -/
def reset (b : B) (o : Owners B) : Owners B :=
  { o with
    shared := o.shared.erase b
    disposing := if b ∈ o.shared.erase b then o.disposing else insert b o.disposing }

/-- The object has been destroyed. -/
def disposed (b : B) (o : Owners B) : Owners B :=
  { o with
    disposing := o.disposing.erase b
    returning := if b ∈ o.weak then o.returning else insert b o.returning }

/-- A weak owner goes. -/
def resetWeak (b : B) (o : Owners B) : Owners B :=
  { o with
    weak := o.weak.erase b
    returning := if b ∈ o.weak.erase b ∨ b ∈ o.shared ∨ b ∈ o.disposing then o.returning
      else insert b o.returning }

/-- The block has been given back. -/
def returned (b : B) (o : Owners B) : Owners B := { o with returning := o.returning.erase b }

/-- The moves of the owners. -/
inductive Use : Owners B → Owners B → Prop
  | copy {o : Owners B} {b : B} (hb : b ∈ o.shared) : Use o (o.share b)
  | weaken {o : Owners B} {b : B} (hb : b ∈ o.shared) : Use o (o.weaken b)
  | copyWeak {o : Owners B} {b : B} (hb : b ∈ o.weak) : Use o (o.weaken b)
  | lock {o : Owners B} {b : B} (hb : b ∈ o.weak) (hshared : b ∈ o.shared) : Use o (o.share b)
  | reset {o : Owners B} {b : B} (hb : b ∈ o.shared) : Use o (o.reset b)
  | disposed {o : Owners B} {b : B} (hb : b ∈ o.disposing) : Use o (o.disposed b)
  | resetWeak {o : Owners B} {b : B} (hb : b ∈ o.weak) : Use o (o.resetWeak b)

/-- The block is not free. -/
def InUse (o : Owners B) (b : B) : Prop :=
  b ∈ o.shared ∨ b ∈ o.weak ∨ b ∈ o.disposing ∨ b ∈ o.returning

/-- The blocks in use. -/
def inUse (o : Owners B) : Finset B :=
  o.shared.toFinset ∪ (o.weak.toFinset ∪ (o.disposing ∪ o.returning))

theorem mem_inUse : b ∈ o.inUse ↔ o.InUse b := by
  simp [inUse, InUse]

/-- **The phases are apart**: an object that is being destroyed has no shared owner, and a block
on its way back has no owner at all. -/
structure Disjoint (o : Owners B) : Prop where
  disposing {b : B} (hb : b ∈ o.disposing) : b ∉ o.shared
  returning {b : B} (hb : b ∈ o.returning) : b ∉ o.shared ∧ b ∉ o.weak ∧ b ∉ o.disposing

/-! ### What the moves change -/

theorem mem_erase_or_eq {m : Multiset B} (hb : b ∈ m) :
    c ∈ m ↔ c ∈ m.erase b ∨ c = b ∧ b ∉ m.erase b := by
  obtain rfl | hne := eq_or_ne c b
  · by_cases hmem : c ∈ m.erase c <;> simp [hb, hmem]
  · simp [Multiset.mem_erase_of_ne hne, hne]

omit [DecidableEq B] in
theorem inUse_share_iff : (o.share b).InUse c ↔ c = b ∨ o.InUse c := by
  simp [InUse, share, or_assoc]

/-- A new block. -/
theorem inUse_share (b : B) (o : Owners B) : (o.share b).inUse = insert b o.inUse := by
  ext c
  rw [mem_inUse, Finset.mem_insert, mem_inUse, inUse_share_iff]

omit [DecidableEq B] in
theorem inUse_weaken_iff : (o.weaken b).InUse c ↔ c = b ∨ o.InUse c := by
  simp [InUse, weaken, or_left_comm, or_assoc]

theorem inUse_reset_iff (hb : b ∈ o.shared) : (o.reset b).InUse c ↔ o.InUse c := by
  unfold InUse reset
  rw [mem_erase_or_eq (c := c) hb]
  split
  · simp [*]
  · simp only [Finset.mem_insert, *, not_false_eq_true, and_true]
    tauto

theorem inUse_disposed_iff (hb : b ∈ o.disposing) : (o.disposed b).InUse c ↔ o.InUse c := by
  unfold InUse disposed
  obtain rfl | hne := eq_or_ne c b
  · by_cases hweak : c ∈ o.weak <;> simp [hb, hweak]
  · by_cases hweak : b ∈ o.weak <;> simp [hne, hweak]

theorem inUse_resetWeak_iff (hb : b ∈ o.weak) : (o.resetWeak b).InUse c ↔ o.InUse c := by
  unfold InUse resetWeak
  rw [mem_erase_or_eq (c := c) hb]
  obtain rfl | hne := eq_or_ne c b
  · by_cases hweak : c ∈ o.weak.erase c <;> by_cases hshared : c ∈ o.shared <;>
      by_cases hdisposing : c ∈ o.disposing <;> simp [hweak, hshared, hdisposing]
  · split <;> simp [hne]

/-- The owners among themselves neither take a block nor free one. -/
theorem Use.inUse_eq (h : Use o o') : o'.inUse = o.inUse := by
  ext c
  rw [mem_inUse, mem_inUse]
  cases h with
  | copy hb =>
    rw [inUse_share_iff, or_iff_right_of_imp]
    rintro rfl
    exact .inl hb
  | weaken hb =>
    rw [inUse_weaken_iff, or_iff_right_of_imp]
    rintro rfl
    exact .inl hb
  | copyWeak hb =>
    rw [inUse_weaken_iff, or_iff_right_of_imp]
    rintro rfl
    exact .inr (.inl hb)
  | lock hb hshared =>
    rw [inUse_share_iff, or_iff_right_of_imp]
    rintro rfl
    exact .inl hshared
  | reset hb => exact inUse_reset_iff hb
  | disposed hb => exact inUse_disposed_iff hb
  | resetWeak hb => exact inUse_resetWeak_iff hb

/-- A block that has been given back is free. -/
theorem Disjoint.inUse_returned (h : o.Disjoint) (hb : b ∈ o.returning) :
    (o.returned b).inUse = o.inUse.erase b := by
  obtain ⟨hshared, hweak, hdisposing⟩ := h.returning hb
  ext c
  rw [Finset.mem_erase, mem_inUse, mem_inUse]
  unfold InUse returned
  obtain rfl | hne := eq_or_ne c b
  · simp [hshared, hweak, hdisposing]
  · simp [hne]

/-! ### The phases stay apart -/

omit [DecidableEq B] in
theorem Disjoint.nil : Disjoint ({} : Owners B) where
  disposing hb := absurd hb (Finset.notMem_empty _)
  returning hb := absurd hb (Finset.notMem_empty _)

omit [DecidableEq B] in
/-- A block that is not in use gets its first owner, or one in use by a shared owner another. -/
theorem Disjoint.share (h : o.Disjoint) (hdisposing : b ∉ o.disposing)
    (hreturning : b ∉ o.returning) : (o.share b).Disjoint where
  disposing {c} hc := by
    have hne : c ≠ b := fun heq => hdisposing (heq ▸ hc)
    simpa [Owners.share, hne] using h.disposing hc
  returning {c} hc := by
    have hne : c ≠ b := fun heq => hreturning (heq ▸ hc)
    simpa [Owners.share, hne] using h.returning hc

omit [DecidableEq B] in
theorem Disjoint.weaken (h : o.Disjoint) (hreturning : b ∉ o.returning) :
    (o.weaken b).Disjoint where
  disposing hc := h.disposing hc
  returning {c} hc := by
    have hne : c ≠ b := fun heq => hreturning (heq ▸ hc)
    simpa [Owners.weaken, hne] using h.returning hc

theorem Disjoint.reset (h : o.Disjoint) (hb : b ∈ o.shared) : (o.reset b).Disjoint where
  disposing {c} hc := by
    simp only [Owners.reset] at hc ⊢
    split at hc
    · exact fun hmem => h.disposing hc (Multiset.mem_of_mem_erase hmem)
    · next hlast =>
      obtain rfl | hc := Finset.mem_insert.mp hc
      · exact hlast
      · exact fun hmem => h.disposing hc (Multiset.mem_of_mem_erase hmem)
  returning {c} hc := by
    obtain ⟨hshared, hweak, hdisposing⟩ := h.returning hc
    have hne : c ≠ b := fun heq => hshared (heq ▸ hb)
    refine ⟨fun hmem => hshared (Multiset.mem_of_mem_erase hmem), hweak, ?_⟩
    simp only [Owners.reset]
    split <;> simp [hne, hdisposing]

theorem Disjoint.disposed (h : o.Disjoint) (hb : b ∈ o.disposing) : (o.disposed b).Disjoint where
  disposing hc := h.disposing (Finset.mem_of_mem_erase hc)
  returning {c} hc := by
    simp only [Owners.disposed] at hc ⊢
    split at hc
    · obtain ⟨hshared, hweak, hdisposing⟩ := h.returning hc
      exact ⟨hshared, hweak, fun hmem => hdisposing (Finset.mem_of_mem_erase hmem)⟩
    · next hweak =>
      obtain rfl | hc := Finset.mem_insert.mp hc
      · exact ⟨h.disposing hb, hweak, Finset.notMem_erase c _⟩
      · obtain ⟨hshared, hweak, hdisposing⟩ := h.returning hc
        exact ⟨hshared, hweak, fun hmem => hdisposing (Finset.mem_of_mem_erase hmem)⟩

theorem Disjoint.resetWeak (h : o.Disjoint) : (o.resetWeak b).Disjoint where
  disposing hc := h.disposing hc
  returning {c} hc := by
    simp only [Owners.resetWeak] at hc ⊢
    split at hc
    · obtain ⟨hshared, hweak, hdisposing⟩ := h.returning hc
      exact ⟨hshared, fun hmem => hweak (Multiset.mem_of_mem_erase hmem), hdisposing⟩
    · next hlast =>
      simp only [not_or] at hlast
      obtain rfl | hc := Finset.mem_insert.mp hc
      · exact ⟨hlast.2.1, hlast.1, hlast.2.2⟩
      · obtain ⟨hshared, hweak, hdisposing⟩ := h.returning hc
        exact ⟨hshared, fun hmem => hweak (Multiset.mem_of_mem_erase hmem), hdisposing⟩

theorem Disjoint.returned (h : o.Disjoint) : (o.returned b).Disjoint where
  disposing hc := h.disposing hc
  returning hc := h.returning (Finset.mem_of_mem_erase hc)

omit [DecidableEq B] in
theorem Disjoint.share_of_mem (h : o.Disjoint) (hb : b ∈ o.shared) : (o.share b).Disjoint :=
  h.share (fun hmem => h.disposing hmem hb) fun hmem => (h.returning hmem).1 hb

/-- **The moves of the owners keep the phases apart.** -/
theorem Use.disjoint (hu : Use o o') (h : o.Disjoint) : o'.Disjoint := by
  cases hu with
  | copy hb => exact h.share_of_mem hb
  | weaken hb => exact h.weaken fun hmem => (h.returning hmem).1 hb
  | copyWeak hb => exact h.weaken fun hmem => (h.returning hmem).2.1 hb
  | lock _ hshared => exact h.share_of_mem hshared
  | reset hb => exact h.reset hb
  | disposed hb => exact h.disposed hb
  | resetWeak _ => exact h.resetWeak

end Owners

end SharedOwnership
