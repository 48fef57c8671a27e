import Mathlib.Data.Finset.Card
import Mathlib.Data.List.Nodup

/-!
# Which blocks an allocator reuses

Blocks are taken from the front of a list of free blocks. An allocator that puts a returned block
back at the front (`List.cons`) needs as few blocks as possible: the blocks it has ever handed
out are as many as were in use at one time (`Reachable.card_used_of_cons`). One that puts it at
the back (`putLast`) hands out all blocks before it reuses one
(`Reachable.card_used_of_putLast`).
-/

namespace BlockReuse

/-- What has been handed out so far: the blocks, how often, how many are in use, and how many were
at most. -/
structure Record (B : Type*) where
  used : Finset B := ∅
  allocations : ℕ := 0
  live : ℕ := 0
  peak : ℕ := 0

namespace Record

variable {B : Type*}

/-- A block is handed out. -/
def allocated [DecidableEq B] (b : B) (r : Record B) : Record B :=
  ⟨insert b r.used, r.allocations + 1, r.live + 1, max r.peak (r.live + 1)⟩

/-- A block comes back. -/
def returned (r : Record B) : Record B := { r with live := r.live - 1 }

end Record

/-- The free blocks, those in use, and the record. -/
structure Reuse (B : Type*) where
  free : List B
  live : List B := []
  record : Record B := {}

/-- Put a returned block behind the others. -/
def putLast {B : Type*} (b : B) (free : List B) : List B := free ++ [b]

namespace Reuse

variable {B : Type*} [DecidableEq B]

/-- Blocks are taken from the front, and put back by `put`. -/
inductive Step (put : B → List B → List B) : Reuse B → Reuse B → Prop
  | take {u : Reuse B} {b : B} {rest : List B} (h : u.free = b :: rest) :
      Step put u ⟨rest, b :: u.live, u.record.allocated b⟩
  | give {u : Reuse B} {b : B} (hb : b ∈ u.live) :
      Step put u ⟨put b u.free, u.live.erase b, u.record.returned⟩

/-- The states reached with all blocks free. -/
inductive Reachable (put : B → List B → List B) (blocks : List B) : Reuse B → Prop
  | init : Reachable put blocks { free := blocks }
  | step {u u' : Reuse B} (hu : Reachable put blocks u) (h : Step put u u') :
      Reachable put blocks u'

/-- The blocks are those handed out once, in this order, and the others. -/
structure Split (blocks : List B) (u : Reuse B) (touched untouched returned : List B) : Prop where
  order : blocks = touched ++ untouched
  perm : (returned ++ u.live).Perm touched
  used : u.record.used = touched.toFinset
  live : u.record.live = u.live.length

variable {blocks touched untouched returned rest : List B} {u u' : Reuse B} {b : B}

namespace Split

theorem init (blocks : List B) : Split blocks { free := blocks } [] blocks [] :=
  ⟨rfl, .nil, rfl, rfl⟩

/-- A block is handed out for the first time. -/
theorem takeNew (h : Split blocks u touched (b :: untouched) returned) (rest : List B) :
    Split blocks ⟨rest, b :: u.live, u.record.allocated b⟩ (touched ++ [b]) untouched
      returned where
  order := by rw [h.order, List.append_assoc, List.singleton_append]
  perm := (List.perm_middle.trans (h.perm.cons b)).trans (List.perm_append_singleton b touched).symm
  used := by simp [Record.allocated, h.used, List.toFinset_append]
  live := congrArg (· + 1) h.live

/-- A returned block is handed out again. -/
theorem takeAgain (h : Split blocks u touched untouched (b :: returned)) (rest : List B) :
    Split blocks ⟨rest, b :: u.live, u.record.allocated b⟩ touched untouched returned where
  order := h.order
  perm := List.perm_middle.trans h.perm
  used := by
    have hb : b ∈ touched := h.perm.mem_iff.mp List.mem_cons_self
    rw [Record.allocated, h.used]
    exact Finset.insert_eq_of_mem (List.mem_toFinset.mpr hb)
  live := congrArg (· + 1) h.live

theorem give (h : Split blocks u touched untouched returned) (hb : b ∈ u.live) {returned'}
    (hreturned : returned'.Perm (b :: returned)) (free : List B) :
    Split blocks ⟨free, u.live.erase b, u.record.returned⟩ touched untouched returned' where
  order := h.order
  perm := by
    have hback : (b :: returned ++ u.live.erase b).Perm (returned ++ u.live) :=
      List.perm_middle.symm.trans ((List.perm_cons_erase hb).symm.append_left returned)
    exact ((hreturned.append_right _).trans hback).trans h.perm
  used := h.used
  live := by rw [List.length_erase_of_mem hb, Record.returned, h.live]

theorem card_used (h : Split blocks u touched untouched returned) (hnodup : blocks.Nodup) :
    u.record.used.card = touched.length := by
  rw [h.order] at hnodup
  rw [h.used, List.toFinset_card_of_nodup (List.nodup_append'.mp hnodup).1]

theorem length_add (h : Split blocks u touched untouched returned) :
    returned.length + u.live.length = touched.length := by
  rw [← List.length_append, h.perm.length_eq]

end Split

/-! ### Reuse what was returned last -/

/-- The blocks in use at the busiest time are the first ones; the others have not been touched. -/
structure Lifo (blocks : List B) (u : Reuse B) (touched untouched returned : List B) : Prop
    extends Split blocks u touched untouched returned where
  free : u.free = returned ++ untouched
  peak : u.record.peak = touched.length

theorem Step.lifo (hu : Lifo blocks u touched untouched returned) (h : Step List.cons u u') :
    ∃ touched untouched returned, Lifo blocks u' touched untouched returned := by
  have hlen := hu.length_add
  cases h with
  | @take b rest h =>
    rw [hu.free] at h
    obtain _ | ⟨c, returned⟩ := returned
    · -- all blocks touched are in use
      obtain rfl : untouched = b :: rest := h
      refine ⟨touched ++ [b], rest, [], hu.toSplit.takeNew rest, rfl, ?_⟩
      simp only [List.length_nil, Nat.zero_add] at hlen
      simp [Record.allocated, hu.peak, hu.live, hlen]
    · obtain ⟨rfl, rfl⟩ := List.cons.inj h
      refine ⟨touched, untouched, returned, hu.toSplit.takeAgain _, rfl, ?_⟩
      rw [List.length_cons] at hlen
      simp only [Record.allocated, hu.peak, hu.live]
      omega
  | @give b hb =>
    refine ⟨touched, untouched, b :: returned, hu.toSplit.give hb (.refl _) _, ?_, hu.peak⟩
    rw [hu.free]
    rfl

/-- **As many blocks as were in use at one time.** -/
theorem Reachable.card_used_of_cons (hnodup : blocks.Nodup) (h : Reachable List.cons blocks u) :
    u.record.used.card = u.record.peak := by
  have hlifo : ∃ touched untouched returned, Lifo blocks u touched untouched returned := by
    induction h with
    | init => exact ⟨[], blocks, [], .init blocks, rfl, rfl⟩
    | step _ hstep ih =>
      obtain ⟨touched, untouched, returned, hu⟩ := ih
      exact hstep.lifo hu
  obtain ⟨touched, untouched, returned, hu⟩ := hlifo
  rw [hu.peak, hu.card_used hnodup]

/-! ### Reuse what was returned first -/

/-- Every allocation has touched another block, as long as there were any. -/
structure Fifo (blocks : List B) (u : Reuse B) (touched untouched returned : List B) : Prop
    extends Split blocks u touched untouched returned where
  free : u.free = untouched ++ returned
  length : touched.length = min blocks.length u.record.allocations

theorem Step.fifo (hu : Fifo blocks u touched untouched returned) (h : Step putLast u u') :
    ∃ touched untouched returned, Fifo blocks u' touched untouched returned := by
  have hlength := hu.length
  have hblocks := congrArg List.length hu.order
  rw [List.length_append] at hblocks
  cases h with
  | @take b rest h =>
    rw [hu.free] at h
    obtain _ | ⟨c, untouched⟩ := untouched
    · obtain rfl : returned = b :: rest := h
      refine ⟨touched, [], rest, hu.toSplit.takeAgain rest, rfl, ?_⟩
      rw [List.length_nil] at hblocks
      simp only [Record.allocated]
      omega
    · obtain ⟨rfl, rfl⟩ := List.cons.inj h
      refine ⟨touched ++ [c], untouched, returned, hu.toSplit.takeNew _, rfl, ?_⟩
      rw [List.length_cons] at hblocks
      simp only [Record.allocated, List.length_append, List.length_singleton]
      omega
  | @give b hb =>
    have hperm : (returned ++ [b]).Perm (b :: returned) := List.perm_append_singleton b returned
    refine ⟨touched, untouched, returned ++ [b], hu.toSplit.give hb hperm _, ?_, hlength⟩
    rw [putLast, hu.free, List.append_assoc]

/-- **All blocks before one is reused.** -/
theorem Reachable.card_used_of_putLast (hnodup : blocks.Nodup)
    (h : Reachable putLast blocks u) :
    u.record.used.card = min blocks.length u.record.allocations := by
  have hfifo : ∃ touched untouched returned, Fifo blocks u touched untouched returned := by
    induction h with
    | init => exact ⟨[], blocks, [], .init blocks, (List.append_nil _).symm, (Nat.min_zero _).symm⟩
    | step _ hstep ih =>
      obtain ⟨touched, untouched, returned, hu⟩ := ih
      exact hstep.fifo hu
  obtain ⟨touched, untouched, returned, hu⟩ := hfifo
  rw [← hu.length, hu.card_used hnodup]

end Reuse

end BlockReuse
