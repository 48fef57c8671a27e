import EventFramework.ForMathlib.BlockReuse
import EventFramework.Pools.Resources

/-!
# Which blocks the two pools touch

The pools cannot be told apart by their outcomes, but they hand out different blocks. `StaticPool`
hands out the element returned last, and so touches as many elements as were live at one time.
`Pool` hands out the block returned first, and touches another one with every allocation until
it has touched all (`touched_blocks`).
-/

namespace EventFramework.Pools

open BlockReuse

namespace MemoryResource

variable {F S : Type}

/-- The resource with a record of what it has handed out. -/
def recording (R : MemoryResource F S) : MemoryResource F (S × Record (BitVec 64)) where
  Init s := R.Init s.1 ∧ s.2 = {}
  Overwrite live s s' := R.Overwrite live s.1 s'.1 ∧ s'.2 = s.2
  doAllocate bytes alignment s :=
    match R.doAllocate bytes alignment s.1 with
    | .ok p pool => .ok p (pool, s.2.allocated p)
    | .error f pool => .error f (pool, s.2)
  doDeallocate p bytes alignment s :=
    match R.doDeallocate p bytes alignment s.1 with
    | .ok () pool => .ok () (pool, s.2.returned)
    | .error f pool => .error f (pool, s.2)
  fillLevel s := R.fillLevel s.1
  size s := R.size s.1

variable {R : MemoryResource F S} {requests : List Request} {outs : List Outcome}
  {s s' : S × Record (BitVec 64)} {p : BitVec 64} {bytes alignment : ℕ} {f : F}

theorem recording_allocate_ok : R.recording.doAllocate bytes alignment s = .ok p s' ↔
    R.doAllocate bytes alignment s.1 = .ok p s'.1 ∧ s'.2 = s.2.allocated p := by
  obtain ⟨pool', record'⟩ := s'
  simp only [recording]
  cases R.doAllocate bytes alignment s.1 with
  | ok q pool =>
    simp only [EStateM.Result.ok.injEq, Prod.mk.injEq]
    constructor
    · rintro ⟨rfl, rfl, rfl⟩
      exact ⟨⟨rfl, rfl⟩, rfl⟩
    · rintro ⟨⟨rfl, rfl⟩, rfl⟩
      exact ⟨rfl, rfl, rfl⟩
  | error g pool => simp

theorem recording_allocate_error : R.recording.doAllocate bytes alignment s = .error f s' ↔
    R.doAllocate bytes alignment s.1 = .error f s'.1 ∧ s'.2 = s.2 := by
  obtain ⟨pool', record'⟩ := s'
  simp only [recording]
  cases R.doAllocate bytes alignment s.1 with
  | ok q pool => simp
  | error g pool => simp [and_assoc, eq_comm]

theorem recording_deallocate_ok : R.recording.doDeallocate p bytes alignment s = .ok () s' ↔
    R.doDeallocate p bytes alignment s.1 = .ok () s'.1 ∧ s'.2 = s.2.returned := by
  obtain ⟨pool', record'⟩ := s'
  simp only [recording]
  cases R.doDeallocate p bytes alignment s.1 with
  | ok u pool => simp [eq_comm]
  | error g pool => simp

theorem recording_deallocate_error : R.recording.doDeallocate p bytes alignment s = .error f s' ↔
    R.doDeallocate p bytes alignment s.1 = .error f s'.1 ∧ s'.2 = s.2 := by
  obtain ⟨pool', record'⟩ := s'
  simp only [recording]
  cases R.doDeallocate p bytes alignment s.1 with
  | ok u pool => simp
  | error g pool => simp [and_assoc, eq_comm]

/-- A run of the resource, with a record. -/
theorem Run.exists_recording {t : Session S} (h : R.Run requests outs t) :
    ∃ record, R.recording.Run requests outs ⟨(t.pool, record), t.live⟩ := by
  induction h with
  | init h => exact ⟨{}, .init ⟨h, rfl⟩⟩
  | @overwrite requests outs t pool _ h ih =>
    obtain ⟨record, hrun⟩ := ih
    have hstep : R.recording.Overwrite t.live (t.pool, record) (pool, record) := ⟨h, rfl⟩
    exact ⟨record, hrun.overwrite hstep⟩
  | @accepted requests outs t bytes alignment p pool _ h ih =>
    obtain ⟨record, hrun⟩ := ih
    have hcall : R.recording.doAllocate bytes alignment (t.pool, record) =
        .ok p (pool, record.allocated p) := recording_allocate_ok.mpr ⟨h, rfl⟩
    exact ⟨_, hrun.accepted hcall⟩
  | @rejected requests outs t bytes alignment f pool _ h ih =>
    obtain ⟨record, hrun⟩ := ih
    have hcall : R.recording.doAllocate bytes alignment (t.pool, record) =
        .error f (pool, record) := recording_allocate_error.mpr ⟨h, rfl⟩
    exact ⟨record, hrun.rejected hcall⟩
  | @returned requests outs t place bytes alignment p pool _ hp h ih =>
    obtain ⟨record, hrun⟩ := ih
    have hcall : R.recording.doDeallocate p bytes alignment (t.pool, record) =
        .ok () (pool, record.returned) := recording_deallocate_ok.mpr ⟨h, rfl⟩
    exact ⟨_, hrun.returned hp hcall⟩
  | @returnFails requests outs t place bytes alignment p f pool _ hp h ih =>
    obtain ⟨record, hrun⟩ := ih
    have hcall : R.recording.doDeallocate p bytes alignment (t.pool, record) =
        .error f (pool, record) := recording_deallocate_error.mpr ⟨h, rfl⟩
    exact ⟨record, hrun.returnFails hp hcall⟩

/-- The record changes nothing. -/
theorem Run.of_recording {t : Session (S × Record (BitVec 64))}
    (h : R.recording.Run requests outs t) : R.Run requests outs ⟨t.pool.1, t.live⟩ := by
  induction h with
  | init h => exact .init h.1
  | overwrite _ h ih => exact .overwrite ih h.1
  | accepted _ h ih => exact .accepted ih (recording_allocate_ok.mp h).1
  | rejected _ h ih => exact .rejected ih (recording_allocate_error.mp h).1
  | returned _ hp h ih => exact .returned ih hp (recording_deallocate_ok.mp h).1
  | returnFails _ hp h ih => exact .returnFails ih hp (recording_deallocate_error.mp h).1

/-! ### Resources with a list of free blocks -/

/-- A resource that hands out the first of its free blocks, and puts returned ones back by
`put`. -/
structure HandsOutFirst (R : MemoryResource F S)
    (put : BitVec 64 → List (BitVec 64) → List (BitVec 64)) (blocks : List (BitVec 64))
    (Free : S → List (BitVec 64) → List (BitVec 64) → Prop) : Prop where
  init {s : S} (h : R.Init s) : Free s [] blocks
  overwrite {s s' : S} {live free : List (BitVec 64)} (hs : Free s live free)
    (h : R.Overwrite live s s') : Free s' live free
  nodup {s : S} {live free : List (BitVec 64)} (hs : Free s live free) : live.Nodup
  allocate {s s' : S} {live free : List (BitVec 64)} {bytes alignment : ℕ} {p : BitVec 64}
    (hs : Free s live free) (h : R.doAllocate bytes alignment s = .ok p s') :
    ∃ rest, free = p :: rest ∧ Free s' (p :: live) rest
  reject {s s' : S} {live free : List (BitVec 64)} {bytes alignment : ℕ} {f : F}
    (hs : Free s live free) (h : R.doAllocate bytes alignment s = .error f s') : s' = s
  deallocate {s : S} {live free : List (BitVec 64)} {p : BitVec 64} (hs : Free s live free)
    (hp : p ∈ live) (bytes alignment : ℕ) :
    ∃ s', R.doDeallocate p bytes alignment s = .ok () s' ∧ Free s' (live.erase p) (put p free)

/-- **Every run follows the discipline of the free list.** -/
theorem HandsOutFirst.reachable {put : BitVec 64 → List (BitVec 64) → List (BitVec 64)}
    {blocks : List (BitVec 64)} {Free : S → List (BitVec 64) → List (BitVec 64) → Prop}
    (hR : R.HandsOutFirst put blocks Free) {t : Session (S × Record (BitVec 64))}
    (h : R.recording.Run requests outs t) :
    ∃ free, Free t.pool.1 t.live free ∧ Reuse.Reachable put blocks ⟨free, t.live, t.pool.2⟩ := by
  induction h with
  | @init s h =>
    refine ⟨blocks, hR.init h.1, ?_⟩
    rw [h.2]
    exact .init
  | @overwrite requests outs t s _ h ih =>
    obtain ⟨free, hfree, hreach⟩ := ih
    refine ⟨free, hR.overwrite hfree h.1, ?_⟩
    rw [h.2]
    exact hreach
  | accepted _ h ih =>
    obtain ⟨free, hfree, hreach⟩ := ih
    obtain ⟨hcall, hrecord⟩ := recording_allocate_ok.mp h
    obtain ⟨rest, rfl, hrest⟩ := hR.allocate hfree hcall
    refine ⟨rest, hrest, ?_⟩
    rw [hrecord]
    exact hreach.step (.take rfl)
  | rejected _ h ih =>
    obtain ⟨free, hfree, hreach⟩ := ih
    obtain ⟨hcall, hrecord⟩ := recording_allocate_error.mp h
    refine ⟨free, ?_, ?_⟩
    · rwa [hR.reject hfree hcall]
    · rwa [hrecord]
  | @returned _ _ t place bytes alignment p _ _ hp h ih =>
    obtain ⟨free, hfree, hreach⟩ := ih
    obtain ⟨hcall, hrecord⟩ := recording_deallocate_ok.mp h
    obtain ⟨hplace, rfl⟩ := List.getElem?_eq_some_iff.mp hp
    obtain ⟨s', hcall', hback⟩ := hR.deallocate hfree (List.getElem_mem hplace) bytes alignment
    obtain ⟨-, rfl⟩ := EStateM.Result.ok.inj (hcall.symm.trans hcall')
    have herase := (hR.nodup hfree).erase_getElem place hplace
    rw [herase] at hback
    refine ⟨_, hback, ?_⟩
    rw [hrecord, ← herase]
    exact hreach.step (.give (List.getElem_mem hplace))
  | @returnFails _ _ t place bytes alignment p _ _ _ hp h ih =>
    obtain ⟨free, hfree, -⟩ := ih
    obtain ⟨hcall, -⟩ := recording_deallocate_error.mp h
    obtain ⟨s', hcall', -⟩ := hR.deallocate hfree (List.mem_of_getElem? hp) bytes alignment
    exact absurd (hcall.symm.trans hcall') (by simp)

/-! ### What the record counts -/

/-- The counts of the record after a list of requests. -/
def tally (n limit : ℕ) (requests : List Request) : Record Unit :=
  requests.foldl (fun record request => match request with
    | .allocate bytes _ => if bytes ≤ limit ∧ record.live < n then record.allocated () else record
    | .deallocate _ _ _ => record.returned) {}

theorem tally_allocate (n limit : ℕ) (requests : List Request) (bytes alignment : ℕ) :
    tally n limit (requests ++ [.allocate bytes alignment]) =
      if bytes ≤ limit ∧ (tally n limit requests).live < n then
        (tally n limit requests).allocated ()
      else tally n limit requests :=
  List.foldl_concat ..

theorem tally_deallocate (n limit : ℕ) (requests : List Request) (place bytes alignment : ℕ) :
    tally n limit (requests ++ [.deallocate place bytes alignment]) =
      (tally n limit requests).returned :=
  List.foldl_concat ..

/-- Never more than `n` blocks are in use, nor more than have been allocated. -/
theorem tally_peak_le (n limit : ℕ) (requests : List Request) :
    (tally n limit requests).live ≤ (tally n limit requests).allocations ∧
    (tally n limit requests).peak ≤ min n (tally n limit requests).allocations := by
  induction requests using List.reverseRecOn with
  | nil => exact ⟨le_rfl, Nat.zero_le _⟩
  | append_singleton requests request ih =>
    obtain ⟨hlive, hpeak⟩ := ih
    cases request with
    | allocate bytes alignment =>
      rw [tally_allocate]
      split
      · simp only [Record.allocated]
        omega
      · exact ⟨hlive, hpeak⟩
    | deallocate place bytes alignment =>
      rw [tally_deallocate]
      exact ⟨(Nat.sub_le _ 1).trans hlive, hpeak⟩

/-- The counts of two records are the same. -/
structure SameCounts {B B' : Type} (r : Record B) (r' : Record B') : Prop where
  allocations : r.allocations = r'.allocations
  live : r.live = r'.live
  peak : r.peak = r'.peak

/-- **The counts depend on the requests only.** -/
theorem HandsOut.tally {n limit : ℕ} {Inv : S → List (BitVec 64) → Prop}
    (hR : R.HandsOut n limit Inv) {t : Session (S × Record (BitVec 64))}
    (h : R.recording.Run requests outs t) :
    t.pool.2.live = t.live.length ∧
      SameCounts t.pool.2 (MemoryResource.tally n limit requests) := by
  induction h with
  | init h =>
    rw [h.2]
    exact ⟨rfl, rfl, rfl, rfl⟩
  | overwrite _ h ih =>
    rw [h.2]
    exact ih
  | accepted hrun h ih =>
    obtain ⟨hlive, hcounts⟩ := ih
    obtain ⟨hcall, hrecord⟩ := recording_allocate_ok.mp h
    obtain ⟨haccept, -, -⟩ := hR.of_accepted (hR.run hrun.of_recording).1 hcall
    rw [← hlive, hcounts.live] at haccept
    rw [hrecord, tally_allocate, if_pos haccept]
    refine ⟨congrArg (· + 1) hlive, congrArg (· + 1) hcounts.allocations,
      congrArg (· + 1) hcounts.live, ?_⟩
    simp only [Record.allocated, hcounts.peak, hcounts.live]
  | rejected hrun h ih =>
    obtain ⟨hlive, hcounts⟩ := ih
    obtain ⟨hcall, hrecord⟩ := recording_allocate_error.mp h
    obtain ⟨hreject, -⟩ := hR.of_rejected (hR.run hrun.of_recording).1 hcall
    rw [← hlive, hcounts.live] at hreject
    rw [hrecord, tally_allocate, if_neg hreject]
    exact ⟨hlive, hcounts⟩
  | returned hrun hp h ih =>
    obtain ⟨hlive, hcounts⟩ := ih
    obtain ⟨-, hrecord⟩ := recording_deallocate_ok.mp h
    obtain ⟨hlen, -⟩ := hR.giveBack_place (hR.run hrun.of_recording).1 hp 0 0
    rw [hrecord, tally_deallocate]
    refine ⟨?_, hcounts.allocations, congrArg (· - 1) hcounts.live, hcounts.peak⟩
    rw [Record.returned, hlive, hlen]
  | returnFails hrun hp h _ =>
    obtain ⟨hcall, -⟩ := recording_deallocate_error.mp h
    obtain ⟨-, pool', hcall', -⟩ := hR.giveBack_place (hR.run hrun.of_recording).1 hp _ _
    exact absurd (hcall.symm.trans hcall') (by simp)

end MemoryResource

/-! ### The two pools -/

/-- **The static pool hands out the element returned last.** -/
theorem StaticPool.handsOutFirst {c : Config} (hpos : 0 < c.numElements) :
    ∃ blocks : List (BitVec 64), blocks.Nodup ∧
      (StaticPool.resource c).HandsOutFirst List.cons blocks fun pool live free =>
        ∃ elements held, Client.Intact ⟨pool, live⟩ elements held ∧
          free = elements.map c.address := by
  obtain ⟨pool₀, -, hpool₀, -⟩ := StaticPool.construct_ok hpos
  obtain ⟨elements₀, hintact₀⟩ := Client.construct_intact hpool₀ hpos
  refine ⟨elements₀.map c.address,
    hintact₀.freeList.nodup.map Config.address_injective, ?_⟩
  constructor
  case init =>
    intro pool hpool
    obtain ⟨-, rfl⟩ := EStateM.Result.ok.inj (hpool₀.symm.trans hpool)
    exact ⟨elements₀, [], hintact₀, rfl⟩
  case overwrite =>
    rintro pool _ live _ ⟨elements, held, hintact, rfl⟩ ⟨i, contents, hi, rfl⟩
    have hheld : i ∈ held := by
      have hlive : live = held.map c.address := hintact.live
      rw [hlive] at hi
      exact StaticPool.address_mem_map.mp hi
    exact ⟨elements, held, hintact.write hheld contents, rfl⟩
  case nodup =>
    rintro pool live _ ⟨elements, held, hintact, rfl⟩
    have hlive : live = held.map c.address := hintact.live
    rw [hlive]
    exact hintact.nodup_held.map Config.address_injective
  case allocate =>
    rintro pool pool' live _ bytes alignment p ⟨elements, held, hintact, rfl⟩ hcall
    have hcall' : StaticPool.doAllocate bytes alignment pool = .ok p pool' := hcall
    obtain ⟨i, rest, rfl, rfl, hintact'⟩ := hintact.allocate_ok hcall'
    exact ⟨rest.map c.address, rfl, rest, i :: held, hintact', rfl⟩
  case reject =>
    rintro pool pool' live _ bytes alignment f ⟨elements, held, hintact, rfl⟩ hcall
    have hcall' : StaticPool.doAllocate bytes alignment pool = .error f pool' := hcall
    exact (hintact.allocate_error hcall').1
  case deallocate =>
    rintro pool live _ p ⟨elements, held, hintact, rfl⟩ hp bytes alignment
    obtain ⟨i, hi, rfl⟩ := hintact.exists_of_live hp
    obtain ⟨pool', hcall, hintact'⟩ := hintact.doDeallocate_eq hi bytes alignment
    exact ⟨pool', hcall, i :: elements, held.erase i, hintact', rfl⟩

/-- **The pool hands out the block returned first.** -/
theorem Pool.handsOutFirst {alignment elementSize count memData : BitVec 64} {pool₀ : Pool}
    (hpos : alignment ≠ 0) (h : construct alignment elementSize count memData = .ok () pool₀) :
    (resource alignment elementSize count memData).HandsOutFirst putLast
      (blocks alignment elementSize count memData) fun pool live free =>
        Inv alignment elementSize count memData pool live ∧ free = pool.pool := by
  have hR := handsOut hpos h
  constructor
  case init =>
    intro pool hpool
    refine ⟨hR.init hpool, ?_⟩
    obtain ⟨-, -, rfl⟩ := construct_ok_iff.mp hpool
    rfl
  case overwrite =>
    rintro pool pool' live _ ⟨hs, rfl⟩ rfl
    exact ⟨hs, rfl⟩
  case nodup => exact fun hs => hR.nodup hs.1
  case allocate =>
    rintro pool pool' live _ bytes al p ⟨hs, rfl⟩ hcall
    obtain ⟨⟨hbytes, -⟩, -, hs'⟩ := hR.of_accepted hs hcall
    cases hfree : pool.pool with
    | nil =>
      have hcall' : doAllocate bytes al pool = .error .assertion pool :=
        doAllocate_of_reject (.inr hfree) al
      exact absurd (hcall.symm.trans hcall') (by simp)
    | cons q rest =>
      have hcall' : doAllocate bytes al pool = .ok q { pool with pool := rest } :=
        doAllocate_of_cons (hs.elementSize_eq ▸ hbytes) hfree al
      obtain ⟨rfl, rfl⟩ := EStateM.Result.ok.inj (hcall.symm.trans hcall')
      exact ⟨rest, rfl, hs', rfl⟩
  case reject =>
    rintro pool pool' live _ bytes al f ⟨hs, rfl⟩ hcall
    exact (hR.of_rejected hs hcall).2
  case deallocate =>
    rintro pool live _ p ⟨hs, rfl⟩ hp bytes al
    obtain ⟨pool', hcall, hs'⟩ := hR.giveBack hs hp bytes al
    have hpool : pool' = { pool with pool := pool.pool ++ [p] } :=
      (EStateM.Result.ok.inj (hcall.symm.trans rfl)).2
    refine ⟨pool', hcall, hs', ?_⟩
    rw [hpool, putLast]

/-- **Which blocks the pools touch.** For elements of the same size in the same number, with no
overflow, in every run: the elements that the static pool has ever handed out are as many as were
live at one time at most; the pool has handed out another block with every accepted allocation,
until it has handed out all; and for the same requests the static pool never touches more. -/
theorem touched_blocks (c : Config) (memData : BitVec 64) (hpos : 0 < c.numElements)
    (helem : c.elemSize + 8 < 2 ^ 64)
    (hsize : kAlignedElementSize c.elemSize * c.numElements < 2 ^ 63) :
    (∀ requests outs s, (StaticPool.resource c).recording.Run requests outs s →
      s.pool.2.used.card = s.pool.2.peak) ∧
    (∀ requests outs s, (Pool.resourceLike c memData).recording.Run requests outs s →
      s.pool.2.used.card = min c.numElements s.pool.2.allocations) ∧
    ∀ requests outs outs' s s', (StaticPool.resource c).recording.Run requests outs s →
      (Pool.resourceLike c memData).recording.Run requests outs' s' →
      s.pool.2.used.card ≤ s'.pool.2.used.card := by
  obtain ⟨pool, hpool⟩ := Pool.construct_ok memData helem hsize
  have hlt := c.numElements_lt
  have hcount : (BitVec.ofNat 64 c.numElements).toNat = c.numElements := by
    rw [BitVec.toNat_ofNat, Nat.mod_eq_of_lt (by omega)]
  obtain ⟨blocks, hnodup, hstatic⟩ := StaticPool.handsOutFirst hpos
  have hpools := Pool.handsOutFirst (by decide) hpool
  have hlifo : ∀ requests outs s, (StaticPool.resource c).recording.Run requests outs s →
      s.pool.2.used.card = s.pool.2.peak := by
    intro requests outs s h
    obtain ⟨free, -, hreach⟩ := hstatic.reachable h
    exact hreach.card_used_of_cons hnodup
  have hfifo : ∀ requests outs s, (Pool.resourceLike c memData).recording.Run requests outs s →
      s.pool.2.used.card = min c.numElements s.pool.2.allocations := by
    intro requests outs s h
    obtain ⟨free, -, hreach⟩ := hpools.reachable h
    have hcard := hreach.card_used_of_putLast (Pool.nodup_blocks (by decide) hpool)
    rwa [Pool.blocks, List.length_map, List.length_range, hcount] at hcard
  refine ⟨hlifo, hfifo, fun requests outs outs' s s' h h' => ?_⟩
  have hR := Pool.handsOut (by decide) hpool
  rw [hcount, toNat_alignedElementSize_eight c.elemSize_lt] at hR
  obtain ⟨-, hcounts⟩ := (StaticPool.handsOut hpos).tally h
  obtain ⟨-, hcounts'⟩ := hR.tally h'
  obtain ⟨-, hpeak⟩ := MemoryResource.tally_peak_le c.numElements
    (kAlignedElementSize c.elemSize) requests
  rw [hlifo requests outs s h, hfifo requests outs' s' h', hcounts.peak, hcounts'.allocations]
  exact hpeak

/-- Two allocations, one after the other: the static pool serves both with one element, the pool
with two blocks. -/
theorem touched_blocks_two : ∃ outs s s',
    (StaticPool.resource twoElements).recording.Run
      [.allocate 24 8, .deallocate 0 24 8, .allocate 24 8] outs s ∧
    (Pool.resourceLike twoElements 4096).recording.Run
      [.allocate 24 8, .deallocate 0 24 8, .allocate 24 8] outs s' ∧
    s.pool.2.used.card = 1 ∧ s'.pool.2.used.card = 2 := by
  let state (pool : List (BitVec 64)) : Pool := ⟨2, 24, 48, 4096, pool⟩
  have haccept : ∀ ptr rest, (Pool.resourceLike twoElements 4096).doAllocate 24 8
      (state (ptr :: rest)) = .ok ptr (state rest) :=
    fun ptr rest => Pool.doAllocate_of_cons (show 24 ≤ (24 : BitVec 64).toNat by decide) rfl 8
  have hreturn : (Pool.resourceLike twoElements 4096).doDeallocate 4096 24 8 (state [4120]) =
      .ok () (state [4120, 4096]) := rfl
  have hinit : (Pool.resourceLike twoElements 4096).Init (state [4096, 4120]) :=
    Pool.construct_ok_iff.mpr ⟨by decide, by decide, by decide⟩
  have hfirst := MemoryResource.Run.accepted (.init hinit) (haccept 4096 [4120])
  have hreturned := hfirst.returned (rfl : ([4096] : List (BitVec 64))[0]? = some 4096) hreturn
  have hsecond := hreturned.accepted (haccept 4120 [4096])
  obtain ⟨record', hpool⟩ := hsecond.exists_recording
  have hR := Pool.handsOut (by decide) hinit
  have hR' := StaticPool.handsOut (show 0 < twoElements.numElements by decide)
  obtain ⟨static, -, hstatic, -⟩ :=
    StaticPool.construct_ok (show 0 < twoElements.numElements by decide)
  obtain ⟨s, hrun⟩ := hR.exists_run hR' ⟨static, hstatic⟩ hsecond
  obtain ⟨record, hstaticRun⟩ := hrun.exists_recording
  have hcounts := (hR'.tally hstaticRun).2
  have hcounts' := (hR.tally hpool).2
  obtain ⟨hlifo, hfifo, -⟩ := touched_blocks twoElements 4096 (by decide) (by decide) (by decide)
  refine ⟨_, _, _, hstaticRun, hpool, ?_, ?_⟩
  · rw [hlifo _ _ _ hstaticRun, hcounts.peak]
    rfl
  · rw [hfifo _ _ _ hpool, hcounts'.allocations]
    rfl

end EventFramework.Pools
