import Mathlib.Data.List.Basic
import Mathlib.Data.List.Nodup

/-!
# Memory resources that hand out equal blocks

What the two pools are used for: both override `do_allocate` and `do_deallocate` of
`std::pmr::memory_resource` and report a fill level and a size. `MemoryResource.Run` are the
runs of a resource under a list of requests; between requests the owners of the live blocks
write into them.

`HandsOut` specifies a resource with a fixed number of blocks: an allocation is accepted when
the request is not too large and not all blocks are live, and returns a block that is not live.
For the caller only the number of live blocks matters then, which is `Ledger`; so two resources
with the same number of blocks and the same largest request cannot be told apart by their
outcomes (`HandsOut.outcomes_eq`).
-/

namespace EventFramework.Pools

/-- A memory resource with states `S` whose operations fail with `F`. -/
structure MemoryResource (F S : Type) where
  /-- the states of a new resource -/
  Init : S → Prop
  /-- what the owners of live blocks may do to the memory -/
  Overwrite : List (BitVec 64) → S → S → Prop
  doAllocate : ℕ → ℕ → EStateM F S (BitVec 64)
  doDeallocate : BitVec 64 → ℕ → ℕ → EStateM F S Unit
  fillLevel : S → ℕ
  size : S → ℕ

/-- A request. A deallocation names a live block by its place among them, the one allocated last
first. -/
inductive Request
  | allocate (bytes alignment : ℕ)
  | deallocate (place bytes alignment : ℕ)

/-- What the caller learns from a request. -/
structure Outcome where
  accepted : Bool
  fillLevel : ℕ
  size : ℕ
  deriving DecidableEq, Repr

/-- A resource in use, with the blocks handed out and not given back. -/
structure Session (S : Type) where
  pool : S
  live : List (BitVec 64)

namespace MemoryResource

variable {F S : Type} (R : MemoryResource F S)

/-- The outcome of a request, seen in the state after it. -/
def outcome (accepted : Bool) (s : S) : Outcome := ⟨accepted, R.fillLevel s, R.size s⟩

/-- The runs. A failed operation leaves the state as it leaves it. -/
inductive Run : List Request → List Outcome → Session S → Prop
  | init {s : S} (h : R.Init s) : Run [] [] ⟨s, []⟩
  | overwrite {requests outs s} {pool : S} (hs : Run requests outs s)
      (h : R.Overwrite s.live s.pool pool) : Run requests outs ⟨pool, s.live⟩
  | accepted {requests outs s bytes alignment p} {pool : S} (hs : Run requests outs s)
      (h : R.doAllocate bytes alignment s.pool = .ok p pool) :
      Run (requests ++ [.allocate bytes alignment]) (outs ++ [R.outcome true pool])
        ⟨pool, p :: s.live⟩
  | rejected {requests outs s bytes alignment f} {pool : S} (hs : Run requests outs s)
      (h : R.doAllocate bytes alignment s.pool = .error f pool) :
      Run (requests ++ [.allocate bytes alignment]) (outs ++ [R.outcome false pool])
        ⟨pool, s.live⟩
  | returned {requests outs s place bytes alignment p} {pool : S} (hs : Run requests outs s)
      (hp : s.live[place]? = some p)
      (h : R.doDeallocate p bytes alignment s.pool = .ok () pool) :
      Run (requests ++ [.deallocate place bytes alignment]) (outs ++ [R.outcome true pool])
        ⟨pool, s.live.eraseIdx place⟩
  | returnFails {requests outs s place bytes alignment p f} {pool : S} (hs : Run requests outs s)
      (hp : s.live[place]? = some p)
      (h : R.doDeallocate p bytes alignment s.pool = .error f pool) :
      Run (requests ++ [.deallocate place bytes alignment]) (outs ++ [R.outcome false pool])
        ⟨pool, s.live.eraseIdx place⟩

/-- **The specification** of a resource with `n` blocks that takes requests of up to `limit`
bytes, with an invariant that carries it. -/
structure HandsOut (n limit : ℕ) (Inv : S → List (BitVec 64) → Prop) : Prop where
  init {s : S} (h : R.Init s) : Inv s []
  overwrite {s s' : S} {live : List (BitVec 64)} (hs : Inv s live)
    (h : R.Overwrite live s s') : Inv s' live
  nodup {s : S} {live : List (BitVec 64)} (hs : Inv s live) : live.Nodup
  fillLevel {s : S} {live : List (BitVec 64)} (hs : Inv s live) :
    R.fillLevel s + live.length = n
  size {s : S} {live : List (BitVec 64)} (hs : Inv s live) : R.size s = n
  accept {s : S} {live : List (BitVec 64)} {bytes : ℕ} (hs : Inv s live) (hbytes : bytes ≤ limit)
    (hfree : live.length < n) (alignment : ℕ) :
    ∃ p s', R.doAllocate bytes alignment s = .ok p s' ∧ p ∉ live ∧ Inv s' (p :: live)
  reject {s : S} {live : List (BitVec 64)} {bytes : ℕ} (hs : Inv s live)
    (h : limit < bytes ∨ live.length = n) (alignment : ℕ) :
    ∃ f, R.doAllocate bytes alignment s = .error f s
  giveBack {s : S} {live : List (BitVec 64)} {p : BitVec 64} (hs : Inv s live) (hp : p ∈ live)
    (bytes alignment : ℕ) :
    ∃ s', R.doDeallocate p bytes alignment s = .ok () s' ∧ Inv s' (live.erase p)

end MemoryResource

/-! ### The abstract resource -/

/-- The number of live blocks and the outcomes so far. -/
structure Ledger where
  live : ℕ
  outs : List Outcome

/-- Serve a request. -/
def Ledger.serve (n limit : ℕ) (l : Ledger) : Request → Ledger
  | .allocate bytes _ =>
    if bytes ≤ limit ∧ l.live < n then
      ⟨l.live + 1, l.outs ++ [⟨true, n - (l.live + 1), n⟩]⟩
    else ⟨l.live, l.outs ++ [⟨false, n - l.live, n⟩]⟩
  | .deallocate _ _ _ => ⟨l.live - 1, l.outs ++ [⟨true, n - (l.live - 1), n⟩]⟩

/-- The ledger after a list of requests. -/
def ledger (n limit : ℕ) (requests : List Request) : Ledger :=
  requests.foldl (Ledger.serve n limit) ⟨0, []⟩

theorem ledger_concat (n limit : ℕ) (requests : List Request) (r : Request) :
    ledger n limit (requests ++ [r]) = (ledger n limit requests).serve n limit r :=
  List.foldl_concat ..

namespace MemoryResource.HandsOut

variable {F S : Type} {R : MemoryResource F S} {n limit : ℕ} {Inv : S → List (BitVec 64) → Prop}
  {requests : List Request} {outs : List Outcome} {s : Session S}

/-- A resource that hands out blocks serves a request as the ledger does. -/
theorem outcome_eq (hR : R.HandsOut n limit Inv) {pool : S} {live : List (BitVec 64)}
    (h : Inv pool live) (accepted : Bool) :
    R.outcome accepted pool = ⟨accepted, n - live.length, n⟩ := by
  have hfill := hR.fillLevel h
  rw [outcome, hR.size h]
  congr 1
  omega

/-- What an accepted allocation says. -/
theorem of_accepted (hR : R.HandsOut n limit Inv) {pool pool' : S} {live : List (BitVec 64)}
    (h : Inv pool live) {bytes alignment : ℕ} {p : BitVec 64}
    (hcall : R.doAllocate bytes alignment pool = .ok p pool') :
    (bytes ≤ limit ∧ live.length < n) ∧ p ∉ live ∧ Inv pool' (p :: live) := by
  by_cases haccept : bytes ≤ limit ∧ live.length < n
  · obtain ⟨p', pool₁, hcall', hp, hinv⟩ := hR.accept h haccept.1 haccept.2 alignment
    obtain ⟨rfl, rfl⟩ := EStateM.Result.ok.inj (hcall.symm.trans hcall')
    exact ⟨haccept, hp, hinv⟩
  · have hfill := hR.fillLevel h
    have hreject : limit < bytes ∨ live.length = n := by omega
    obtain ⟨f, hcall'⟩ := hR.reject h hreject alignment
    exact nomatch hcall.symm.trans hcall'

/-- What a rejected allocation says. -/
theorem of_rejected (hR : R.HandsOut n limit Inv) {pool pool' : S} {live : List (BitVec 64)}
    (h : Inv pool live) {bytes alignment : ℕ} {f : F}
    (hcall : R.doAllocate bytes alignment pool = .error f pool') :
    ¬ (bytes ≤ limit ∧ live.length < n) ∧ pool' = pool := by
  have hreject : ¬ (bytes ≤ limit ∧ live.length < n) := by
    rintro ⟨hbytes, hfree⟩
    obtain ⟨p, pool₁, hcall', -⟩ := hR.accept h hbytes hfree alignment
    exact nomatch hcall.symm.trans hcall'
  have hfill := hR.fillLevel h
  obtain ⟨f', hcall'⟩ := hR.reject h (by omega : limit < bytes ∨ live.length = n) alignment
  exact ⟨hreject, (EStateM.Result.error.inj (hcall.symm.trans hcall')).2⟩

/-- Giving back the block at a place. -/
theorem giveBack_place (hR : R.HandsOut n limit Inv) {pool : S} {live : List (BitVec 64)}
    (h : Inv pool live) {place : ℕ} {p : BitVec 64} (hp : live[place]? = some p)
    (bytes alignment : ℕ) :
    (live.eraseIdx place).length = live.length - 1 ∧
      ∃ pool', R.doDeallocate p bytes alignment pool = .ok () pool' ∧
        Inv pool' (live.eraseIdx place) := by
  obtain ⟨hplace, rfl⟩ := List.getElem?_eq_some_iff.mp hp
  obtain ⟨pool', hcall, hinv⟩ := hR.giveBack h (List.getElem_mem hplace) bytes alignment
  refine ⟨List.length_eraseIdx_of_lt hplace, pool', hcall, ?_⟩
  rwa [(hR.nodup h).erase_getElem place hplace] at hinv

/-- **Every run follows the ledger**, and keeps the invariant. -/
theorem run (hR : R.HandsOut n limit Inv) (h : R.Run requests outs s) :
    Inv s.pool s.live ∧ ledger n limit requests = ⟨s.live.length, outs⟩ := by
  induction h with
  | init h => exact ⟨hR.init h, rfl⟩
  | overwrite _ h ih => exact ⟨hR.overwrite ih.1 h, ih.2⟩
  | accepted _ hcall ih =>
    obtain ⟨haccept, -, hinv⟩ := hR.of_accepted ih.1 hcall
    refine ⟨hinv, ?_⟩
    rw [ledger_concat, ih.2, Ledger.serve, if_pos haccept, hR.outcome_eq hinv]
    rfl
  | rejected _ hcall ih =>
    obtain ⟨hreject, rfl⟩ := hR.of_rejected ih.1 hcall
    refine ⟨ih.1, ?_⟩
    rw [ledger_concat, ih.2, Ledger.serve, if_neg hreject, hR.outcome_eq ih.1]
  | returned _ hp hcall ih =>
    obtain ⟨hlen, pool', hcall', hinv⟩ := hR.giveBack_place ih.1 hp _ _
    obtain ⟨-, rfl⟩ := EStateM.Result.ok.inj (hcall.symm.trans hcall')
    refine ⟨hinv, ?_⟩
    rw [ledger_concat, ih.2, Ledger.serve, hR.outcome_eq hinv, hlen]
  | returnFails _ hp hcall ih =>
    obtain ⟨-, pool', hcall', -⟩ := hR.giveBack_place ih.1 hp _ _
    exact nomatch hcall.symm.trans hcall'

/-- An accepted allocation returns a block that is not live, and the fill level is the number
of blocks less that of the live ones. -/
theorem fresh (hR : R.HandsOut n limit Inv) (h : R.Run requests outs s) :
    R.fillLevel s.pool = n - s.live.length ∧
      ∀ bytes alignment p pool, R.doAllocate bytes alignment s.pool = .ok p pool → p ∉ s.live := by
  have hinv := (hR.run h).1
  have hfill := hR.fillLevel hinv
  exact ⟨by omega, fun bytes alignment p pool hcall => (hR.of_accepted hinv hcall).2.1⟩

section Compare

variable {F' S' : Type} {R' : MemoryResource F' S'} {Inv' : S' → List (BitVec 64) → Prop}
  {outs' : List Outcome} {s' : Session S'}

/-- **Resources with the same blocks cannot be told apart**: they give the same outcomes. -/
theorem outcomes_eq (hR : R.HandsOut n limit Inv) (hR' : R'.HandsOut n limit Inv')
    (h : R.Run requests outs s) (h' : R'.Run requests outs' s') :
    outs = outs' ∧ s.live.length = s'.live.length := by
  have heq := (hR.run h).2.symm.trans (hR'.run h').2
  exact ⟨congrArg Ledger.outs heq, congrArg Ledger.live heq⟩

/-- Requests that one resource can be given can be given to the other. -/
theorem exists_run (hR : R.HandsOut n limit Inv) (hR' : R'.HandsOut n limit Inv')
    (hinit : ∃ s', R'.Init s') (h : R.Run requests outs s) : ∃ s', R'.Run requests outs s' := by
  suffices hsome : ∃ outs' s', R'.Run requests outs' s' by
    obtain ⟨outs', s', h'⟩ := hsome
    obtain ⟨rfl, -⟩ := hR.outcomes_eq hR' h h'
    exact ⟨s', h'⟩
  induction h with
  | init _ =>
    obtain ⟨s', hs'⟩ := hinit
    exact ⟨[], ⟨s', []⟩, .init hs'⟩
  | overwrite _ _ ih => exact ih
  | @accepted _ _ _ bytes alignment _ _ _ _ ih =>
    obtain ⟨outs', s', h'⟩ := ih
    cases hcall : R'.doAllocate bytes alignment s'.pool with
    | ok p pool' => exact ⟨_, _, .accepted h' hcall⟩
    | error f pool' => exact ⟨_, _, .rejected h' hcall⟩
  | @rejected _ _ _ bytes alignment _ _ _ _ ih =>
    obtain ⟨outs', s', h'⟩ := ih
    cases hcall : R'.doAllocate bytes alignment s'.pool with
    | ok p pool' => exact ⟨_, _, .accepted h' hcall⟩
    | error f pool' => exact ⟨_, _, .rejected h' hcall⟩
  | @returned _ _ _ place bytes alignment _ _ hs hp _ ih =>
    obtain ⟨outs', s', h'⟩ := ih
    -- the same place is taken in both
    obtain ⟨-, hlen⟩ := hR.outcomes_eq hR' hs h'
    obtain ⟨hplace, -⟩ := List.getElem?_eq_some_iff.mp hp
    have hp' := List.getElem?_eq_getElem (hlen ▸ hplace)
    obtain ⟨-, pool', hcall, -⟩ := hR'.giveBack_place (hR'.run h').1 hp' bytes alignment
    exact ⟨_, _, .returned h' hp' hcall⟩
  | returnFails hs hp hcall =>
    obtain ⟨-, pool', hcall', -⟩ := hR.giveBack_place (hR.run hs).1 hp _ _
    exact nomatch hcall.symm.trans hcall'

end Compare

end MemoryResource.HandsOut

end EventFramework.Pools
