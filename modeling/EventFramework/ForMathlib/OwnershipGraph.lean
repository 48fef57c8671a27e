import Mathlib.Data.Finset.Card
import Mathlib.Logic.Relation

/-!
# Reference counting on a graph

Reference-counted nodes own each other, and some are held from outside. A node that nobody owns
is destroyed, and owns nothing from then on. What is destroyed in the end does not depend on the
order: the nodes that are `Freed`, which are not held and are owned by such nodes only
(`mem_live_of_settled`). Nodes on a cycle are not among them (`not_freed_of_cycle`).
-/

namespace OwnershipGraph

open Relation

/-- The live nodes, and who owns them. -/
structure Graph (N : Type*) where
  live : Finset N
  /-- from outside -/
  held : N → Prop
  owns : N → N → Prop

namespace Graph

variable {N : Type*} [DecidableEq N] {g g' : Graph N} {m n : N}

/-- A node goes. -/
def destroy (n : N) (g : Graph N) : Graph N where
  live := g.live.erase n
  held := g.held
  owns m k := m ≠ n ∧ g.owns m k

/-- Nobody owns the node. -/
structure Unowned (g : Graph N) (n : N) : Prop where
  held : ¬ g.held n
  owns (m : N) : ¬ g.owns m n

/-- A node that nobody owns is destroyed. -/
inductive Destroy : Graph N → Graph N → Prop
  | destroy {g : Graph N} {n : N} (hn : n ∈ g.live) (h : g.Unowned n) : Destroy g (g.destroy n)

/-- No node is left to destroy. -/
def Settled (g : Graph N) : Prop := ∀ n ∈ g.live, ¬ g.Unowned n

/-- Nodes that go sooner or later. -/
inductive Freed (g : Graph N) : N → Prop
  | intro {n : N} (hheld : ¬ g.held n) (howns : ∀ m, g.owns m n → Freed g m) : Freed g n

/-- Owners are live. -/
def OwnersLive (g : Graph N) : Prop := ∀ m n, g.owns m n → m ∈ g.live

omit [DecidableEq N] in
theorem Unowned.freed (h : g.Unowned n) : g.Freed n :=
  ⟨h.held, fun m hm => absurd hm (h.owns m)⟩

omit [DecidableEq N] in
theorem Freed.acc (h : g.Freed n) : Acc g.owns n := by
  induction h with
  | intro _ _ ih => exact ⟨_, ih⟩

omit [DecidableEq N] in
/-- **A cycle keeps itself alive.** -/
theorem not_freed_of_cycle (h : TransGen g.owns n n) : ¬ g.Freed n := by
  intro hfreed
  have hacc : Acc (TransGen g.owns) n := hfreed.acc.transGen
  clear hfreed
  induction hacc with
  | intro n _ ih => exact ih n h h

theorem Destroy.live_subset (h : Destroy g g') : g'.live ⊆ g.live := by
  obtain ⟨hn, -⟩ := h
  exact Finset.erase_subset _ _

theorem Destroy.ownersLive (hg : g.OwnersLive) (h : Destroy g g') : g'.OwnersLive := by
  obtain ⟨hn, -⟩ := h
  rintro m k ⟨hne, howns⟩
  exact Finset.mem_erase.mpr ⟨hne, hg m k howns⟩

/-- **One step.** The same nodes go sooner or later as before. -/
theorem Destroy.freed_iff (h : Destroy g g') : g'.Freed m ↔ g.Freed m := by
  obtain @⟨n, hn, hunowned⟩ := h
  constructor
  · intro hfreed
    induction hfreed with
    | intro hheld _ ih =>
      refine ⟨hheld, fun k hk => ?_⟩
      obtain rfl | hne := eq_or_ne k n
      · exact hunowned.freed
      · exact ih k ⟨hne, hk⟩
  · intro hfreed
    induction hfreed with
    | intro hheld _ ih => exact ⟨hheld, fun k hk => ih k hk.2⟩

theorem Destroy.mem_live_iff (h : Destroy g g') (hm : ¬ g.Freed m) :
    m ∈ g'.live ↔ m ∈ g.live := by
  obtain ⟨hn, hunowned⟩ := h
  refine ⟨Finset.mem_of_mem_erase, fun hmem => Finset.mem_erase.mpr ⟨?_, hmem⟩⟩
  rintro rfl
  exact hm hunowned.freed

/-- Nodes that cannot be freed stay, whatever is destroyed. -/
theorem mem_live_of_not_freed (h : ReflTransGen Destroy g g') (hn : ¬ g.Freed n) :
    n ∈ g'.live ↔ n ∈ g.live := by
  induction h using ReflTransGen.head_induction_on with
  | refl => rfl
  | head hstep _ ih => exact (ih (hstep.freed_iff.not.mpr hn)).trans (hstep.mem_live_iff hn)

omit [DecidableEq N] in
theorem Settled.not_freed (h : g.Settled) (hg : g.OwnersLive) (hn : n ∈ g.live) :
    ¬ g.Freed n := by
  intro hfreed
  induction hfreed with
  | intro hheld _ ih =>
    exact h _ hn ⟨hheld, fun m hm => ih m hm (hg m _ hm)⟩

/-- **The order does not matter.** When no node is left to destroy, those that can be freed are
gone, and no others. -/
theorem mem_live_of_settled (hg : g.OwnersLive) (h : ReflTransGen Destroy g g')
    (hsettled : g'.Settled) : n ∈ g'.live ↔ n ∈ g.live ∧ ¬ g.Freed n := by
  have hrun : g'.OwnersLive ∧ (g'.Freed n ↔ g.Freed n) ∧ g'.live ⊆ g.live := by
    clear hsettled
    induction h with
    | refl => exact ⟨hg, Iff.rfl, Finset.Subset.refl _⟩
    | tail _ hstep ih =>
      exact ⟨hstep.ownersLive ih.1, hstep.freed_iff.trans ih.2.1,
        hstep.live_subset.trans ih.2.2⟩
  obtain ⟨hg', hfreed, hsubset⟩ := hrun
  constructor
  · intro hn
    exact ⟨hsubset hn, hfreed.not.mp (hsettled.not_freed hg' hn)⟩
  · rintro ⟨hn, hnot⟩
    exact (mem_live_of_not_freed h hnot).mpr hn

/-- The destruction comes to an end. -/
theorem exists_settled (g : Graph N) : ∃ g', ReflTransGen Destroy g g' ∧ g'.Settled := by
  induction hcard : g.live.card generalizing g with
  | zero =>
    refine ⟨g, .refl, fun n hn => ?_⟩
    rw [Finset.card_eq_zero.mp hcard] at hn
    exact absurd hn (Finset.notMem_empty n)
  | succ k ih =>
    by_cases hsettled : g.Settled
    · exact ⟨g, .refl, hsettled⟩
    · obtain ⟨n, hn, hunowned⟩ : ∃ n ∈ g.live, g.Unowned n := by
        simpa [Settled] using hsettled
      have hless : (g.destroy n).live.card = k := by
        rw [destroy, Finset.card_erase_of_mem hn, hcard, Nat.add_sub_cancel]
      obtain ⟨g', hrun, hdone⟩ := ih (g.destroy n) hless
      exact ⟨g', .head (.destroy hn hunowned) hrun, hdone⟩

end Graph

end OwnershipGraph
