import EventFramework.ForMathlib.PointerChain
import Mathlib.Data.Fintype.Card
import Mathlib.Data.Fintype.EquivFin
import Mathlib.Data.Finset.Lattice.Fold
import Mathlib.Logic.Relation
import Mathlib.Order.Lattice.Nat

/-!
# Finite forests given by parent links

A forest on a finite type is a partial function `parent : X → Option X` without cycles.
`ancestors parent x` lists the ancestors of `x` from `x` itself up to its root; it is
computed, and `mem_ancestors` identifies it with the reflexive transitive closure of the
parent link.

For two nodes `c` and `t`, `lca parent c t` is the least common ancestor-or-self and
`branch parent c t` the nodes from `c` up to but excluding it: those ancestors of `c` that
are not ancestors of `t`. `ancestors_eq_branch_append` splits the ancestor chain of `c`
there, and since the least common ancestor is symmetric (`lca_comm`) the same node also
splits the chain of `t`. For pointers, which may be null, `lca?_eq_some_iff` says that it is the
only common ancestor-or-self of which all others are ancestors.

`depth parent x` counts the nodes above `x`, and `height parent t` how far the subtree at `t`
goes down.
-/

namespace ParentForest

open PointerChain Relation

variable {X : Type*} (parent : X → Option X)

/-- `p` is `x` or an ancestor of `x`. -/
def Ancestor (p x : X) : Prop := ReflTransGen (fun y q => parent y = some q) x p

/-- `p` is an ancestor of `x`, reached by at least one parent link. -/
def ProperAncestor (p x : X) : Prop := TransGen (fun y q => parent y = some q) x p

/-- No node is its own proper ancestor. -/
def Acyclic : Prop := ∀ x, ¬ ProperAncestor parent x x

/-- `x` and its ancestors, from `x` up to the root. -/
def ancestors [Fintype X] (x : X) : List X := follow parent (Fintype.card X) (some x)

/-- The least node that is an ancestor-or-self of both arguments, when there is one. -/
def lca [Fintype X] [DecidableEq X] (c t : X) : Option X :=
  (ancestors parent c).find? (· ∈ ancestors parent t)

/-- The nodes from `c` up to but excluding the least common ancestor with `t`. -/
def branch [Fintype X] [DecidableEq X] (c t : X) : List X :=
  (ancestors parent c).filter (· ∉ ancestors parent t)

variable {parent} {c t p q x y z : X}

theorem ProperAncestor.ancestor (h : ProperAncestor parent p x) : Ancestor parent p x :=
  TransGen.to_reflTransGen h

/-- A forest in which some number drops along every parent link. -/
theorem acyclic_of_measure (height : X → ℕ)
    (h : ∀ x p, parent x = some p → height x < height p) : Acyclic parent := by
  have hlt : ∀ x p, ProperAncestor parent p x → height x < height p := by
    intro x p hp
    induction hp with
    | single hp => exact h _ _ hp
    | tail _ hq ih => exact ih.trans (h _ _ hq)
  exact fun x hx => (hlt x x hx).false

/-! ### Ancestor chains -/

section Chain

variable [Fintype X] (hac : Acyclic parent)

include hac

theorem Acyclic.wellFounded : WellFounded fun q y => parent y = some q := by
  have hirr : Std.Irrefl (ProperAncestor parent) := ⟨hac⟩
  have htr : IsTrans X (ProperAncestor parent) :=
    ⟨fun _ _ _ h₁ h₂ => TransGen.trans h₂ h₁⟩
  have hwf : WellFounded (ProperAncestor parent) := Finite.wellFounded_of_trans_of_irrefl _
  refine Subrelation.wf ?_ hwf
  intro q y hq
  exact TransGen.single hq

private theorem exists_seg (x : X) : ∃ l, Seg parent (some x) none l := by
  induction x using hac.wellFounded.induction with
  | _ x ih =>
    cases hx : parent x with
    | none => exact ⟨[x], .cons (by rw [hx]; exact .nil none)⟩
    | some p =>
      obtain ⟨l, hl⟩ := ih p hx
      exact ⟨x :: l, .cons (by rw [hx]; exact hl)⟩

/-- The listed ancestors are the parent chain up to null. -/
theorem ancestors_seg (x : X) : Seg parent (some x) none (ancestors parent x) := by
  obtain ⟨l, hl⟩ := exists_seg hac x
  rw [ancestors, follow_eq_of_seg hl _ hl.nodup.length_le_card]
  exact hl

theorem ancestors_nodup (x : X) : (ancestors parent x).Nodup := (ancestors_seg hac x).nodup

theorem ancestors_eq_cons (x : X) :
    ancestors parent x = x :: (parent x).elim [] (ancestors parent) := by
  refine (ancestors_seg hac x).unique (.cons ?_)
  cases hx : parent x with
  | none => exact .nil none
  | some p => exact ancestors_seg hac p

theorem ancestors_eq_singleton (hx : parent x = none) : ancestors parent x = [x] := by
  rw [ancestors_eq_cons hac, hx, Option.elim_none]

theorem ancestors_eq_cons_of_parent (hx : parent x = some p) :
    ancestors parent x = x :: ancestors parent p := by
  rw [ancestors_eq_cons hac, hx, Option.elim_some]

theorem self_mem_ancestors (x : X) : x ∈ ancestors parent x := by
  rw [ancestors_eq_cons hac]
  exact List.mem_cons_self

theorem mem_ancestors_of_parent (hx : parent x = some p) : p ∈ ancestors parent x := by
  rw [ancestors_eq_cons_of_parent hac hx]
  exact List.mem_cons_of_mem x (self_mem_ancestors hac p)

/-- From any of its nodes on, an ancestor chain is the chain of that node. -/
theorem ancestors_split (hy : y ∈ ancestors parent x) :
    ∃ u, ancestors parent x = u ++ ancestors parent y ∧ Seg parent (some x) (some y) u := by
  obtain ⟨u, v, huv⟩ := List.append_of_mem hy
  have hseg := ancestors_seg hac x
  rw [huv] at hseg
  refine ⟨u, ?_, hseg.split.1⟩
  rw [huv, hseg.split.2.unique (ancestors_seg hac y)]

theorem ancestors_trans (hy : y ∈ ancestors parent x) (hz : z ∈ ancestors parent y) :
    z ∈ ancestors parent x := by
  obtain ⟨u, hu, -⟩ := ancestors_split hac hy
  rw [hu]
  exact List.mem_append_right u hz

theorem ancestors_antisymm (hy : y ∈ ancestors parent x) (hx : x ∈ ancestors parent y) :
    x = y := by
  obtain ⟨u, hu, hxy⟩ := ancestors_split hac hy
  obtain ⟨v, hv, -⟩ := ancestors_split hac hx
  have hlen := congrArg List.length hu
  rw [hv, List.length_append, List.length_append] at hlen
  have hnil : u = [] := List.eq_nil_of_length_eq_zero (by omega)
  rw [hnil, Seg.nil_iff] at hxy
  exact Option.some.inj hxy

/-- Two ancestors of one node are comparable. -/
theorem ancestors_total (hy : y ∈ ancestors parent x) (hz : z ∈ ancestors parent x) :
    z ∈ ancestors parent y ∨ y ∈ ancestors parent z := by
  obtain ⟨u, hu, -⟩ := ancestors_split hac hy
  rw [hu, List.mem_append] at hz
  refine hz.symm.imp_right fun hzu => ?_
  obtain ⟨v, w, rfl⟩ := List.append_of_mem hzu
  have hseg := ancestors_seg hac x
  rw [hu, List.append_assoc, List.cons_append] at hseg
  rw [← hseg.split.2.unique (ancestors_seg hac z)]
  exact List.mem_cons_of_mem z (List.mem_append_right w (self_mem_ancestors hac y))

/-- The listed ancestors are the nodes reached by parent links. -/
theorem mem_ancestors : p ∈ ancestors parent x ↔ Ancestor parent p x := by
  constructor
  · intro hp
    induction x using hac.wellFounded.induction with
    | _ x ih =>
      rw [ancestors_eq_cons hac, List.mem_cons] at hp
      rcases hp with rfl | hp
      · exact ReflTransGen.refl
      · cases hx : parent x with
        | none => simp [hx] at hp
        | some y => exact ReflTransGen.head hx (ih y hx (by simpa [hx] using hp))
  · intro hp
    induction hp with
    | refl => exact self_mem_ancestors hac x
    | tail _ hyz ih => exact ancestors_trans hac ih (mem_ancestors_of_parent hac hyz)

theorem properAncestor_iff : ProperAncestor parent p x ↔ p ∈ ancestors parent x ∧ p ≠ x := by
  rw [mem_ancestors hac]
  constructor
  · intro h
    refine ⟨h.ancestor, ?_⟩
    rintro rfl
    exact hac p h
  · rintro ⟨h, hne⟩
    rcases Relation.reflTransGen_iff_eq_or_transGen.mp h with heq | h
    · exact absurd heq hne
    · exact h

/-- A node lies above itself in no chain of its parent. -/
theorem not_mem_ancestors_of_parent (hx : parent x = some p) : x ∉ ancestors parent p := by
  have hnd := ancestors_nodup hac x
  rw [ancestors_eq_cons_of_parent hac hx] at hnd
  exact (List.nodup_cons.mp hnd).1

end Chain

/-! ### The least common ancestor -/

section Lca

variable [Fintype X] [DecidableEq X] (hac : Acyclic parent)

theorem mem_branch : x ∈ branch parent c t ↔ x ∈ ancestors parent c ∧ x ∉ ancestors parent t := by
  simp [branch]

theorem lca_mem (h : lca parent c t = some q) :
    q ∈ ancestors parent c ∧ q ∈ ancestors parent t :=
  ⟨List.mem_of_find?_eq_some h, by simpa using List.find?_some h⟩

theorem lca_eq_none_iff :
    lca parent c t = none ↔ ∀ x, x ∈ ancestors parent c → x ∉ ancestors parent t := by
  simp [lca]

include hac

private theorem branch_of_lca (h : lca parent c t = some q) :
    ancestors parent c = branch parent c t ++ ancestors parent q ∧
      Seg parent (some c) (some q) (branch parent c t) := by
  obtain ⟨-, u, v, huv, hu⟩ := List.find?_eq_some_iff_append.mp h
  have hseg := ancestors_seg hac c
  rw [huv] at hseg
  have hqv : q :: v = ancestors parent q := hseg.split.2.unique (ancestors_seg hac q)
  have hbr : branch parent c t = u := by
    rw [branch, huv, hqv, List.filter_append, List.filter_eq_self.mpr (by simpa using hu),
      List.filter_eq_nil_iff.mpr, List.append_nil]
    intro x hx
    simpa using ancestors_trans hac (lca_mem h).2 hx
  rw [hbr]
  exact ⟨by rw [huv, hqv], hseg.split.1⟩

/-- **The ancestor chain splits at the least common ancestor.** -/
theorem ancestors_eq_branch_append (c t : X) :
    ancestors parent c = branch parent c t ++ (lca parent c t).elim [] (ancestors parent) := by
  cases h : lca parent c t with
  | none =>
    rw [Option.elim_none, List.append_nil, branch, List.filter_eq_self.mpr]
    simpa using lca_eq_none_iff.mp h
  | some q => exact (branch_of_lca hac h).1

theorem branch_seg (c t : X) : Seg parent (some c) (lca parent c t) (branch parent c t) := by
  cases h : lca parent c t with
  | none =>
    have hall := ancestors_eq_branch_append hac c t
    rw [h, Option.elim_none, List.append_nil] at hall
    rw [← hall]
    exact ancestors_seg hac c
  | some q => exact (branch_of_lca hac h).2

/-- Every common ancestor is an ancestor-or-self of the least one. -/
theorem mem_ancestors_lca (h : lca parent c t = some q) (hc : x ∈ ancestors parent c)
    (ht : x ∈ ancestors parent t) : x ∈ ancestors parent q := by
  rw [(branch_of_lca hac h).1, List.mem_append, mem_branch] at hc
  exact hc.resolve_left fun hb => hb.2 ht

theorem lca_comm (c t : X) : lca parent c t = lca parent t c := by
  cases h : lca parent c t with
  | none =>
    rw [eq_comm, lca_eq_none_iff]
    exact fun x ht hc => lca_eq_none_iff.mp h x hc ht
  | some q =>
    cases h' : lca parent t c with
    | none => exact absurd (lca_mem h).1 (lca_eq_none_iff.mp h' q (lca_mem h).2)
    | some q' =>
      have hq : q ∈ ancestors parent q' := mem_ancestors_lca hac h' (lca_mem h).2 (lca_mem h).1
      have hq' : q' ∈ ancestors parent q := mem_ancestors_lca hac h (lca_mem h').2 (lca_mem h').1
      rw [ancestors_antisymm hac hq hq']

theorem lca_eq_right (h : t ∈ ancestors parent c) : lca parent c t = some t := by
  cases hq : lca parent c t with
  | none => exact absurd (self_mem_ancestors hac t) (lca_eq_none_iff.mp hq t h)
  | some q =>
    have ht : t ∈ ancestors parent q :=
      mem_ancestors_lca hac hq h (self_mem_ancestors hac t)
    rw [ancestors_antisymm hac ht (lca_mem hq).2]

theorem branch_eq_nil (h : c ∈ ancestors parent t) : branch parent c t = [] := by
  rw [branch, List.filter_eq_nil_iff]
  intro x hx
  simpa using ancestors_trans hac h hx

theorem lca_eq_left (h : c ∈ ancestors parent t) : lca parent c t = some c := by
  rw [lca_comm hac, lca_eq_right hac h]

theorem lca_eq_left_iff : lca parent c t = some c ↔ c ∈ ancestors parent t :=
  ⟨fun h => (lca_mem h).2, lca_eq_left hac⟩

end Lca

/-! ### Common ancestors of two pointers -/

section Pointers

variable (parent) in
/-- `p` is an ancestor-or-self of the two nodes that the pointers lead to. -/
def CommonAncestor (a b : Option X) (p : X) : Prop :=
  (∃ x, a = some x ∧ Ancestor parent p x) ∧ ∃ y, b = some y ∧ Ancestor parent p y

variable (parent) in
/-- The common ancestor-or-self of which every other one is an ancestor. -/
structure IsLeastCommonAncestor (a b : Option X) (q : X) : Prop where
  common : CommonAncestor parent a b q
  least : ∀ p, CommonAncestor parent a b p → p ≠ q → ProperAncestor parent p q

variable (parent) in
/-- The least common ancestor for two pointers, either of which may be null. -/
def lca? [Fintype X] [DecidableEq X] (a b : Option X) : Option X :=
  a.bind fun c => b.bind fun t => lca parent c t

variable {a b : Option X}

theorem CommonAncestor.ne_none_left : ¬ CommonAncestor parent none b p := by
  rintro ⟨⟨x, hx, -⟩, -⟩
  exact nomatch hx

theorem CommonAncestor.ne_none_right : ¬ CommonAncestor parent a none p := by
  rintro ⟨-, y, hy, -⟩
  exact nomatch hy

theorem commonAncestor_some_iff [Fintype X] (hac : Acyclic parent) :
    CommonAncestor parent (some c) (some t) p ↔
      p ∈ ancestors parent c ∧ p ∈ ancestors parent t := by
  rw [mem_ancestors hac, mem_ancestors hac]
  constructor
  · rintro ⟨⟨x, hx, hpx⟩, y, hy, hpy⟩
    obtain rfl := Option.some.inj hx
    obtain rfl := Option.some.inj hy
    exact ⟨hpx, hpy⟩
  · rintro ⟨hc, ht⟩
    exact ⟨⟨c, rfl, hc⟩, t, rfl, ht⟩

variable [Fintype X] [DecidableEq X]

@[simp]
theorem lca?_some (c t : X) : lca? parent (some c) (some t) = lca parent c t := rfl

@[simp]
theorem lca?_none_left (b : Option X) : lca? parent none b = none := rfl

@[simp]
theorem lca?_none_right (a : Option X) : lca? parent a none = none := by
  cases a <;> rfl

variable (hac : Acyclic parent)

include hac

theorem lca?_comm (a b : Option X) : lca? parent a b = lca? parent b a := by
  cases a with
  | none => rw [lca?_none_left, lca?_none_right]
  | some c =>
    cases b with
    | none => rw [lca?_none_left, lca?_none_right]
    | some t => exact lca_comm hac c t

theorem lca?_eq_none_iff : lca? parent a b = none ↔ ∀ p, ¬ CommonAncestor parent a b p := by
  cases a with
  | none => exact iff_of_true rfl fun p => CommonAncestor.ne_none_left
  | some c =>
    cases b with
    | none => exact iff_of_true rfl fun p => CommonAncestor.ne_none_right
    | some t =>
      rw [lca?_some, lca_eq_none_iff]
      exact forall_congr' fun p => by rw [commonAncestor_some_iff hac, not_and]

/-- **The least common ancestor** is the only common ancestor-or-self below all others. -/
theorem lca?_eq_some_iff : lca? parent a b = some q ↔ IsLeastCommonAncestor parent a b q := by
  cases a with
  | none => exact iff_of_false (fun h => nomatch h) fun h => CommonAncestor.ne_none_left h.common
  | some c =>
    cases b with
    | none => exact iff_of_false (fun h => nomatch h) fun h => CommonAncestor.ne_none_right h.common
    | some t =>
      rw [lca?_some]
      constructor
      · intro h
        refine ⟨(commonAncestor_some_iff hac).mpr (lca_mem h), fun p hp hne => ?_⟩
        obtain ⟨hc, ht⟩ := (commonAncestor_some_iff hac).mp hp
        exact (properAncestor_iff hac).mpr ⟨mem_ancestors_lca hac h hc ht, hne⟩
      · intro h
        obtain ⟨hqc, hqt⟩ := (commonAncestor_some_iff hac).mp h.common
        cases hlca : lca parent c t with
        | none => exact absurd hqt (lca_eq_none_iff.mp hlca q hqc)
        | some r =>
          -- each of the two is above the other
          have hqr : q ∈ ancestors parent r := mem_ancestors_lca hac hlca hqc hqt
          by_contra hne
          have hrq : ProperAncestor parent r q :=
            h.least r ((commonAncestor_some_iff hac).mpr (lca_mem hlca))
              fun heq => hne (congrArg some heq)
          have hrq' : r ∈ ancestors parent q := ((properAncestor_iff hac).mp hrq).1
          exact hne (congrArg some (ancestors_antisymm hac hqr hrq'))

end Pointers

/-! ### Depth and height -/

/-- The number of nodes from `x` up to its root. -/
def depth (parent : X → Option X) [Fintype X] (x : X) : ℕ := (ancestors parent x).length

/-- The height of the subtree at `t`: how many links the deepest node in it is below `t`. -/
def height (parent : X → Option X) [Fintype X] [DecidableEq X] (t : X) : ℕ :=
  ({x | t ∈ ancestors parent x} : Finset X).sup fun x => depth parent x - depth parent t

section Depth

variable [Fintype X]

theorem depth_le_add_height [DecidableEq X] (h : t ∈ ancestors parent x) :
    depth parent x ≤ depth parent t + height parent t := by
  have hle : depth parent x - depth parent t ≤ height parent t :=
    Finset.le_sup (f := fun x => depth parent x - depth parent t) (by simpa using h)
  omega

variable (hac : Acyclic parent)

include hac

theorem depth_le_card (x : X) : depth parent x ≤ Fintype.card X :=
  (ancestors_nodup hac x).length_le_card

/-- Going down increases the depth. -/
theorem depth_lt_of_properAncestor (h : ProperAncestor parent p x) :
    depth parent p < depth parent x := by
  obtain ⟨hp, hne⟩ := (properAncestor_iff hac).mp h
  obtain ⟨u, hu, hseg⟩ := ancestors_split hac hp
  cases u with
  | nil => exact absurd (Option.some.inj (Seg.nil_iff.mp hseg)).symm hne
  | cons y u =>
    rw [depth, depth, hu, List.length_append, List.length_cons]
    omega

end Depth

end ParentForest
