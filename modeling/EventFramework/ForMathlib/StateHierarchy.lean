import EventFramework.ForMathlib.ParentForest

/-!
# Hierarchical state charts, abstractly

A chart is a finite forest of states in which a state may name an initial state below it and
may be a history state. The abstract machine on a chart has a *current* state and a
*memory*, which holds for a history state the child it was last left through.

A move from `c` to `t` leaves the states of `exitPath c t`, enters those of `entryPath c t`,
outermost first, and then descends from `t`: `descent h t` follows the initial states, as
`resolve` picks them with the memory `h`, until there is none, and `landing h t` is where it
ends. On the way out the memory of every history state above a left state is updated
(`recordExits`).

Two conditions on initial states occur. In a `WellNested` chart they lie below their state at
any depth, which is enough for the descent to end. In a `WellFormed` chart they are immediate
children, and then a descent enters a gap-free path (`ancestors_landing`).
-/

namespace StateHierarchy

open PointerChain ParentForest

/-- States with parent links, initial states and history flags. -/
structure Chart (X : Type*) where
  parent : X → Option X
  initial : X → Option X
  hasHistory : X → Bool

namespace Chart

variable {X : Type*} (C : Chart X)

/-- Initial states lie below their state, at any depth. -/
structure WellNested : Prop where
  acyclic : Acyclic C.parent
  initial_below : ∀ x i, C.initial x = some i → ProperAncestor C.parent x i

/-- Initial states are immediate children. -/
structure WellFormed : Prop where
  acyclic : Acyclic C.parent
  initial_child : ∀ x i, C.initial x = some i → C.parent i = some x

/-- A memory holds children of history states. -/
def GoodMemory (h : X → Option X) : Prop :=
  ∀ k v, h k = some v → C.hasHistory k = true ∧ C.parent v = some k

/-- The state entered below `x`: the remembered child of a history state, else the initial
state. -/
def resolve (h : X → Option X) (x : X) : Option X :=
  if C.hasHistory x then
    match h x with
    | some i => some i
    | none => C.initial x
  else
    C.initial x

variable {C} {h : X → Option X} {c t x y k : X}

theorem WellFormed.wellNested (hC : C.WellFormed) : C.WellNested where
  acyclic := hC.acyclic
  initial_below x i hi := Relation.TransGen.single (hC.initial_child x i hi)

/-- Nothing lies between a state and its initial state. -/
theorem WellFormed.not_between (hC : C.WellFormed) {i z : X} (hi : C.initial x = some i)
    (hxz : ProperAncestor C.parent x z) : ¬ ProperAncestor C.parent z i := by
  intro hzi
  obtain ⟨p, hp, hzp⟩ := Relation.TransGen.head'_iff.mp hzi
  obtain rfl : p = x := Option.some.inj (hp.symm.trans (hC.initial_child x i hi))
  exact hC.acyclic p (hxz.trans_right hzp)

theorem goodMemory_empty : C.GoodMemory fun _ => none := fun _ _ hk => nomatch hk

theorem resolve_of_not_hasHistory (hx : C.hasHistory x = false) :
    C.resolve h x = C.initial x := by
  simp [resolve, hx]

theorem resolve_of_memory (hx : C.hasHistory x = true) (hy : h x = some y) :
    C.resolve h x = some y := by
  simp [resolve, hx, hy]

theorem resolve_of_memory_none (hx : h x = none) : C.resolve h x = C.initial x := by
  simp [resolve, hx]

/-- What `resolve` finds lies below. -/
theorem WellNested.resolve_below (hC : C.WellNested) (hh : C.GoodMemory h)
    (hy : C.resolve h x = some y) : ProperAncestor C.parent x y := by
  unfold resolve at hy
  split at hy
  · cases hx : h x with
    | none => exact hC.initial_below x y (by simpa [hx] using hy)
    | some i =>
      obtain rfl : i = y := by simpa [hx] using hy
      exact Relation.TransGen.single (hh x i hx).2
  · exact hC.initial_below x y hy

theorem WellFormed.resolve_child (hC : C.WellFormed) (hh : C.GoodMemory h)
    (hy : C.resolve h x = some y) : C.parent y = some x := by
  unfold resolve at hy
  split at hy
  · cases hx : h x with
    | none => exact hC.initial_child x y (by simpa [hx] using hy)
    | some i =>
      obtain rfl : i = y := by simpa [hx] using hy
      exact (hh x i hx).2
  · exact hC.initial_child x y hy

/-! ### The descent -/

section Descent

variable [Fintype X] (C)

/-- The states entered below `x`, outermost first. -/
def descent (h : X → Option X) (x : X) : List X :=
  follow (C.resolve h) (Fintype.card X) (C.resolve h x)

/-- Where the descent from `x` ends. -/
def landing (h : X → Option X) (x : X) : X := (C.descent h x).getLastD x

variable {C} (hC : C.WellNested) (hh : C.GoodMemory h)

include hC hh

/-- **The descent ends**, since the depth grows with every step. -/
theorem descent_seg (x : X) :
    Seg (C.resolve h) (C.resolve h x) none (C.descent h x) := by
  have hdepth : ∀ y z, C.resolve h y = some z → depth C.parent y < depth C.parent z :=
    fun y z hz => depth_lt_of_properAncestor hC.acyclic (hC.resolve_below hh hz)
  obtain ⟨l, hl⟩ := exists_seg_of_measure (depth C.parent) (Fintype.card X)
    (depth_le_card hC.acyclic) hdepth (C.resolve h x)
  rw [descent, follow_eq_of_seg hl _ hl.nodup.length_le_card]
  exact hl

theorem descent_eq_nil (hx : C.resolve h x = none) : C.descent h x = [] := by
  have hseg := descent_seg hC hh x
  rw [hx] at hseg
  exact hseg.eq_nil_of_none.1

theorem descent_eq_cons (hx : C.resolve h x = some y) :
    C.descent h x = y :: C.descent h y := by
  have hseg := descent_seg hC hh x
  refine hseg.unique ?_
  rw [hx]
  exact .cons (descent_seg hC hh y)

theorem landing_eq_self (hx : C.resolve h x = none) : C.landing h x = x := by
  rw [landing, descent_eq_nil hC hh hx, List.getLastD_nil]

theorem landing_eq_of_resolve (hx : C.resolve h x = some y) :
    C.landing h x = C.landing h y := by
  rw [landing, landing, descent_eq_cons hC hh hx, List.getLastD_cons]

/-- Induction along a descent. -/
theorem descent_induction {motive : X → Prop}
    (stop : ∀ x, C.resolve h x = none → motive x)
    (step : ∀ x y, C.resolve h x = some y → motive y → motive x) (x : X) : motive x := by
  have key : ∀ l x, C.descent h x = l → motive x := by
    intro l
    induction l with
    | nil =>
      intro x hl
      refine stop x ?_
      have hseg := descent_seg hC hh x
      rwa [hl, Seg.nil_iff] at hseg
    | cons y l ih =>
      intro x hl
      have hx : C.resolve h x = some y := by
        have hseg := descent_seg hC hh x
        rw [hl] at hseg
        exact (Seg.cons_iff.mp hseg).1
      refine step x y hx (ih y ?_)
      rw [descent_eq_cons hC hh hx] at hl
      exact (List.cons.inj hl).2
  exact key _ x rfl

/-- The descent ends in a state with nothing to enter below it. -/
theorem resolve_landing (x : X) : C.resolve h (C.landing h x) = none := by
  induction x using descent_induction hC hh with
  | stop x hx => rw [landing_eq_self hC hh hx, hx]
  | step x y hx ih => rw [landing_eq_of_resolve hC hh hx, ih]

/-- The descent stays above the state where it ends. -/
theorem mem_ancestors_landing (x : X) : x ∈ ancestors C.parent (C.landing h x) := by
  induction x using descent_induction hC hh with
  | stop x hx =>
    rw [landing_eq_self hC hh hx]
    exact self_mem_ancestors hC.acyclic x
  | step x y hx ih =>
    rw [landing_eq_of_resolve hC hh hx]
    have hy : x ∈ ancestors C.parent y :=
      ((properAncestor_iff hC.acyclic).mp (hC.resolve_below hh hx)).1
    exact ancestors_trans hC.acyclic ih hy

theorem descent_subset_ancestors (hy : y ∈ C.descent h x) :
    y ∈ ancestors C.parent (C.landing h x) := by
  induction x using descent_induction hC hh with
  | stop x hx => simp [descent_eq_nil hC hh hx] at hy
  | step x z hx ih =>
    rw [landing_eq_of_resolve hC hh hx]
    rw [descent_eq_cons hC hh hx, List.mem_cons] at hy
    rcases hy with rfl | hy
    · exact mem_ancestors_landing hC hh y
    · exact ih hy

/-- A descent stays strictly below its start. -/
theorem properAncestor_of_mem_descent (hy : y ∈ C.descent h x) :
    ProperAncestor C.parent x y := by
  induction x using descent_induction hC hh with
  | stop x hx => simp [descent_eq_nil hC hh hx] at hy
  | step x z hx ih =>
    have hxz := hC.resolve_below hh hx
    rw [descent_eq_cons hC hh hx, List.mem_cons] at hy
    rcases hy with rfl | hy
    · exact hxz
    · exact (ih hy).trans hxz

theorem not_mem_ancestors_of_mem_descent (hy : y ∈ C.descent h x) :
    y ∉ ancestors C.parent x := by
  intro hyx
  obtain ⟨hxy, hne⟩ :=
    (properAncestor_iff hC.acyclic).mp (properAncestor_of_mem_descent hC hh hy)
  exact hne (ancestors_antisymm hC.acyclic hxy hyx).symm

theorem descent_nodup (x : X) : (C.descent h x).Nodup := (descent_seg hC hh x).nodup

end Descent

/-- **No gaps.** With immediate initial children, the ancestors of the state where a descent
ends are the states of the descent and the ancestors of its start. -/
theorem ancestors_landing [Fintype X] (hC : C.WellFormed) (hh : C.GoodMemory h) (x : X) :
    ancestors C.parent (C.landing h x) = (C.descent h x).reverse ++ ancestors C.parent x := by
  induction x using descent_induction hC.wellNested hh with
  | stop x hx =>
    rw [landing_eq_self hC.wellNested hh hx, descent_eq_nil hC.wellNested hh hx,
      List.reverse_nil, List.nil_append]
  | step x y hx ih =>
    rw [landing_eq_of_resolve hC.wellNested hh hx, ih, descent_eq_cons hC.wellNested hh hx,
      ancestors_eq_cons_of_parent hC.acyclic (hC.resolve_child hh hx)]
    simp

/-! ### The gaps of a descent -/

section Gaps

variable [Fintype X] (hC : C.WellNested) (hh : C.GoodMemory h)

include hC hh

/-- What a descent and the ancestors of its start leave out of the path to its end. -/
theorem descent_sublist (x : X) :
    List.Sublist ((ancestors C.parent x).reverse ++ C.descent h x)
      (ancestors C.parent (C.landing h x)).reverse := by
  have hac : Acyclic C.parent := hC.acyclic
  induction x using descent_induction hC hh with
  | stop x hx =>
    rw [landing_eq_self hC hh hx, descent_eq_nil hC hh hx, List.append_nil]
  | step x y hx ih =>
    rw [landing_eq_of_resolve hC hh hx, descent_eq_cons hC hh hx]
    refine List.Sublist.trans ?_ ih
    obtain ⟨hxy, hne⟩ := (properAncestor_iff hac).mp (hC.resolve_below hh hx)
    obtain ⟨u, hu, hseg⟩ := ancestors_split hac hxy
    -- the chain of `y` begins with `y`, and then comes the gap above `x`
    obtain ⟨u, rfl⟩ : ∃ u', u = y :: u' := by
      cases u with
      | nil => exact absurd (Option.some.inj (Seg.nil_iff.mp hseg)).symm hne
      | cons y' u =>
        obtain rfl := Option.some.inj (Seg.cons_iff.mp hseg).1
        exact ⟨u, rfl⟩
    rw [hu, List.reverse_append, List.append_assoc]
    refine List.Sublist.append_left ?_ _
    rw [← List.singleton_append]
    refine List.Sublist.append_right ?_ _
    simp

/-- **A descent is no longer than the subtree is high.** -/
theorem descent_length_le [DecidableEq X] (x : X) :
    (C.descent h x).length ≤ height C.parent x := by
  have hpath := (descent_sublist hC hh x).length_le
  have hdepth : depth C.parent (C.landing h x) ≤ depth C.parent x + height C.parent x :=
    depth_le_add_height (mem_ancestors_landing hC hh x)
  rw [List.length_append, List.length_reverse, List.length_reverse] at hpath
  unfold depth at hdepth
  omega

/-- **The gaps.** The states on the path to the end of a descent that are neither entered by it
nor above its start lie strictly between two successive states of the descent. -/
theorem mem_gap_iff {z : X} (x : X) :
    (z ∈ ancestors C.parent (C.landing h x) ∧ z ∉ ancestors C.parent x ∧ z ∉ C.descent h x) ↔
      ∃ x' y', x' ∈ x :: C.descent h x ∧ C.resolve h x' = some y' ∧
        ProperAncestor C.parent x' z ∧ ProperAncestor C.parent z y' := by
  have hac : Acyclic C.parent := hC.acyclic
  induction x using descent_induction hC hh with
  | stop x hx =>
    rw [landing_eq_self hC hh hx, descent_eq_nil hC hh hx]
    refine iff_of_false (fun hz => hz.2.1 hz.1) ?_
    rintro ⟨x', y', hx', hy', -⟩
    rw [List.mem_singleton.mp hx', hx] at hy'
    cases hy'
  | step x y hx ih =>
    have hxy := hC.resolve_below hh hx
    obtain ⟨hxy', -⟩ := (properAncestor_iff hac).mp hxy
    rw [landing_eq_of_resolve hC hh hx, descent_eq_cons hC hh hx]
    constructor
    · rintro ⟨hz, hzx, hzd⟩
      obtain ⟨hne, hzd⟩ := not_or.mp (mt List.mem_cons.mpr hzd)
      by_cases hzy : z ∈ ancestors C.parent y
      · -- above `y` and not above `x`: in the first gap
        have hxz : x ∈ ancestors C.parent z := (ancestors_total hac hxy' hzy).resolve_left hzx
        refine ⟨x, y, List.mem_cons_self, hx, (properAncestor_iff hac).mpr ⟨hxz, ?_⟩,
          (properAncestor_iff hac).mpr ⟨hzy, hne⟩⟩
        rintro rfl
        exact hzx hxz
      · obtain ⟨x', y', hx', hrest⟩ := ih.mp ⟨hz, hzy, hzd⟩
        exact ⟨x', y', List.mem_cons_of_mem x hx', hrest⟩
    · rintro ⟨x', y', hx', hy', hx'z, hzy'⟩
      rcases List.mem_cons.mp hx' with rfl | hx'
      · obtain rfl : y = y' := Option.some.inj (hx.symm.trans hy')
        obtain ⟨hzy, hne⟩ := (properAncestor_iff hac).mp hzy'
        refine ⟨ancestors_trans hac (mem_ancestors_landing hC hh y) hzy, fun hzx => ?_, ?_⟩
        · exact hac z (Relation.TransGen.trans_left hx'z ((mem_ancestors hac).mp hzx))
        · intro hzd
          rcases List.mem_cons.mp hzd with rfl | hzd
          · exact hne rfl
          · exact hac z ((properAncestor_of_mem_descent hC hh hzd).trans hzy')
      · obtain ⟨hz, hzy, hnot⟩ := ih.mpr ⟨x', y', hx', hy', hx'z, hzy'⟩
        refine ⟨hz, fun hzx => hzy (ancestors_trans hac hxy' hzx), fun hzd => ?_⟩
        rcases List.mem_cons.mp hzd with rfl | hzd
        · exact hzy (self_mem_ancestors hac z)
        · exact hnot hzd

end Gaps

/-! ### Recording on the way out -/

section Record

variable [DecidableEq X] (C)

/-- The memory after `x` has been left through its parent. -/
def record (h : X → Option X) (x : X) : X → Option X :=
  match C.parent x with
  | none => h
  | some p => if C.hasHistory p then Function.update h p (some x) else h

variable {C}

theorem record_goodMemory (hh : C.GoodMemory h) (x : X) : C.GoodMemory (C.record h x) := by
  intro k v hv
  unfold record at hv
  cases hp : C.parent x with
  | none => exact hh k v (by simpa [hp] using hv)
  | some p =>
    rw [hp] at hv
    by_cases hhist : C.hasHistory p = true
    · simp only [hhist, if_true] at hv
      by_cases hk : k = p
      · obtain rfl : x = v := by simpa [hk] using hv
        exact ⟨hk ▸ hhist, hk ▸ hp⟩
      · exact hh k v (by simpa [Function.update_of_ne hk] using hv)
    · exact hh k v (by simpa [hhist] using hv)

theorem foldl_record_goodMemory (hh : C.GoodMemory h) (l : List X) :
    C.GoodMemory (l.foldl C.record h) := by
  induction l generalizing h with
  | nil => exact hh
  | cons x l ih => exact ih (record_goodMemory hh x)

theorem record_apply_of_ne (hk : C.parent x ≠ some k) : C.record h x k = h k := by
  unfold record
  cases hp : C.parent x with
  | none => rfl
  | some p =>
    have hkp : k ≠ p := fun hkp => hk (by rw [hp, hkp])
    simp only
    split
    · rw [Function.update_of_ne hkp]
    · rfl

theorem record_apply (hx : C.parent x = some k) (hk : C.hasHistory k = true) :
    C.record h x k = some x := by
  simp [record, hx, hk]

/-- Leaving states none of which is a child of `k` keeps the memory of `k`. -/
theorem foldl_record_of_forall_ne {l : List X} (hl : ∀ x ∈ l, C.parent x ≠ some k) :
    l.foldl C.record h k = h k := by
  induction l generalizing h with
  | nil => rfl
  | cons x l ih =>
    obtain ⟨hx, hl⟩ := List.forall_mem_cons.mp hl
    rw [List.foldl_cons, ih hl, record_apply_of_ne hx]

/-- Leaving states of which exactly one is a child of the history state `k` stores that
child. -/
theorem foldl_record_of_unique {l : List X} (hx : x ∈ l) (hxk : C.parent x = some k)
    (hk : C.hasHistory k = true) (huniq : ∀ y ∈ l, C.parent y = some k → y = x) :
    l.foldl C.record h k = some x := by
  induction l generalizing h with
  | nil => simp at hx
  | cons y l ih =>
    rw [List.foldl_cons]
    by_cases hxl : x ∈ l
    · exact ih hxl fun z hz => huniq z (List.mem_cons_of_mem y hz)
    · obtain rfl : x = y := (List.mem_cons.mp hx).resolve_right hxl
      rw [foldl_record_of_forall_ne, record_apply hxk hk]
      intro z hz hzk
      exact hxl (huniq z (List.mem_cons_of_mem x hz) hzk ▸ hz)

end Record

/-! ### Leaving and entering -/

section Move

variable [Fintype X] [DecidableEq X] (C)

/-- The states left by a move, innermost first: up to the least common ancestor, or the
current state alone when that is an ancestor-or-self of the target. -/
def exitPath (c t : X) : List X :=
  if c ∈ ancestors C.parent t then [c] else branch C.parent c t

/-- The states entered by a move down to its target, outermost first: below the least common
ancestor, or the target alone when that is an ancestor-or-self of the current state. -/
def entryPath (c t : X) : List X :=
  if t ∈ ancestors C.parent c then [t] else (branch C.parent t c).reverse

/-- The memory after a move from `c` to `t`. -/
def recordExits (h : X → Option X) (c t : X) : X → Option X :=
  (branch C.parent c t).foldl C.record h

variable {C}

theorem recordExits_goodMemory (hh : C.GoodMemory h) (c t : X) :
    C.GoodMemory (C.recordExits h c t) := foldl_record_goodMemory hh _

section Paths

variable (hac : Acyclic C.parent)

include hac

theorem entryPath_subset (hx : x ∈ C.entryPath c t) : x ∈ ancestors C.parent t := by
  unfold entryPath at hx
  split at hx
  · rw [List.mem_singleton.mp hx]
    exact self_mem_ancestors hac t
  · exact (mem_branch.mp (List.mem_reverse.mp hx)).1

theorem target_mem_entryPath (c t : X) : t ∈ C.entryPath c t := by
  unfold entryPath
  split
  · exact List.mem_singleton_self t
  · rename_i htc
    exact List.mem_reverse.mpr (mem_branch.mpr ⟨self_mem_ancestors hac t, htc⟩)

theorem entryPath_nodup (c t : X) : (C.entryPath c t).Nodup := by
  unfold entryPath
  split
  · exact List.nodup_singleton t
  · exact List.nodup_reverse.mpr ((ancestors_nodup hac t).filter _)

/-- The states that are left are those ancestors-or-self of the current state that are none
of the target's; only the current state itself may be both, and is then left too. -/
theorem mem_ancestors_of_not_mem_exitPath (hx : x ∈ ancestors C.parent c)
    (hexit : x ∉ C.exitPath c t) : x ∈ ancestors C.parent t := by
  unfold exitPath at hexit
  split at hexit
  · rename_i hct
    exact ancestors_trans hac hct hx
  · by_contra hxt
    exact hexit (mem_branch.mpr ⟨hx, hxt⟩)

/-- The target's ancestors that are not entered are common with the current state. -/
theorem mem_ancestors_of_not_mem_entryPath (hx : x ∈ ancestors C.parent t)
    (hentry : x ∉ C.entryPath c t) : x ∈ ancestors C.parent c := by
  unfold entryPath at hentry
  split at hentry
  · rename_i htc
    exact ancestors_trans hac htc hx
  · by_contra hxc
    exact hentry (List.mem_reverse.mpr (mem_branch.mpr ⟨hx, hxc⟩))

end Paths

end Move

end Chart

end StateHierarchy
