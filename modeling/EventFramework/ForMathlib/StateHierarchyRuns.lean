import EventFramework.ForMathlib.StateHierarchy
import EventFramework.ForMathlib.EnterExit

/-!
# Runs of the abstract hierarchical machine

A configuration `Conf` is the current state and the memory, with two ghosts: the enter and
exit marks since the start, and the current states `seen` at the moments between calls,
newest first. `begin` starts the machine, `move` takes it to a target, and `stay` is a call
without a transition.

Three questions are answered for whole runs.

* **Which states are active?** Only the current state and its ancestors (`Inv.covered`). All
  of them are, as long as no move goes to a proper descendant of the current state
  (`chainActive_step_iff`).
* **Is a state ever entered while active?** A move re-enters exactly when its target is a
  proper ancestor of the current state that is still active (`noReentry_move_iff`).
* **What does the memory hold?** For a history state without a child above the current state,
  the child that was last above one (`Remembers`). Hence a descent enters, below each history
  state, its child that lay above the current state at the latest moment at which one did
  (`resolve_recordExits`), and coming back to a state whose whole subtree has history leads to
  the state from which it was left (`landing_eq_of_left`).
-/

namespace StateHierarchy

open PointerChain ParentForest EnterExit

/-- A configuration of the abstract machine, with its history. -/
structure Conf (X : Type*) where
  current : X
  memory : X → Option X
  marks : List (Mark X)
  seen : List X

namespace Chart

variable {X : Type*} [Fintype X] [DecidableEq X] (C : Chart X)

/-- Enter `s` with all its ancestors and descend. -/
def begin (s : X) : Conf X where
  current := C.landing (fun _ => none) s
  memory := fun _ => none
  marks := ((ancestors C.parent s).reverse ++ C.descent (fun _ => none) s).map .enter
  seen := [C.landing (fun _ => none) s]

/-- Leave the current state, enter the target and descend. -/
def move (K : Conf X) (t : X) : Conf X where
  current := C.landing (C.recordExits K.memory K.current t) t
  memory := C.recordExits K.memory K.current t
  marks := K.marks ++ (C.exitPath K.current t).map .exit ++
    (C.entryPath K.current t ++ C.descent (C.recordExits K.memory K.current t) t).map .enter
  seen := C.landing (C.recordExits K.memory K.current t) t :: K.seen

/-- A call that takes no transition. -/
def stay (K : Conf X) : Conf X := { K with seen := K.current :: K.seen }

/-- A call: a move to a target, or none. -/
def step (K : Conf X) : Option X → Conf X
  | none => stay K
  | some t => C.move K t

/-- A run: start at `s`, then one step for each call. -/
def run (s : X) (ls : List (Option X)) : Conf X := ls.foldl C.step (C.begin s)

variable {C} {K : Conf X} {c s t x y k : X}

theorem run_concat (s : X) (ls : List (Option X)) (l : Option X) :
    C.run s (ls ++ [l]) = C.step (C.run s ls) l := List.foldl_concat ..

/-- Each step adds a moment. -/
theorem step_seen (K : Conf X) : ∀ l, (C.step K l).seen = (C.step K l).current :: K.seen
  | none => rfl
  | some _ => rfl

theorem step_marks_mono (K : Conf X) (l : Option X) : K.marks <+: (C.step K l).marks := by
  cases l with
  | none => exact List.prefix_rfl
  | some t => exact ⟨_, (List.append_assoc ..).symm⟩

variable (C)

/-! ### The invariant -/

/-- What holds between calls: the memory is good, there is nothing left to enter below the
current state, and only the current state and its ancestors are active. -/
structure Inv (K : Conf X) : Prop where
  good : C.GoodMemory K.memory
  resolved : C.resolve K.memory K.current = none
  covered : ∀ x, active x K.marks = true → x ∈ ancestors C.parent K.current
  seen : ∃ older, K.seen = K.current :: older

variable {C}

/-- The start activates what it enters. -/
theorem active_begin : active x (C.begin s).marks = true ↔
    x ∈ ancestors C.parent s ∨ x ∈ C.descent (fun _ => none) s := by
  have h : active x ([] ++ (C.begin s).marks) = _ := active_append_enters
  rw [List.nil_append, active_nil, Bool.false_or] at h
  rw [h]
  simp

/-- **What a move leaves active**: what was active and has not been left, and what has been
entered. -/
theorem active_move (t : X) : active x (C.move K t).marks = true ↔
    (active x K.marks = true ∧ x ∉ C.exitPath K.current t) ∨ x ∈ C.entryPath K.current t ∨
      x ∈ C.descent (C.recordExits K.memory K.current t) t := by
  rw [move, active_append_enters, active_append_exits]
  simp only [Bool.or_eq_true, Bool.and_eq_true, decide_eq_true_eq, List.mem_append]

theorem stay_inv (hK : C.Inv K) : C.Inv (stay K) where
  good := hK.good
  resolved := hK.resolved
  covered := hK.covered
  seen := ⟨K.seen, rfl⟩

section Invariant

variable (hC : C.WellNested)

include hC

theorem begin_inv (s : X) : C.Inv (C.begin s) where
  good := goodMemory_empty
  resolved := resolve_landing hC goodMemory_empty s
  covered x hx := by
    rcases active_begin.mp hx with hmem | hmem
    · exact ancestors_trans hC.acyclic (mem_ancestors_landing hC goodMemory_empty s) hmem
    · exact descent_subset_ancestors hC goodMemory_empty hmem
  seen := ⟨[], rfl⟩

theorem move_inv (hK : C.Inv K) (t : X) : C.Inv (C.move K t) where
  good := recordExits_goodMemory hK.good K.current t
  resolved := resolve_landing hC (recordExits_goodMemory hK.good K.current t) t
  covered x hx := by
    have hgood := recordExits_goodMemory hK.good K.current t
    have hland := mem_ancestors_landing hC hgood t
    rcases (active_move t).mp hx with ⟨hact, hexit⟩ | hentry | hdesc
    · exact ancestors_trans hC.acyclic hland
        (mem_ancestors_of_not_mem_exitPath hC.acyclic (hK.covered x hact) hexit)
    · exact ancestors_trans hC.acyclic hland (entryPath_subset hC.acyclic hentry)
    · exact descent_subset_ancestors hC hgood hdesc
  seen := ⟨K.seen, rfl⟩

theorem step_inv (hK : C.Inv K) : ∀ l, C.Inv (C.step K l)
  | none => stay_inv hK
  | some t => move_inv hC hK t

theorem run_inv (s : X) (ls : List (Option X)) : C.Inv (C.run s ls) := by
  induction ls using List.reverseRecOn with
  | nil => exact begin_inv hC s
  | append_singleton ls l ih =>
    rw [run_concat]
    exact step_inv hC ih l

/-! ### Re-entry -/

theorem begin_noReentry (s : X) : NoReentry (C.begin s).marks := by
  have hgood : C.GoodMemory fun _ => none := goodMemory_empty
  have hmarks : NoReentry ([] ++ (C.begin s).marks) ↔ _ := noReentry_append_enters
  rw [List.nil_append] at hmarks
  refine hmarks.mpr ⟨noReentry_nil, ?_, fun _ _ => rfl⟩
  refine List.nodup_append'.mpr ⟨List.nodup_reverse.mpr (ancestors_nodup hC.acyclic s),
    descent_nodup hC hgood s, fun x hx hd => ?_⟩
  exact not_mem_ancestors_of_mem_descent hC hgood hd (List.mem_reverse.mp hx)

/-- **Re-entry.** A move enters an active state exactly when its target is a proper ancestor
of the current state that is still active. -/
theorem noReentry_move_iff (hK : C.Inv K) (hnr : NoReentry K.marks) (t : X) :
    NoReentry (C.move K t).marks ↔
      ¬ (ProperAncestor C.parent t K.current ∧ active t K.marks = true) := by
  have hgood := recordExits_goodMemory hK.good K.current t
  have hnodup : (C.entryPath K.current t ++
      C.descent (C.recordExits K.memory K.current t) t).Nodup := by
    refine List.nodup_append'.mpr ⟨entryPath_nodup hC.acyclic K.current t,
      descent_nodup hC hgood t, fun x hx hd => ?_⟩
    exact not_mem_ancestors_of_mem_descent hC hgood hd (entryPath_subset hC.acyclic hx)
  -- a state that stays active through the exits is an ancestor of the target
  have hstay : ∀ y, active y K.marks = true → y ∉ C.exitPath K.current t →
      y ∈ ancestors C.parent t := fun y hy hexit =>
    mem_ancestors_of_not_mem_exitPath hC.acyclic (hK.covered y hy) hexit
  rw [move, noReentry_append_enters, noReentry_append_exits]
  simp only [hnr, hnodup, true_and, active_append_exits, Bool.and_eq_false_iff,
    decide_eq_false_iff_not, not_not, List.mem_append]
  -- a proper ancestor is not on the exit path, and as the target it is entered in any case
  constructor
  · rintro h ⟨htc, hact⟩
    obtain ⟨htc, hne⟩ := (properAncestor_iff hC.acyclic).mp htc
    have hct : K.current ∉ ancestors C.parent t := fun hct =>
      hne (ancestors_antisymm hC.acyclic htc hct).symm
    rcases h t (.inl (target_mem_entryPath hC.acyclic K.current t)) with hf | hexit
    · rw [hact] at hf
      exact Bool.noConfusion hf
    · rw [exitPath, if_neg hct] at hexit
      exact (mem_branch.mp hexit).2 (self_mem_ancestors hC.acyclic t)
  · intro h y hy
    by_contra hcon
    rw [not_or, Bool.not_eq_false] at hcon
    obtain ⟨hact, hexit⟩ := hcon
    have hyt := hstay y hact hexit
    rcases hy with hy | hy
    · unfold entryPath at hy
      split at hy
      · obtain rfl := List.mem_singleton.mp hy
        rename_i hyc
        refine h ⟨(properAncestor_iff hC.acyclic).mpr ⟨hyc, ?_⟩, hact⟩
        intro heq
        rw [exitPath, if_pos (heq ▸ self_mem_ancestors hC.acyclic y), heq] at hexit
        exact hexit (List.mem_singleton_self _)
      · exact (mem_branch.mp (List.mem_reverse.mp hy)).2 (hK.covered y hact)
    · exact not_mem_ancestors_of_mem_descent hC hgood hy hyt

end Invariant

/-! ### The active chain -/

/-- The current state and all its ancestors are active. -/
def ChainActive (C : Chart X) (K : Conf X) : Prop :=
  ∀ x ∈ ancestors C.parent K.current, active x K.marks = true

theorem begin_chainActive (hC : C.WellFormed) (s : X) : C.ChainActive (C.begin s) := by
  intro x hx
  rw [begin, ancestors_landing hC goodMemory_empty, List.mem_append, List.mem_reverse] at hx
  exact active_begin.mpr hx.symm

/-- A move within or out of the chain of the current state, but not below it, keeps the chain
of the current state active. -/
theorem chainActive_move (hC : C.WellFormed) (hK : C.Inv K) (hact : C.ChainActive K)
    (ht : ¬ ProperAncestor C.parent K.current t) : C.ChainActive (C.move K t) := by
  intro x hx
  have hgood := recordExits_goodMemory hK.good K.current t
  rw [active_move]
  rw [move, ancestors_landing hC hgood, List.mem_append, List.mem_reverse] at hx
  rcases hx with hx | hx
  -- below the target everything is entered; above it, what is not entered was active and stays
  · exact .inr (.inr hx)
  by_cases hentry : x ∈ C.entryPath K.current t
  · exact .inr (.inl hentry)
  have hxc := mem_ancestors_of_not_mem_entryPath hC.acyclic hx hentry
  refine .inl ⟨hact x hxc, fun hexit => ?_⟩
  unfold exitPath at hexit
  split at hexit
  · -- only a self transition leaves a state above the target, and it is entered again
    rename_i hct
    obtain rfl := List.mem_singleton.mp hexit
    have heq : K.current = t := by
      by_contra hne
      exact ht ((properAncestor_iff hC.acyclic).mpr ⟨hct, hne⟩)
    rw [heq] at hentry
    exact hentry (target_mem_entryPath hC.acyclic t t)
  · exact (mem_branch.mp hexit).2 hx

/-- A move to a proper descendant leaves the old current state, which stays above the new
one, without entering it again. -/
theorem not_chainActive_move (hC : C.WellNested) (hK : C.Inv K)
    (ht : ProperAncestor C.parent K.current t) : ¬ C.ChainActive (C.move K t) := by
  intro hchain
  have hgood := recordExits_goodMemory hK.good K.current t
  obtain ⟨hct, hne⟩ := (properAncestor_iff hC.acyclic).mp ht
  have htc : t ∉ ancestors C.parent K.current := fun htc =>
    hne (ancestors_antisymm hC.acyclic htc hct)
  have hact := hchain K.current
    (ancestors_trans hC.acyclic (mem_ancestors_landing hC hgood t) hct)
  rcases (active_move t).mp hact with ⟨-, hexit⟩ | hentry | hdesc
  · rw [exitPath, if_pos hct] at hexit
    exact hexit (List.mem_singleton_self _)
  · rw [entryPath, if_neg htc, List.mem_reverse] at hentry
    exact (mem_branch.mp hentry).2 (self_mem_ancestors hC.acyclic K.current)
  · exact not_mem_ancestors_of_mem_descent hC hgood hdesc hct

/-- **The active chain.** A call keeps the chain of the current state active exactly when it
does not move to a proper descendant of the current state. -/
theorem chainActive_step_iff (hC : C.WellFormed) (hK : C.Inv K) (hact : C.ChainActive K)
    (l : Option X) : C.ChainActive (C.step K l) ↔
      ∀ t, l = some t → ¬ ProperAncestor C.parent K.current t := by
  cases l with
  | none => exact ⟨fun _ _ ht => (nomatch ht), fun _ => hact⟩
  | some t =>
    simp only [step, Option.some.injEq, forall_eq']
    exact ⟨fun h ht => not_chainActive_move hC.wellNested hK ht h,
      chainActive_move hC hK hact⟩

/-! ### What the memory holds -/

/-- The child of `k` that is `c` or an ancestor of `c`. -/
def childOn (C : Chart X) (c k : X) : Option X :=
  (ancestors C.parent c).find? fun x => C.parent x = some k

/-- The child of `k` above the most recent current state that has one. -/
def lastChild (C : Chart X) (seen : List X) (k : X) : Option X :=
  seen.findSome? fun c => C.childOn c k

theorem childOn_some (h : C.childOn c k = some x) :
    x ∈ ancestors C.parent c ∧ C.parent x = some k :=
  ⟨List.mem_of_find?_eq_some h, by simpa using List.find?_some h⟩

section History

variable (hac : Acyclic C.parent)

include hac

omit [DecidableEq X] in
/-- A chain passes through one child of a state only. -/
private theorem child_unique (hx : x ∈ ancestors C.parent c) (hy : y ∈ ancestors C.parent c)
    (hxk : C.parent x = some k) (hyk : C.parent y = some k) : x = y := by
  -- of two such children one would lie above the other, and so above `k`
  have key : ∀ a b, C.parent a = some k → C.parent b = some k →
      a ∈ ancestors C.parent b → a = b := by
    intro a b ha hb hab
    rw [ancestors_eq_cons_of_parent hac hb, List.mem_cons] at hab
    exact hab.resolve_right (not_mem_ancestors_of_parent hac ha)
  rcases ancestors_total hac hx hy with h | h
  · exact (key y x hyk hxk h).symm
  · exact key x y hxk hyk h

theorem childOn_eq_some (hx : x ∈ ancestors C.parent c) (hxk : C.parent x = some k) :
    C.childOn c k = some x := by
  cases h : C.childOn c k with
  | none =>
    rw [childOn, List.find?_eq_none] at h
    exact absurd hxk (by simpa using h x hx)
  | some y =>
    obtain ⟨hy, hyk⟩ := childOn_some h
    rw [child_unique hac hy hx hyk hxk]

theorem exists_childOn (hk : k ∈ ancestors C.parent c) (hne : k ≠ c) :
    ∃ x, C.childOn c k = some x := by
  have hprop := (properAncestor_iff hac).mpr ⟨hk, hne⟩
  obtain ⟨x, hx, hxk⟩ := Relation.TransGen.tail'_iff.mp hprop
  exact ⟨x, childOn_eq_some hac ((mem_ancestors hac).mpr hx) hxk⟩

theorem childOn_self (c : X) : C.childOn c c = none := by
  cases h : C.childOn c c with
  | none => rfl
  | some x =>
    obtain ⟨hx, hxc⟩ := childOn_some h
    have heq := ancestors_antisymm hac (mem_ancestors_of_parent hac hxc) hx
    rw [heq] at hxc
    exact (hac c (Relation.TransGen.single hxc)).elim

/-- Leaving a child of the history state `k` that is not above the target stores it. -/
theorem recordExits_of_childOn {h : X → Option X} (hk : C.hasHistory k = true)
    (hx : C.childOn c k = some x) (hxt : x ∉ ancestors C.parent t) :
    C.recordExits h c t k = some x := by
  obtain ⟨hxc, hxk⟩ := childOn_some hx
  exact foldl_record_of_unique (mem_branch.mpr ⟨hxc, hxt⟩) hxk hk fun y hy hyk =>
    child_unique hac (mem_branch.mp hy).1 hxc hyk hxk

theorem recordExits_of_childOn_none {h : X → Option X} (hk : C.childOn c k = none) :
    C.recordExits h c t k = h k := by
  refine foldl_record_of_forall_ne fun x hx hxk => ?_
  rw [childOn_eq_some hac (mem_branch.mp hx).1 hxk] at hk
  exact nomatch hk

omit hac

/-- The memory of a history state without a child above the current state is the child that
was last above one. -/
def Remembers (C : Chart X) (K : Conf X) : Prop :=
  ∀ k, C.hasHistory k = true → C.childOn K.current k = none →
    K.memory k = C.lastChild K.seen k

theorem begin_remembers (s : X) : C.Remembers (C.begin s) := by
  intro k _ hk
  have hk' : C.childOn (C.landing (fun _ => none) s) k = none := hk
  simp [begin, lastChild, hk']

theorem stay_remembers (hK : C.Remembers K) : C.Remembers (stay K) := by
  intro k hhist hk
  have hk' : C.childOn K.current k = none := hk
  rw [stay, hK k hhist hk]
  simp [lastChild, hk']

theorem move_remembers (hC : C.WellNested) (hinv : C.Inv K) (hK : C.Remembers K) (t : X) :
    C.Remembers (C.move K t) := by
  intro k hhist hk
  have hgood := recordExits_goodMemory hinv.good K.current t
  -- the new moment says nothing about `k`, so the latest child is the one at the old moment, if any
  obtain ⟨older, hseen⟩ := hinv.seen
  have hlast : C.lastChild (C.move K t).seen k = C.lastChild K.seen k := by
    have hk' : C.childOn (C.landing (C.recordExits K.memory K.current t) t) k = none := hk
    simp [lastChild, move, hk']
  rw [hlast]
  cases hx : C.childOn K.current k with
  | none => exact (recordExits_of_childOn_none hC.acyclic hx).trans (hK k hhist hx)
  | some x =>
    -- the child has been left: it is not above the new current state
    have hxt : x ∉ ancestors C.parent t := fun hxt => by
      have hland := mem_ancestors_landing hC hgood t
      rw [move, childOn_eq_some hC.acyclic (ancestors_trans hC.acyclic hland hxt)
        (childOn_some hx).2] at hk
      exact nomatch hk
    refine (recordExits_of_childOn hC.acyclic hhist hx hxt).trans ?_
    simp [lastChild, hseen, hx]

theorem run_remembers (hC : C.WellNested) (s : X) (ls : List (Option X)) :
    C.Remembers (C.run s ls) := by
  induction ls using List.reverseRecOn with
  | nil => exact begin_remembers s
  | append_singleton ls l ih =>
    rw [run_concat]
    cases l with
    | none => exact stay_remembers ih
    | some t => exact move_remembers hC (run_inv hC s ls) ih t

/-- **What a descent restores.** At and below the target of a move, the state entered below
`k` is the child of `k` above the latest current state that has one. -/
theorem resolve_recordExits (hac : Acyclic C.parent) (hinv : C.Inv K) (hK : C.Remembers K)
    (hk : t ∈ ancestors C.parent k) :
    C.resolve (C.recordExits K.memory K.current t) k = C.resolve (C.lastChild K.seen) k := by
  cases hhist : C.hasHistory k with
  | false => rw [resolve_of_not_hasHistory hhist, resolve_of_not_hasHistory hhist]
  | true =>
    have hmem : C.recordExits K.memory K.current t k = C.lastChild K.seen k := by
      cases hx : C.childOn K.current k with
      | none => rw [recordExits_of_childOn_none hac hx, hK k hhist hx]
      | some x =>
        obtain ⟨older, hseen⟩ := hinv.seen
        obtain ⟨hxc, hxk⟩ := childOn_some hx
        have hxt : x ∉ ancestors C.parent t := fun hxt =>
          not_mem_ancestors_of_parent hac hxk (ancestors_trans hac hk hxt)
        rw [recordExits_of_childOn hac hhist hx hxt]
        simp [lastChild, hseen, hx]
    simp only [resolve, hmem]

/-- The states entered below the target of a move are the chain of restored states. -/
theorem descent_restores (hC : C.WellNested) (hinv : C.Inv K) (hK : C.Remembers K) (t : X) :
    Seg (C.resolve (C.lastChild K.seen)) (C.resolve (C.lastChild K.seen) t) none
      (C.descent (C.recordExits K.memory K.current t) t) := by
  have hgood := recordExits_goodMemory hinv.good K.current t
  have hseg := descent_seg hC hgood t
  rw [resolve_recordExits hC.acyclic hinv hK (self_mem_ancestors hC.acyclic t)] at hseg
  refine hseg.congr fun y hy => ?_
  have hty := (properAncestor_iff hC.acyclic).mp (properAncestor_of_mem_descent hC hgood hy)
  exact (resolve_recordExits hC.acyclic hinv hK hty.1).symm

/-- Nothing is left to restore below the current state. -/
theorem resolve_lastChild_current (hac : Acyclic C.parent) (hinv : C.Inv K)
    (hK : C.Remembers K) : C.resolve (C.lastChild K.seen) K.current = none := by
  have hres := hinv.resolved
  cases hhist : C.hasHistory K.current with
  | false => rwa [resolve_of_not_hasHistory hhist] at hres ⊢
  | true =>
    unfold resolve at hres ⊢
    rwa [hK K.current hhist (childOn_self hac K.current)] at hres

/-- At every moment of a run, nothing was left to restore below the state current then. -/
theorem resolve_of_moment (hC : C.WellNested) {ls : List (Option X)} {outside older : List X}
    (hseen : (C.run s ls).seen = outside ++ c :: older) :
    C.resolve (C.lastChild (c :: older)) c = none := by
  induction outside generalizing ls with
  | nil =>
    have hinv := run_inv hC s ls
    obtain ⟨older', hseen'⟩ := hinv.seen
    obtain rfl : (C.run s ls).current = c := (List.cons.inj (hseen'.symm.trans hseen)).1
    have hres := resolve_lastChild_current hC.acyclic hinv (run_remembers hC s ls)
    rwa [hseen] at hres
  | cons o outside ih =>
    rcases ls.eq_nil_or_concat' with rfl | ⟨ls, l, rfl⟩
    · have hnil : [] = outside ++ c :: older := (List.cons.inj hseen).2
      simp at hnil
    · rw [run_concat, step_seen] at hseen
      exact ih (List.cons.inj hseen).2

/-- Below `a`, moments outside the subtree of `a` do not count. -/
theorem lastChild_append_outside (hac : Acyclic C.parent) {a : X} {outside seen : List X}
    (hout : ∀ o ∈ outside, a ∉ ancestors C.parent o) (hk : a ∈ ancestors C.parent k) :
    C.lastChild (outside ++ seen) k = C.lastChild seen k := by
  have hnone : outside.findSome? (fun o => C.childOn o k) = none := by
    rw [List.findSome?_eq_none_iff]
    intro o ho
    cases hx : C.childOn o k with
    | none => rfl
    | some x =>
      obtain ⟨hxo, hxk⟩ := childOn_some hx
      have hko := ancestors_trans hac hxo (mem_ancestors_of_parent hac hxk)
      exact absurd (ancestors_trans hac hko hk) (hout o ho)
  rw [lastChild, List.findSome?_append, hnone, Option.none_or, lastChild]

/-- Above the latest moment `c`, the restored state is the next one on the way down to `c`. -/
theorem resolve_toward (hac : Acyclic C.parent)
    (hall : ∀ x y, C.parent y = some x → C.hasHistory x = true) (older : List X)
    (hk : k ∈ ancestors C.parent c) (hne : k ≠ c) :
    ∃ x, C.resolve (C.lastChild (c :: older)) k = some x ∧ x ∈ ancestors C.parent c ∧
      C.parent x = some k := by
  obtain ⟨x, hx⟩ := exists_childOn hac hk hne
  obtain ⟨hxc, hxk⟩ := childOn_some hx
  refine ⟨x, resolve_of_memory (hall k x hxk) ?_, hxc, hxk⟩
  simp [lastChild, hx]

/-- **Coming back.** When every state with children has history and the subtree of `a` was
last left from `c`, a move to `a` ends in `c`. -/
theorem landing_eq_of_left (hC : C.WellNested)
    (hall : ∀ x y, C.parent y = some x → C.hasHistory x = true) (hinv : C.Inv K)
    (hK : C.Remembers K) {a : X} {outside older : List X}
    (hseen : K.seen = outside ++ c :: older)
    (hout : ∀ o ∈ outside, a ∉ ancestors C.parent o) (hac : a ∈ ancestors C.parent c)
    (hc : C.resolve (C.lastChild (c :: older)) c = none) :
    (C.move K a).current = c := by
  have hgood := recordExits_goodMemory hinv.good K.current a
  have hres : ∀ k, a ∈ ancestors C.parent k →
      C.resolve (C.recordExits K.memory K.current a) k =
        C.resolve (C.lastChild (c :: older)) k := by
    intro k hk
    rw [resolve_recordExits hC.acyclic hinv hK hk, resolve, resolve, hseen,
      lastChild_append_outside hC.acyclic hout hk]
  -- induction along the descent: it cannot stop above `c`, and cannot go below `c`
  have key : ∀ k, k ∈ ancestors C.parent c → a ∈ ancestors C.parent k →
      C.landing (C.recordExits K.memory K.current a) k = c := by
    intro k
    induction k using descent_induction hC hgood with
    | stop k hstop =>
      intro hk hak
      rw [landing_eq_self hC hgood hstop]
      by_contra hne
      obtain ⟨x, hx, -⟩ := resolve_toward hC.acyclic hall older hk hne
      rw [hres k hak, hx] at hstop
      contradiction
    | step k y hky ih =>
      intro hk hak
      rw [landing_eq_of_resolve hC hgood hky]
      have hne : k ≠ c := by
        rintro rfl
        rw [hres k hak, hc] at hky
        contradiction
      obtain ⟨x, hx, hxc, hxk⟩ := resolve_toward hC.acyclic hall older hk hne
      rw [hres k hak, hx] at hky
      obtain rfl := Option.some.inj hky
      exact ih hxc (ancestors_trans hC.acyclic (mem_ancestors_of_parent hC.acyclic hxk) hak)
  exact key a hac (self_mem_ancestors hC.acyclic a)

end History

end Chart

end StateHierarchy
