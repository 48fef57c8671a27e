import Mathlib.Data.List.Nodup
import Mathlib.Data.List.Perm.Basic
import Mathlib.Data.List.Range

/-!
# Histories of a deque

A deque receives elements at both ends and gives them out at the front. `run ops` is the
result of a history of operations on an empty deque: the elements given out, in order, and
those still in it, from the front; `none` when the history pops from an empty deque.
Elements carry the number of earlier pushes as a ticket, so that pushes of equal values
remain distinct.

`run_valid` says that what is given out and what is left are exactly what was pushed, each
push once (`nodup_pushed`), and that elements pushed at the back are given out in the order of
their pushes.

The last sections follow one element. While a marker pushed at the back is in the deque
(`Deque.Marked`), the elements pushed at the back since are behind it, and all others are given
out or in front of it. What stands in front of an element (`Deque.UpTo`) only changes by pushes
at the front.
-/

namespace DequeHistory

/-- An operation on a deque. -/
inductive Op (E : Type*)
  | pushBack (x : E)
  | pushFront (x : E)
  | pop

/-- A pushed element. -/
structure Pushed (E : Type*) where
  ticket : ℕ
  back : Bool
  value : E

/-- A deque after a history: the elements given out, those left, and the number of pushes. -/
structure Deque (E : Type*) where
  out : List (Pushed E)
  rest : List (Pushed E)
  pushes : ℕ

variable {E : Type*}

/-- One operation. -/
def Deque.apply (d : Deque E) : Op E → Option (Deque E)
  | .pushBack x =>
    some { d with rest := d.rest ++ [⟨d.pushes, true, x⟩], pushes := d.pushes + 1 }
  | .pushFront x =>
    some { d with rest := ⟨d.pushes, false, x⟩ :: d.rest, pushes := d.pushes + 1 }
  | .pop =>
    match d.rest with
    | [] => none
    | p :: rest => some { d with out := d.out ++ [p], rest := rest }

/-- A history, from an empty deque. -/
def run (ops : List (Op E)) : Option (Deque E) := ops.foldlM Deque.apply ⟨[], [], 0⟩

/-- The pushes of a history, with tickets from `n` on. -/
def pushedFrom (n : ℕ) : List (Op E) → List (Pushed E)
  | [] => []
  | .pushBack x :: ops => ⟨n, true, x⟩ :: pushedFrom (n + 1) ops
  | .pushFront x :: ops => ⟨n, false, x⟩ :: pushedFrom (n + 1) ops
  | .pop :: ops => pushedFrom n ops

/-- The pushes of a history, in order. -/
def pushed (ops : List (Op E)) : List (Pushed E) := pushedFrom 0 ops

variable {ops : List (Op E)} {d : Deque E}

theorem run_concat (ops : List (Op E)) (op : Op E) :
    run (ops ++ [op]) = (run ops).bind fun d => d.apply op := by
  unfold run
  rw [List.foldlM_append]
  cases ops.foldlM Deque.apply ⟨[], [], 0⟩ with
  | none => rfl
  | some d => simp

theorem run_concat_of_apply {d' : Deque E} {op : Op E} (hd : run ops = some d)
    (h : d.apply op = some d') : run (ops ++ [op]) = some d' := by
  rw [run_concat, hd, Option.bind_some, h]

theorem pushedFrom_append (n : ℕ) (ops ops' : List (Op E)) :
    pushedFrom n (ops ++ ops') =
      pushedFrom n ops ++ pushedFrom (n + (pushedFrom n ops).length) ops' := by
  induction ops generalizing n with
  | nil => rfl
  | cons op ops ih =>
    cases op <;> simp [pushedFrom, ih, Nat.add_assoc, Nat.add_comm 1]

theorem pushed_concat (ops : List (Op E)) (op : Op E) :
    pushed (ops ++ [op]) = pushed ops ++ pushedFrom (pushed ops).length [op] := by
  unfold pushed
  rw [pushedFrom_append, Nat.zero_add]

theorem map_ticket_pushedFrom (n : ℕ) (ops : List (Op E)) :
    (pushedFrom n ops).map Pushed.ticket = List.range' n (pushedFrom n ops).length := by
  induction ops generalizing n with
  | nil => rfl
  | cons op ops ih => cases op <;> simp [pushedFrom, ih, List.range'_succ]

/-- Every push has its own ticket. -/
theorem nodup_pushed (ops : List (Op E)) : ((pushed ops).map Pushed.ticket).Nodup := by
  unfold pushed
  rw [map_ticket_pushedFrom]
  exact List.nodup_range'

theorem ticket_lt_of_mem_pushed {p : Pushed E} (hp : p ∈ pushed ops) :
    p.ticket < (pushed ops).length := by
  have hmem := List.mem_map_of_mem (f := Pushed.ticket) hp
  unfold pushed at hmem ⊢
  rw [map_ticket_pushedFrom, List.mem_range'_1] at hmem
  omega

/-- What holds after a history. -/
structure Deque.Valid (d : Deque E) (ops : List (Op E)) : Prop where
  pushes : d.pushes = (pushed ops).length
  perm : (d.out ++ d.rest).Perm (pushed ops)
  sorted : ((d.out ++ d.rest).filter Pushed.back).Pairwise fun p q => p.ticket < q.ticket

theorem Deque.Valid.apply {d' : Deque E} {op : Op E} (h : d.Valid ops)
    (hd : d.apply op = some d') : d'.Valid (ops ++ [op]) := by
  cases op with
  | pushBack x =>
    obtain rfl := Option.some.inj hd
    have hpushed : pushed (ops ++ [.pushBack x]) = pushed ops ++ [⟨d.pushes, true, x⟩] := by
      rw [pushed_concat, ← h.pushes]
      rfl
    -- its ticket is larger than all tickets before
    have hlt : ∀ p ∈ (d.out ++ d.rest).filter Pushed.back, p.ticket < d.pushes := fun p hp => by
      rw [h.pushes]
      exact ticket_lt_of_mem_pushed (h.perm.mem_iff.mp (List.mem_of_mem_filter hp))
    refine ⟨?_, ?_, ?_⟩
    · rw [hpushed, List.length_append, ← h.pushes]
      rfl
    · rw [hpushed, ← List.append_assoc]
      exact h.perm.append_right _
    · rw [← List.append_assoc, List.filter_append, List.pairwise_append]
      refine ⟨h.sorted, by simp, fun p hp q hq => ?_⟩
      obtain rfl : q = ⟨d.pushes, true, x⟩ := by simpa using hq
      exact hlt p hp
  | pushFront x =>
    obtain rfl := Option.some.inj hd
    have hpushed : pushed (ops ++ [.pushFront x]) = pushed ops ++ [⟨d.pushes, false, x⟩] := by
      rw [pushed_concat, ← h.pushes]
      rfl
    refine ⟨?_, ?_, ?_⟩
    · rw [hpushed, List.length_append, ← h.pushes]
      rfl
    · rw [hpushed]
      exact List.perm_middle.trans ((h.perm.cons _).trans (List.perm_append_singleton _ _).symm)
    -- a push at the front is not among the pushes at the back
    · have hsorted := h.sorted
      rw [List.filter_append] at hsorted ⊢
      rwa [List.filter_cons_of_neg Bool.false_ne_true]
  | pop =>
    have hpushed : pushed (ops ++ [.pop]) = pushed ops := by
      rw [pushed_concat]
      exact List.append_nil _
    unfold Deque.apply at hd
    cases hrest : d.rest with
    | nil =>
      rw [hrest] at hd
      exact nomatch hd
    | cons p rest =>
      rw [hrest] at hd
      obtain rfl := Option.some.inj hd
      -- the entry only changes sides
      have hall : d.out ++ [p] ++ rest = d.out ++ d.rest := by
        rw [hrest, List.append_assoc, List.singleton_append]
      refine ⟨hpushed ▸ h.pushes, ?_, ?_⟩
      · simp only [hall, hpushed]
        exact h.perm
      · simp only [hall]
        exact h.sorted

theorem run_valid (h : run ops = some d) : d.Valid ops := by
  induction ops using List.reverseRecOn generalizing d with
  | nil =>
    obtain rfl := Option.some.inj h
    exact ⟨rfl, .nil, .nil⟩
  | append_singleton ops op ih =>
    rw [run_concat, Option.bind_eq_some_iff] at h
    obtain ⟨d₀, hd₀, hd⟩ := h
    exact (ih hd₀).apply hd

/-! ### A marker -/

/-- The pushes of `ops` when they follow a history. -/
def pushedSince (before ops : List (Op E)) : List (Pushed E) :=
  pushedFrom (pushed before).length ops

/-- The element that a push at the back puts in after a history. -/
def mark (before : List (Op E)) (x : E) : Pushed E := ⟨(pushed before).length, true, x⟩

/-- The marker is in the deque, and `since` happened after its push. -/
def Deque.Marked (d : Deque E) (before : List (Op E)) (x : E) (since : List (Op E)) : Prop :=
  ∃ inFront,
    d.rest = inFront ++
      mark before x :: (pushedSince (before ++ [.pushBack x]) since).filter Pushed.back ∧
    (d.out ++ inFront).Perm (pushed before ++
      (pushedSince (before ++ [.pushBack x]) since).filter fun p => !p.back)

variable {d' : Deque E} {before since : List (Op E)} {op : Op E} {x : E}

theorem pushed_append (before ops : List (Op E)) :
    pushed (before ++ ops) = pushed before ++ pushedSince before ops := by
  unfold pushed pushedSince
  rw [pushedFrom_append, Nat.zero_add]
  rfl

theorem pushedSince_append (before ops ops' : List (Op E)) :
    pushedSince before (ops ++ ops') =
      pushedSince before ops ++ pushedSince (before ++ ops) ops' := by
  unfold pushedSince
  rw [pushedFrom_append, pushed_append, List.length_append]
  rfl

/-- The ticket of the next push. -/
theorem pushedSince_of_run (hd : run ops = some d) (new : List (Op E)) :
    pushedSince ops new = pushedFrom d.pushes new := by
  rw [(run_valid hd).pushes]
  rfl

theorem apply_of_run_concat (hd : run ops = some d) (hd' : run (ops ++ [op]) = some d') :
    d.apply op = some d' := by
  rwa [run_concat, hd] at hd'

/-- A push leaves what is given out, and adds itself. -/
theorem Deque.apply_perm (hop : op ≠ .pop) (h : d.apply op = some d') :
    d'.out = d.out ∧ d'.rest.Perm (d.rest ++ pushedFrom d.pushes [op]) := by
  cases op with
  | pushBack y =>
    obtain rfl := Option.some.inj h
    exact ⟨rfl, .refl _⟩
  | pushFront y =>
    obtain rfl := Option.some.inj h
    exact ⟨rfl, (List.perm_append_singleton _ _).symm⟩
  | pop => exact absurd rfl hop

/-- The marker has just been pushed. -/
theorem Deque.marked_pushBack (hd : run before = some d)
    (happly : d.apply (.pushBack x) = some d') : d'.Marked before x [] := by
  have hvalid := run_valid hd
  obtain rfl := Option.some.inj happly
  refine ⟨d.rest, ?_, ?_⟩
  · rw [mark, ← hvalid.pushes]
    rfl
  · simpa [pushedSince, pushedFrom] using hvalid.perm

/-- A push keeps its side of the marker. -/
theorem Deque.Marked.push (hd : run (before ++ [.pushBack x] ++ since) = some d)
    (h : d.Marked before x since) (hop : op ≠ .pop) (happly : d.apply op = some d') :
    d'.Marked before x (since ++ [op]) := by
  obtain ⟨inFront, hrest, hperm⟩ := h
  have hnew : pushedSince (before ++ [.pushBack x]) (since ++ [op]) =
      pushedSince (before ++ [.pushBack x]) since ++ pushedFrom d.pushes [op] := by
    rw [pushedSince_append, pushedSince_of_run hd]
  cases op with
  | pushBack y =>
    obtain rfl := Option.some.inj happly
    refine ⟨inFront, ?_, ?_⟩
    · simp [hnew, hrest, pushedFrom]
    · simpa [hnew, pushedFrom] using hperm
  | pushFront y =>
    obtain rfl := Option.some.inj happly
    refine ⟨⟨d.pushes, false, y⟩ :: inFront, ?_, ?_⟩
    · simp [hnew, hrest, pushedFrom]
    · have hmiddle : (d.out ++ ⟨d.pushes, false, y⟩ :: inFront).Perm
          (⟨d.pushes, false, y⟩ :: (d.out ++ inFront)) := List.perm_middle
      rw [hnew, List.filter_append, ← List.append_assoc]
      exact hmiddle.trans ((hperm.cons _).trans (List.perm_append_singleton _ _).symm)
  | pop => exact absurd rfl hop

/-- **What a pop finds.** It gives out an element from in front of the marker, or the marker,
with nothing left in front of it. -/
theorem Deque.Marked.pop (h : d.Marked before x since) (happly : d.apply .pop = some d') :
    ∃ p, d'.out = d.out ++ [p] ∧
      ((p ∈ pushed before ++
            (pushedSince (before ++ [.pushBack x]) since).filter (fun p => !p.back) ∧
          d'.Marked before x (since ++ [Op.pop])) ∨
        (p = mark before x ∧
          d'.rest = (pushedSince (before ++ [.pushBack x]) since).filter Pushed.back ∧
          d.out.Perm (pushed before ++
            (pushedSince (before ++ [.pushBack x]) since).filter fun p => !p.back))) := by
  obtain ⟨inFront, hrest, hperm⟩ := h
  unfold Deque.apply at happly
  rw [hrest] at happly
  cases inFront with
  | nil =>
    obtain rfl := Option.some.inj happly
    exact ⟨_, rfl, .inr ⟨rfl, rfl, by simpa using hperm⟩⟩
  | cons p inFront =>
    obtain rfl := Option.some.inj happly
    have hnew : pushedSince (before ++ [.pushBack x]) (since ++ [Op.pop]) =
        pushedSince (before ++ [.pushBack x]) since := by
      rw [pushedSince_append]
      exact List.append_nil _
    refine ⟨p, rfl, .inl ⟨hperm.mem_iff.mp (by simp), inFront, by rw [hnew]; rfl, ?_⟩⟩
    rw [hnew]
    simpa using hperm

/-! ### What is in front -/

/-- The elements that have been pushed: those given out, in order, and those left. -/
def Deque.all (d : Deque E) : List (Pushed E) := d.out ++ d.rest

/-- The element and all that is or was in front of it are `good`. -/
def Deque.UpTo (d : Deque E) (good : E → Prop) (p : Pushed E) : Prop :=
  ∃ before after, d.all = before ++ p :: after ∧ ∀ q ∈ before ++ [p], good q.value

theorem mem_all_iff (hd : run ops = some d) {p : Pushed E} : p ∈ d.all ↔ p ∈ pushed ops :=
  (run_valid hd).perm.mem_iff

theorem nodup_all (hd : run ops = some d) : (d.all.map Pushed.ticket).Nodup :=
  ((run_valid hd).perm.map Pushed.ticket).nodup_iff.mpr (nodup_pushed ops)

/-- A pop gives out one element and leaves the order. -/
theorem Deque.apply_pop (h : d.apply .pop = some d') :
    (∃ p, d'.out = d.out ++ [p]) ∧ d'.all = d.all := by
  rw [Deque.apply] at h
  cases hrest : d.rest with
  | nil =>
    rw [hrest] at h
    cases h
  | cons p rest =>
    rw [hrest] at h
    obtain rfl := Option.some.inj h
    exact ⟨⟨p, rfl⟩, by rw [all, all, hrest, List.append_assoc, List.singleton_append]⟩

/-- Pops leave the order, pushes at the back add to its end. -/
theorem Deque.all_apply (h : d.apply op = some d') (hop : ∀ y, op ≠ .pushFront y) :
    ∃ l, d'.all = d.all ++ l := by
  cases op with
  | pushBack y =>
    obtain rfl := Option.some.inj h
    exact ⟨[⟨d.pushes, true, y⟩], (List.append_assoc _ _ _).symm⟩
  | pushFront y => exact absurd rfl (hop y)
  | pop => exact ⟨[], (Deque.apply_pop h).2.trans (List.append_nil _).symm⟩

theorem Deque.all_sublist (h : d.apply op = some d') : d.all.Sublist d'.all := by
  by_cases hop : ∃ y, op = .pushFront y
  · obtain ⟨y, rfl⟩ := hop
    obtain rfl := Option.some.inj h
    exact (List.Sublist.refl d.out).append (List.sublist_cons_self _ _)
  · obtain ⟨l, hl⟩ := Deque.all_apply h fun y hy => hop ⟨y, hy⟩
    rw [hl]
    exact List.sublist_append_left _ _

/-- In a list without repetition, what is in front of an element in a part of it is in front
of it in the whole. -/
theorem subset_of_sublist {A : Type*} {x : A} {b a b' a' : List A}
    (h : (b ++ x :: a).Sublist (b' ++ x :: a')) (hnd : (b' ++ x :: a').Nodup) : b ⊆ b' := by
  obtain ⟨l, r, hlr, hl, hr⟩ := List.append_sublist_iff.mp h
  have hx : x ∈ r := hr.subset List.mem_cons_self
  rw [hlr, List.nodup_append] at hnd
  obtain ⟨c, rfl, hc⟩ | ⟨c, rfl, -⟩ := List.append_eq_append_iff.mp hlr
  · cases c with
    | nil => simpa using hl.subset
    | cons y c =>
      obtain rfl : x = y := by simpa using congrArg List.head? hc
      exact absurd rfl (hnd.2.2 x (by simp) x hx)
  · exact fun y hy => List.mem_append_left c (hl.subset hy)

/-- **What is in front stays there**, and nothing but a push at the front comes in between. -/
theorem Deque.upTo_apply_iff (hd' : run ops = some d') (h : d.apply op = some d')
    {good : E → Prop} {p : Pushed E} (hp : p ∈ d.all)
    (hfront : ∀ y, op = .pushFront y → good y) : d'.UpTo good p ↔ d.UpTo good p := by
  constructor
  · rintro ⟨before', after', hall', hgood⟩
    obtain ⟨before, after, hall⟩ := List.append_of_mem hp
    have hsub := Deque.all_sublist h
    have hnd : d'.all.Nodup := (nodup_all hd').of_map _
    rw [hall, hall'] at hsub
    rw [hall'] at hnd
    have hbefore := subset_of_sublist hsub hnd
    refine ⟨before, after, hall, List.forall_mem_append.mpr ⟨fun q hq => ?_, ?_⟩⟩
    · exact hgood q (List.mem_append_left _ (hbefore hq))
    · exact fun q hq => hgood q (List.mem_append_right _ hq)
  · rintro ⟨before, after, hall, hgood⟩
    by_cases hop : ∃ y, op = .pushFront y
    · obtain ⟨y, rfl⟩ := hop
      obtain rfl := Option.some.inj h
      have hy : good y := hfront y rfl
      -- the new element comes in after those given out
      have hbetween : ∀ c, before = d.out ++ c → d.rest = c ++ p :: after →
          Deque.UpTo ⟨d.out, ⟨d.pushes, false, y⟩ :: d.rest, d.pushes + 1⟩ good p := by
        intro c hbefore hrest
        refine ⟨d.out ++ ⟨d.pushes, false, y⟩ :: c, after, by simp [all, hrest], fun q hq => ?_⟩
        have hcases : q = ⟨d.pushes, false, y⟩ ∨ q ∈ before ++ [p] := by
          simp only [hbefore, List.mem_append, List.mem_cons] at hq ⊢
          tauto
        obtain rfl | hq := hcases
        · exact hy
        · exact hgood q hq
      obtain ⟨c, hbefore, hrest⟩ | ⟨c, hout, hafter⟩ := List.append_eq_append_iff.mp hall
      · exact hbetween c hbefore hrest
      · cases c with
        | nil => exact hbetween [] (by simpa using hout.symm) hafter.symm
        | cons q c =>
          obtain ⟨rfl, rfl⟩ := List.cons_eq_cons.mp hafter
          exact ⟨before, c ++ ⟨d.pushes, false, y⟩ :: d.rest, by simp [all, hout], hgood⟩
    · obtain ⟨l, hl⟩ := Deque.all_apply h fun y hy => hop ⟨y, hy⟩
      exact ⟨before, after ++ l, by rw [hl, hall, List.append_assoc, List.cons_append], hgood⟩

end DequeHistory
