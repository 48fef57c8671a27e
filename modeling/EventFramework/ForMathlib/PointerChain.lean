import Mathlib.Data.List.Nodup
import Mathlib.Logic.Function.Basic

/-!
# Pointer chains

A family of records linked by one optional pointer each is a partial function
`next : X → Option X`. `Seg next a b l` says that following `next` from the pointer `a`
visits exactly the records `l`, in this order, and arrives at the pointer `b`. Null is
`none`, so `Seg next a none l` is a null-terminated chain.

The file has what walks over such chains need: composition and splitting at a visited
record, determinism and absence of repeats for null-terminated chains, and the frame law
(writing the pointers of records off the chain leaves it alone), with the two writes that
lengthen a chain, at its front (`Seg.push`) and at its end (`Seg.concat`), and the one that makes
a cycle of it (`Seg.push_cycle`). `follow next n a`
computes the first `n` records of a chain, hence all of it when `n` is large enough
(`follow_eq_of_seg`).
-/

namespace PointerChain

variable {X : Type*} {next next' : X → Option X}

/-- Following `next` from `a` visits exactly `l` and arrives at `b`. -/
inductive Seg (next : X → Option X) : Option X → Option X → List X → Prop
  | nil (a : Option X) : Seg next a a []
  | cons {x : X} {b : Option X} {l : List X} :
      Seg next (next x) b l → Seg next (some x) b (x :: l)

/-- The first `n` records of the chain that starts at a pointer. -/
def follow (next : X → Option X) : ℕ → Option X → List X
  | 0, _ => []
  | _ + 1, none => []
  | n + 1, some x => x :: follow next n (next x)

namespace Seg

variable {a b c : Option X} {l m : List X} {x : X}

@[simp]
theorem nil_iff : Seg next a b [] ↔ a = b :=
  ⟨fun h => by cases h; rfl, fun h => h ▸ .nil a⟩

@[simp]
theorem cons_iff : Seg next a b (x :: l) ↔ a = some x ∧ Seg next (next x) b l := by
  refine ⟨fun h => ?_, fun ⟨ha, h⟩ => ha ▸ .cons h⟩
  cases h with
  | cons h => exact ⟨rfl, h⟩

/-! ### Composition and splitting -/

theorem append_iff : Seg next a b (l ++ m) ↔ ∃ c, Seg next a c l ∧ Seg next c b m := by
  induction l generalizing a with
  | nil => simp
  | cons y l ih => simp [ih, and_assoc]

theorem append (h₁ : Seg next a b l) (h₂ : Seg next b c m) : Seg next a c (l ++ m) :=
  append_iff.mpr ⟨b, h₁, h₂⟩

/-- A chain splits in front of any record it visits. -/
theorem split (h : Seg next a b (l ++ x :: m)) :
    Seg next a (some x) l ∧ Seg next (some x) b (x :: m) := by
  obtain ⟨c, h₁, h₂⟩ := append_iff.mp h
  have hc : c = some x := (cons_iff.mp h₂).1
  exact ⟨hc ▸ h₁, hc ▸ h₂⟩

/-! ### Null-terminated chains -/

theorem eq_nil_of_none (h : Seg next none b l) : l = [] ∧ b = none := by
  cases h
  exact ⟨rfl, rfl⟩

/-- **Determinism.** The records on the way to null are determined by the start. -/
theorem unique (h₁ : Seg next a none l) (h₂ : Seg next a none m) : l = m := by
  induction l generalizing a m with
  | nil =>
    have ha : a = none := nil_iff.mp h₁
    subst ha
    exact (eq_nil_of_none h₂).1.symm
  | cons x l ih =>
    obtain ⟨rfl, hl⟩ := cons_iff.mp h₁
    cases m with
    | nil => simp at h₂
    | cons y m =>
      obtain ⟨hy, hm⟩ := cons_iff.mp h₂
      obtain rfl : x = y := Option.some.inj hy
      rw [ih hl hm]

/-- **No repeats.** A chain that reaches null visits no record twice: two visits of one
record would continue in the same way, with different lengths left to go. -/
theorem nodup (h : Seg next a none l) : l.Nodup := by
  induction l generalizing a with
  | nil => exact List.nodup_nil
  | cons x l ih =>
    obtain ⟨rfl, htail⟩ := cons_iff.mp h
    refine List.nodup_cons.mpr ⟨fun hx => ?_, ih htail⟩
    obtain ⟨l₁, l₂, rfl⟩ := List.append_of_mem hx
    have hlen := congrArg List.length (unique h (split htail).2)
    simp at hlen
    omega

/-- **Frame.** Pointers of records off the chain do not matter. -/
theorem congr (hn : ∀ y ∈ l, next' y = next y) (h : Seg next a b l) : Seg next' a b l := by
  induction h with
  | nil => exact .nil _
  | @cons x b l _ ih =>
    refine .cons ?_
    rw [hn x List.mem_cons_self]
    exact ih fun y hy => hn y (List.mem_cons_of_mem x hy)

/-! ### Writing pointers -/

section Write

variable [DecidableEq X] {v : Option X} {y : X}

theorem update_of_not_mem (hx : x ∉ l) (h : Seg next a b l) :
    Seg (Function.update next x v) a b l := by
  refine h.congr fun y hy => Function.update_of_ne ?_ _ _
  rintro rfl
  exact hx hy

/-- **Push.** A record off the chain is put in front of it. -/
theorem push (h : Seg next a none l) (hx : x ∉ l) :
    Seg (Function.update next x a) (some x) none (x :: l) := by
  refine .cons ?_
  rw [Function.update_self]
  exact h.update_of_not_mem hx

/-- **A cycle.** A record of the chain that is put in front of it again is reached again. -/
theorem push_cycle (h : Seg next a none (l ++ x :: m)) :
    Seg (Function.update next x a) (some x) (some x) (x :: l) := by
  have hx : x ∉ l := fun hx => (List.nodup_append'.mp h.nodup).2.2 hx List.mem_cons_self
  refine .cons ?_
  rw [Function.update_self]
  exact h.split.1.update_of_not_mem hx

/-- **Append.** A record off the chain whose pointer is null is put behind the last one. -/
theorem concat (h : Seg next a none (l ++ [x])) (hy : y ∉ l ++ [x]) (hnull : next y = none) :
    Seg (Function.update next x (some y)) a none (l ++ [x] ++ [y]) := by
  have hx : x ∉ l := fun hx => (List.nodup_append.mp h.nodup).2.2 x hx x (by simp) rfl
  have hyx : y ≠ x := by
    rintro rfl
    simp at hy
  rw [List.append_assoc]
  refine ((split h).1.update_of_not_mem hx).append (.cons ?_)
  rw [Function.update_self]
  refine .cons ?_
  rw [Function.update_of_ne hyx, hnull]
  exact .nil none

end Write

end Seg

/-- Enough rounds list the whole of a null-terminated chain. -/
theorem follow_eq_of_seg {a : Option X} {l : List X} (h : Seg next a none l) :
    ∀ n, l.length ≤ n → follow next n a = l := by
  intro n hn
  induction l generalizing a n with
  | nil =>
    obtain rfl : a = none := Seg.nil_iff.mp h
    cases n <;> rfl
  | cons x l ih =>
    obtain ⟨rfl, hl⟩ := Seg.cons_iff.mp h
    cases n with
    | zero => simp at hn
    | succ n => rw [follow, ih hl n (by simpa using hn)]

/-- **Termination.** A chain along which a bounded measure grows reaches null. -/
theorem exists_seg_of_measure (m : X → ℕ) (N : ℕ) (hN : ∀ x, m x ≤ N)
    (hm : ∀ x y, next x = some y → m x < m y) (a : Option X) : ∃ l, Seg next a none l := by
  -- induction on the distance to the bound
  have key : ∀ k x, N - m x ≤ k → ∃ l, Seg next (some x) none l := by
    intro k
    induction k with
    | zero =>
      intro x hx
      cases hy : next x with
      | none => exact ⟨[x], .cons (by rw [hy]; exact .nil none)⟩
      | some y =>
        have h₁ := hm x y hy
        have h₂ := hN y
        omega
    | succ k ih =>
      intro x hx
      cases hy : next x with
      | none => exact ⟨[x], .cons (by rw [hy]; exact .nil none)⟩
      | some y =>
        have h₁ := hm x y hy
        have h₂ := hN y
        obtain ⟨l, hl⟩ := ih y (by omega)
        exact ⟨x :: l, .cons (by rw [hy]; exact hl)⟩
  cases a with
  | none => exact ⟨[], .nil none⟩
  | some x => exact key _ x (Nat.le_refl _)

end PointerChain
