import Mathlib.Data.List.Nodup
import Mathlib.Data.List.Infix

/-!
# Traces of enter and exit marks

A trace of marks `enter x` and `exit x` brackets the times at which `x` is active.
`active x T` says that the latest mark of `x` in `T` is an `enter`. `NoReentry T` says
that between two `enter x` there is always an `exit x`; it is closed under prefixes.

A trace usually grows by a block of exits followed by a block of enters. The append
lemmas say what such a block does to `active` and when it keeps `NoReentry`: exits always
do, a block of enters does exactly when it has no repeats and enters inactive elements
only (`noReentry_append_enters`).
-/

namespace EnterExit

/-- One element is entered or left. -/
inductive Mark (X : Type*)
  | enter (x : X)
  | exit (x : X)
  deriving DecidableEq, Repr

variable {X : Type*}

/-- Between any two `enter x` there is an `exit x`. -/
def NoReentry (T : List (Mark X)) : Prop :=
  ∀ (x : X) (T₁ T₂ T₃ : List (Mark X)),
    T = T₁ ++ .enter x :: (T₂ ++ .enter x :: T₃) → .exit x ∈ T₂

theorem NoReentry.mono {T T' : List (Mark X)} (h : NoReentry T) (hT : T' <+: T) :
    NoReentry T' := by
  obtain ⟨R, rfl⟩ := hT
  intro x T₁ T₂ T₃ heq
  exact h x T₁ T₂ (T₃ ++ R) (by simp [heq])

theorem noReentry_nil : NoReentry ([] : List (Mark X)) := by
  intro x T₁ T₂ T₃ h
  simp at h

variable {x y : X} {T : List (Mark X)} {xs : List X}

theorem noReentry_concat_exit : NoReentry (T ++ [.exit x]) ↔ NoReentry T := by
  refine ⟨fun h => h.mono (List.prefix_append T _), fun h y T₁ T₂ T₃ heq => ?_⟩
  rcases T₃.eq_nil_or_concat' with rfl | ⟨T₃, m, rfl⟩
  · rw [← List.cons_append, ← List.append_assoc] at heq
    simpa using (List.append_inj' heq rfl).2
  · refine h y T₁ T₂ T₃ ?_
    have heq' : T ++ [.exit x] = (T₁ ++ .enter y :: (T₂ ++ .enter y :: T₃)) ++ [m] := by
      simpa using heq
    exact (List.append_inj' heq' rfl).1

theorem noReentry_append_exits : NoReentry (T ++ xs.map .exit) ↔ NoReentry T := by
  induction xs generalizing T with
  | nil => simp
  | cons y xs ih =>
    rw [List.map_cons, ← List.singleton_append, ← List.append_assoc, ih, noReentry_concat_exit]

variable [DecidableEq X]

/-- What a mark does to the activity of `x`. -/
def Mark.update (x : X) (b : Bool) : Mark X → Bool
  | .enter y => if y = x then true else b
  | .exit y => if y = x then false else b

/-- The latest mark of `x` is an `enter`. -/
def active (x : X) (T : List (Mark X)) : Bool := T.foldl (Mark.update x) false

@[simp]
theorem active_nil : active x [] = false := rfl

@[simp]
theorem active_concat_enter :
    active x (T ++ [.enter y]) = if y = x then true else active x T := by
  simp [active, Mark.update]

@[simp]
theorem active_concat_exit :
    active x (T ++ [.exit y]) = if y = x then false else active x T := by
  simp [active, Mark.update]

/-- An element is active when some `enter` of it is followed by no `exit`. -/
theorem active_iff : active x T = true ↔ ∃ T₁ T₂, T = T₁ ++ .enter x :: T₂ ∧ .exit x ∉ T₂ := by
  induction T using List.reverseRecOn with
  | nil => simp
  | append_singleton T m ih =>
    constructor
    · cases m with
      | enter y =>
        intro h
        by_cases hy : y = x
        · exact ⟨T, [], by rw [hy], by simp⟩
        · obtain ⟨T₁, T₂, rfl, hT₂⟩ := ih.mp (by simpa [hy] using h)
          exact ⟨T₁, T₂ ++ [.enter y], by simp, by simp [hT₂]⟩
      | exit y =>
        intro h
        by_cases hy : y = x
        · simp [hy] at h
        · obtain ⟨T₁, T₂, rfl, hT₂⟩ := ih.mp (by simpa [hy] using h)
          exact ⟨T₁, T₂ ++ [.exit y], by simp, by simp [hT₂, Ne.symm hy]⟩
    · rintro ⟨T₁, T₂, heq, hT₂⟩
      rcases T₂.eq_nil_or_concat' with rfl | ⟨T₂, m', rfl⟩
      · obtain ⟨-, hm⟩ := List.append_inj' heq rfl
        rw [List.singleton_inj.mp hm]
        simp
      · rw [← List.cons_append, ← List.append_assoc] at heq
        obtain ⟨hT, hm⟩ := List.append_inj' heq rfl
        obtain rfl := List.singleton_inj.mp hm
        have hact := ih.mpr ⟨T₁, T₂, hT, fun h => hT₂ (by simp [h])⟩
        cases m with
        | enter y => simp [hact]
        | exit y =>
          have hy : y ≠ x := by
            rintro rfl
            exact hT₂ (by simp)
          simp [hy, hact]

/-! ### Blocks of marks -/

theorem active_append_enters :
    active x (T ++ xs.map .enter) = (active x T || decide (x ∈ xs)) := by
  induction xs generalizing T with
  | nil => simp
  | cons y xs ih =>
    rw [List.map_cons, ← List.singleton_append, ← List.append_assoc, ih, active_concat_enter]
    by_cases hy : y = x
    · simp [hy]
    · simp [hy, Ne.symm hy]

theorem active_append_exits :
    active x (T ++ xs.map .exit) = (active x T && decide (x ∉ xs)) := by
  induction xs generalizing T with
  | nil => simp
  | cons y xs ih =>
    rw [List.map_cons, ← List.singleton_append, ← List.append_assoc, ih, active_concat_exit]
    by_cases hy : y = x
    · simp [hy]
    · simp [hy, Ne.symm hy]

/-- Entering once more is fine exactly for an inactive element. -/
theorem noReentry_concat_enter :
    NoReentry (T ++ [.enter x]) ↔ NoReentry T ∧ active x T = false := by
  constructor
  · intro h
    refine ⟨h.mono (List.prefix_append T _), Bool.eq_false_iff.mpr fun hact => ?_⟩
    obtain ⟨T₁, T₂, rfl, hT₂⟩ := active_iff.mp hact
    exact hT₂ (h x T₁ T₂ [] (by simp))
  · rintro ⟨h, hact⟩ y T₁ T₂ T₃ heq
    rcases T₃.eq_nil_or_concat' with rfl | ⟨T₃, m, rfl⟩
    · rw [← List.cons_append, ← List.append_assoc] at heq
      obtain ⟨rfl, hy⟩ := List.append_inj' heq rfl
      obtain rfl : x = y := by simpa using hy
      by_contra hexit
      rw [active_iff.mpr ⟨T₁, T₂, rfl, hexit⟩] at hact
      exact Bool.noConfusion hact
    · refine h y T₁ T₂ T₃ ?_
      have heq' : T ++ [.enter x] = (T₁ ++ .enter y :: (T₂ ++ .enter y :: T₃)) ++ [m] := by
        simpa using heq
      exact (List.append_inj' heq' rfl).1

/-- **A block of enters** keeps the trace free of re-entries exactly when it has no repeats
and enters inactive elements only. -/
theorem noReentry_append_enters :
    NoReentry (T ++ xs.map .enter) ↔
      NoReentry T ∧ xs.Nodup ∧ ∀ y ∈ xs, active y T = false := by
  induction xs generalizing T with
  | nil => simp
  | cons y xs ih =>
    rw [List.map_cons, ← List.singleton_append, ← List.append_assoc, ih, noReentry_concat_enter,
      List.nodup_cons]
    constructor
    · rintro ⟨⟨hT, hy⟩, hnd, hxs⟩
      have hyx : y ∉ xs := fun hmem => by simpa using hxs y hmem
      refine ⟨hT, ⟨hyx, hnd⟩, List.forall_mem_cons.mpr ⟨hy, fun z hz => ?_⟩⟩
      have hz' := hxs z hz
      rw [active_concat_enter] at hz'
      split at hz'
      · exact Bool.noConfusion hz'
      · exact hz'
    · rintro ⟨hT, ⟨hyx, hnd⟩, hxs⟩
      obtain ⟨hy, hxs⟩ := List.forall_mem_cons.mp hxs
      refine ⟨⟨hT, hy⟩, hnd, fun z hz => ?_⟩
      have hne : y ≠ z := fun h => hyx (h ▸ hz)
      rw [active_concat_enter, if_neg hne]
      exact hxs z hz

end EnterExit
