import EventFramework.ForMathlib.TracedProgram

/-!
# What callbacks see

A callback of a program reads the core. To speak about the cores that callbacks are called
with, `logged` replaces a callback by one that also writes down its core, in a log kept beside
the world; `unlog` forgets the log.

`Watched I Q m m'` relates a program to the same program with logged callbacks: from a core
that satisfies `I`, both do the same, the log only grows by cores that satisfy `I`, and the
program ends with a core satisfying `Q` when it returns, `I` when it fails. There is a rule for
each program former, and for a fixed invariant the relation is compositional
(`Watched.compositional`).
-/

namespace TracedProgram

variable {Γ ω C A B : Type}

/-- A callback that also writes down the core it is called with. -/
def logged (f : Callback Γ ω A) : Callback Γ (ω × List Γ) A := fun g w =>
  match f g w.1 with
  | .ok a w₁ => .ok a (w₁, w.2 ++ [g])
  | .error e w₁ => .error e (w₁, w.2 ++ [g])

/-- Forget the log. -/
def unlog (s : Traced Γ (ω × List Γ) C) : Traced Γ ω C where
  core := s.core
  world := s.world.1
  trace := s.trace

/-- Start a log. -/
def withLog (s : Traced Γ ω C) : Traced Γ (ω × List Γ) C where
  core := s.core
  world := (s.world, [])
  trace := s.trace

@[simp]
theorem unlog_withLog (s : Traced Γ ω C) : unlog (withLog s) = s := rfl

/-- From `s` to `s'` only cores that satisfy `I` are written down. -/
def SeesOnly (I : Γ → Prop) (s s' : Traced Γ (ω × List Γ) C) : Prop :=
  ∃ seen, s'.world.2 = s.world.2 ++ seen ∧ ∀ g ∈ seen, I g

namespace SeesOnly

variable {I : Γ → Prop} {s s₁ s₂ : Traced Γ (ω × List Γ) C}

theorem of_eq (h : s₁.world.2 = s.world.2) : SeesOnly I s s₁ :=
  ⟨[], h.trans (List.append_nil _).symm, by simp⟩

theorem trans (h₁ : SeesOnly I s s₁) (h₂ : SeesOnly I s₁ s₂) : SeesOnly I s s₂ := by
  obtain ⟨seen₁, hlog₁, hI₁⟩ := h₁
  obtain ⟨seen₂, hlog₂, hI₂⟩ := h₂
  refine ⟨seen₁ ++ seen₂, ?_, fun g hg => ?_⟩
  · rw [hlog₂, hlog₁, List.append_assoc]
  · exact (List.mem_append.mp hg).elim (hI₁ g) (hI₂ g)

/-- From an empty log, whatever is written down satisfies `I`. -/
theorem forall_mem {s : Traced Γ ω C} (h : SeesOnly I (withLog s) s₁) :
    ∀ g ∈ s₁.world.2, I g := by
  obtain ⟨seen, hlog, hI⟩ := h
  have hlog' : s₁.world.2 = seen := hlog
  rw [hlog']
  exact hI

end SeesOnly

/-- `Watched` from one state. -/
def WatchedFrom (I Q : Γ → Prop) (m : Prog Γ ω C A) (m' : Prog Γ (ω × List Γ) C A)
    (s : Traced Γ (ω × List Γ) C) : Prop :=
  match m' s with
  | .ok a s' => m (unlog s) = .ok a (unlog s') ∧ Q s'.core ∧ SeesOnly I s s'
  | .error e s' => m (unlog s) = .error e (unlog s') ∧ I s'.core ∧ SeesOnly I s s'

/-- The logged program `m'` does as `m` does, and its callbacks see cores that satisfy `I`. -/
def Watched (I Q : Γ → Prop) (m : Prog Γ ω C A) (m' : Prog Γ (ω × List Γ) C A) : Prop :=
  ∀ s, I s.core → WatchedFrom I Q m m' s

namespace WatchedFrom

variable {I Q : Γ → Prop} {m : Prog Γ ω C A} {m' : Prog Γ (ω × List Γ) C A}
  {s : Traced Γ (ω × List Γ) C}

/-- The log is all that is added. -/
theorem unlog_eq (h : WatchedFrom I Q m m' s) : stateOf (m (unlog s)) = unlog (stateOf (m' s)) := by
  unfold WatchedFrom at h
  cases hm : m' s with
  | ok a s' =>
    rw [hm] at h
    rw [h.1]
    rfl
  | error e s' =>
    rw [hm] at h
    rw [h.1]
    rfl

theorem seesOnly (h : WatchedFrom I Q m m' s) : SeesOnly I s (stateOf (m' s)) := by
  unfold WatchedFrom at h
  cases hm : m' s with
  | ok a s' =>
    rw [hm] at h
    exact h.2.2
  | error e s' =>
    rw [hm] at h
    exact h.2.2

/-- A failure leaves the invariant. -/
theorem of_error {s : Traced Γ ω C} {e : Failure} {s' : Traced Γ ω C}
    (h : WatchedFrom I Q m m' (withLog s)) (hm : m s = .error e s') : I s'.core := by
  unfold WatchedFrom at h
  rw [unlog_withLog] at h
  cases hm' : m' (withLog s) with
  | ok a s₁ =>
    rw [hm', hm] at h
    exact nomatch h.1
  | error e₁ s₁ =>
    rw [hm', hm] at h
    obtain ⟨-, rfl⟩ := EStateM.Result.error.inj h.1
    exact h.2.1

theorem of_ok {s : Traced Γ ω C} {a : A} {s' : Traced Γ ω C}
    (h : WatchedFrom I Q m m' (withLog s)) (hm : m s = .ok a s') : Q s'.core := by
  unfold WatchedFrom at h
  rw [unlog_withLog] at h
  cases hm' : m' (withLog s) with
  | ok a₁ s₁ =>
    rw [hm', hm] at h
    obtain ⟨-, rfl⟩ := EStateM.Result.ok.inj h.1
    exact h.2.1
  | error e₁ s₁ =>
    rw [hm', hm] at h
    exact nomatch h.1

/-- An invariant that is also kept on return holds however the program stops. -/
theorem stateOf_core {s : Traced Γ ω C} (h : WatchedFrom I I m m' (withLog s)) :
    I (stateOf (m s)).core := by
  cases hm : m s with
  | ok a s' => exact h.of_ok hm
  | error e s' => exact h.of_error hm

end WatchedFrom

namespace Watched

variable {I Q : Γ → Prop} {m : Prog Γ ω C A} {m' : Prog Γ (ω × List Γ) C A}
  {f : A → Prog Γ ω C B} {f' : A → Prog Γ (ω × List Γ) C B}

protected theorem pure (a : A) : Watched I I (pure a : Prog Γ ω C A) (pure a) := fun _ hI =>
  ⟨rfl, hI, .of_eq rfl⟩

protected theorem fail (e : Failure) : Watched I Q (fail e : Prog Γ ω C A) (fail e) := fun _ hI =>
  ⟨rfl, hI, .of_eq rfl⟩

protected theorem mark (c : C) : Watched I I (mark c : Prog Γ ω C Unit) (mark c) := fun _ hI =>
  ⟨rfl, hI, .of_eq rfl⟩

/-- **A callback** sees the core the program is in. -/
protected theorem call (c : C) (f : Callback Γ ω A) :
    Watched I I (call c f : Prog Γ ω C A) (call c (logged f)) := by
  intro s hI
  have hseen : ∀ g ∈ [s.core], I g := by simpa using hI
  unfold WatchedFrom TracedProgram.call logged
  cases hf : f s.core s.world.1 with
  | ok a w => exact ⟨by simp [unlog, hf], hI, [s.core], rfl, hseen⟩
  | error e w => exact ⟨by simp [unlog, hf], hI, [s.core], rfl, hseen⟩

/-- An optional callback, picked out of the object that holds it. -/
protected theorem callIfSet {H H' : Type} (c : C) (hook : Option H) {f : H → Callback Γ ω Unit}
    {lift : H → H'} {f' : H' → Callback Γ (ω × List Γ) Unit}
    (hf : ∀ x, f' (lift x) = logged (f x)) :
    Watched I I (callIfSet c (hook.map f)) (callIfSet c ((hook.map lift).map f')) := by
  cases hook with
  | none => exact Watched.pure ()
  | some x =>
    simp only [Option.map_some, TracedProgram.callIfSet, hf]
    exact Watched.call c (f x)

protected theorem bind (hm : Watched I I m m') (hf : ∀ a, Watched I Q (f a) (f' a)) :
    Watched I Q (m >>= f) (m' >>= f') := by
  intro s hI
  have hfirst := hm s hI
  unfold WatchedFrom at hfirst ⊢
  rw [bind_apply, bind_apply]
  cases hms : m' s with
  | error e s₁ =>
    rw [hms] at hfirst
    simp only [hfirst.1]
    exact ⟨trivial, hfirst.2⟩
  | ok a s₁ =>
    rw [hms] at hfirst
    obtain ⟨hmu, hI₁, hsees₁⟩ := hfirst
    have hrest := hf a s₁ hI₁
    unfold WatchedFrom at hrest
    simp only [hmu]
    cases hfs : f' a s₁ with
    | ok b s₂ =>
      rw [hfs] at hrest
      exact ⟨hrest.1, hrest.2.1, hsees₁.trans hrest.2.2⟩
    | error e s₂ =>
      rw [hfs] at hrest
      exact ⟨hrest.1, hrest.2.1, hsees₁.trans hrest.2.2⟩

/-- What is read satisfies the invariant. -/
theorem getCore_bind {f : Γ → Prog Γ ω C B} {f' : Γ → Prog Γ (ω × List Γ) C B}
    (hf : ∀ g, I g → Watched I Q (f g) (f' g)) : Watched I Q (getCore >>= f) (getCore >>= f') :=
  fun s hI => hf s.core hI s hI

protected theorem setCore {g : Γ} (hg : Q g) :
    Watched I Q (setCore g : Prog Γ ω C Unit) (setCore g) := fun _ _ => ⟨rfl, hg, .of_eq rfl⟩

theorem setCore_bind {g : Γ} (hg : I g) {f : Unit → Prog Γ ω C B}
    {f' : Unit → Prog Γ (ω × List Γ) C B} (hf : Watched I Q (f ()) (f' ())) :
    Watched I Q (setCore g >>= f) (setCore g >>= f') :=
  Watched.bind (Watched.setCore hg) fun _ => hf

/-- A loop over callbacks. -/
theorem forM_call {E : Type} (c : E → C) (f : E → Callback Γ ω PUnit) (is : List E) :
    Watched I I (forM is fun i => (call (c i) (f i) : Prog Γ ω C PUnit))
      (forM is fun i => call (c i) (logged (f i))) := by
  induction is with
  | nil => exact Watched.pure PUnit.unit
  | cons i is ih =>
    rw [List.forM_cons, List.forM_cons]
    exact Watched.bind (Watched.call (c i) (f i)) fun _ => ih

theorem compositional (I : Γ → Prop) :
    Compositional fun A (m : Prog Γ ω C A) (m' : Prog Γ (ω × List Γ) C A) => Watched I I m m' where
  pure := Watched.pure
  fail := Watched.fail
  bind := Watched.bind
  getCore_bind hf := getCore_bind fun g _ => hf g

end Watched

end TracedProgram
