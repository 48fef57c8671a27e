import Mathlib.Data.List.Infix

/-!
# Programs with user callbacks and a call trace

A program with private state `Γ` (its *core*) that calls user code is a state-and-failure
computation over three parts: the core, the `world` the callbacks act on, and a ghost
`trace` of the calls made so far. A callback reads the core, changes the world only, and may
throw; then the computation stops with `Failure.thrown` in the state reached so far.

`Runs m s L Q E` is the judgement the program logic works with. Started in `s`, the
computation `m` either returns after making exactly the calls `L`, with result and core
satisfying `Q`, or stops after some prefix of `L` with a failure and a core satisfying `E`.
`Quiet m L` is the case of a computation that leaves the core alone and stops early only
when a callback throws. The rules follow the program structure: `Runs.pure`, `Runs.bind`,
`Runs.setCore_bind`, `Quiet.call`, `Quiet.forM`.

`Emits p m` says much less, that `m` only makes calls of the kind `p`, and needs to know
nothing about the state it starts in. `Performs p m L` adds one list of calls to that: among
the calls of `m`, those of the kind `p` are `L`.

A relation between programs is `Compositional` when it goes through the program formers. What
a recursive program does can then be followed once for all such relations.
-/

namespace TracedProgram

/-- Why a computation stops without returning. -/
inductive Failure
  /-- an assertion of the program fails -/
  | assertion
  /-- a null pointer is followed or called -/
  | nullPointer
  /-- a loop does not end -/
  | diverged
  /-- a callback throws -/
  | thrown
  deriving DecidableEq, Repr

/-- Core state, world of the callbacks, and the calls made so far (oldest first). -/
@[ext]
structure Traced (Γ ω C : Type) where
  core : Γ
  world : ω
  trace : List C

/-- User code: it may look at the core, acts on the world, and returns or throws. -/
abbrev Callback (Γ ω A : Type) := Γ → EStateM Unit ω A

/-- Programs that call user code. -/
abbrev Prog (Γ ω C A : Type) := EStateM Failure (Traced Γ ω C) A

variable {Γ ω C A B : Type}

/-- The state a computation stops in, whether it returns or fails. -/
def stateOf : EStateM.Result Failure (Traced Γ ω C) A → Traced Γ ω C
  | .ok _ s => s
  | .error _ s => s

/-- Whether a computation returns. -/
def returns : EStateM.Result Failure (Traced Γ ω C) A → Bool
  | .ok _ _ => true
  | .error _ _ => false

theorem ok_of_returns {r : EStateM.Result Failure (Traced Γ ω C) Unit} (h : returns r = true) :
    r = .ok () (stateOf r) := by
  cases r with
  | ok _ s => rfl
  | error e s => exact nomatch h

/-! ### Primitive steps -/

/-- Record a call of the program's own. -/
def mark (c : C) : Prog Γ ω C Unit := fun s => .ok () { s with trace := s.trace ++ [c] }

/-- Run a callback, recording it as the call `c`. -/
def call (c : C) (f : Callback Γ ω A) : Prog Γ ω C A := fun s =>
  match f s.core s.world with
  | .ok a w => .ok a { s with world := w, trace := s.trace ++ [c] }
  | .error _ w => .error .thrown { s with world := w, trace := s.trace ++ [c] }

/-- Run an optional callback when it is set. -/
def callIfSet (c : C) : Option (Callback Γ ω Unit) → Prog Γ ω C Unit
  | none => pure ()
  | some f => call c f

/-- Read the core. -/
def getCore : Prog Γ ω C Γ := fun s => .ok s.core s

/-- Overwrite the core. -/
def setCore (g : Γ) : Prog Γ ω C Unit := fun s => .ok () { s with core := g }

/-- Stop with `f`. -/
def fail (f : Failure) : Prog Γ ω C A := fun s => .error f s

theorem bind_apply (m : Prog Γ ω C A) (f : A → Prog Γ ω C B) (s : Traced Γ ω C) :
    (m >>= f) s = match m s with
      | .ok a s' => f a s'
      | .error e s' => .error e s' := by
  cases hm : m s <;> simp [bind, EStateM.bind, hm]

@[simp]
theorem pure_apply (a : A) (s : Traced Γ ω C) : (pure a : Prog Γ ω C A) s = .ok a s := rfl

@[simp]
theorem getCore_bind_apply (f : Γ → Prog Γ ω C B) (s : Traced Γ ω C) :
    (getCore >>= f) s = f s.core s :=
  rfl

@[simp]
theorem setCore_bind_apply (g : Γ) (f : Unit → Prog Γ ω C B) (s : Traced Γ ω C) :
    (setCore g >>= f) s = f () { s with core := g } :=
  rfl

/-! ### The judgement -/

/-- From `s`, `m` makes exactly the calls `L` and returns with `Q`, or stops after a prefix
of `L` with a failure and a core satisfying `E`. -/
def Runs (m : Prog Γ ω C A) (s : Traced Γ ω C) (L : List C) (Q : A → Γ → Prop)
    (E : Failure → Γ → Prop) : Prop :=
  match m s with
  | .ok a s' => s'.trace = s.trace ++ L ∧ Q a s'.core
  | .error f s' => E f s'.core ∧ ∃ L', L' <+: L ∧ s'.trace = s.trace ++ L'

/-- `m` makes exactly the calls `L`, or throws after a prefix of them, and never changes the
core. -/
def Quiet (m : Prog Γ ω C A) (L : List C) : Prop :=
  ∀ s, Runs m s L (fun _ g => g = s.core) (fun f g => f = .thrown ∧ g = s.core)

namespace Runs

variable {m : Prog Γ ω C A} {f : A → Prog Γ ω C B} {s s' : Traced Γ ω C} {L L₁ L₂ : List C}
  {Q Q' : A → Γ → Prop} {R : B → Γ → Prop} {E E' : Failure → Γ → Prop} {a : A}

theorem of_ok (h : Runs m s L Q E) (hm : m s = .ok a s') :
    s'.trace = s.trace ++ L ∧ Q a s'.core := by
  rwa [Runs, hm] at h

theorem of_error {e : Failure} (h : Runs m s L Q E) (hm : m s = .error e s') :
    E e s'.core ∧ ∃ L', L' <+: L ∧ s'.trace = s.trace ++ L' := by
  rwa [Runs, hm] at h

/-- However it ends, a prefix of the calls has been made. -/
theorem stateOf_trace (h : Runs m s L Q E) :
    ∃ L', L' <+: L ∧ (stateOf (m s)).trace = s.trace ++ L' := by
  cases hm : m s with
  | ok a s' => exact ⟨L, List.prefix_rfl, (h.of_ok hm).1⟩
  | error e s' => exact (h.of_error hm).2

theorem mono (h : Runs m s L Q E) (hQ : ∀ a g, Q a g → Q' a g)
    (hE : ∀ f g, E f g → E' f g) : Runs m s L Q' E' := by
  unfold Runs at h ⊢
  split at h
  · exact ⟨h.1, hQ _ _ h.2⟩
  · exact ⟨hE _ _ h.1, h.2⟩

/-- The judgement is about the outcome and the calls made before. -/
protected theorem congr {m' : Prog Γ ω C A} (hm : m s = m' s') (htr : s'.trace = s.trace)
    (h : Runs m' s' L Q E) : Runs m s L Q E := by
  unfold Runs at h ⊢
  rwa [hm, ← htr]

protected theorem pure (h : Q a s.core) : Runs (pure a : Prog Γ ω C A) s [] Q E :=
  ⟨(List.append_nil _).symm, h⟩

/-- **Sequencing.** The calls of both parts follow each other; a throw in the first part
leaves a prefix of its calls, one in the second part all of the first and a prefix of the
second. -/
protected theorem bind (hm : Runs m s L₁ Q E)
    (hf : ∀ a s₁, m s = .ok a s₁ → Q a s₁.core → Runs (f a) s₁ L₂ R E) :
    Runs (m >>= f) s (L₁ ++ L₂) R E := by
  unfold Runs
  rw [bind_apply]
  cases hms : m s with
  | error e s₁ =>
    obtain ⟨hE, L', hpre, htr⟩ := hm.of_error hms
    exact ⟨hE, L', hpre.trans (List.prefix_append L₁ L₂), htr⟩
  | ok a s₁ =>
    obtain ⟨htr, hQ⟩ := hm.of_ok hms
    have hrest := hf a s₁ hms hQ
    simp only
    cases hfs : f a s₁ with
    | ok b s₂ =>
      obtain ⟨htr₂, hR⟩ := hrest.of_ok hfs
      exact ⟨by rw [htr₂, htr, List.append_assoc], hR⟩
    | error e s₂ =>
      obtain ⟨hE, L', hpre, htr₂⟩ := hrest.of_error hfs
      refine ⟨hE, L₁ ++ L', (List.prefix_append_right_inj L₁).mpr hpre, ?_⟩
      rw [htr₂, htr, List.append_assoc]

/-- A first part that is known to return. -/
theorem bind_ok {s₁ : Traced Γ ω C} (hm : m s = .ok a s₁) (htr : s₁.trace = s.trace ++ L₁)
    (hf : Runs (f a) s₁ L₂ R E) : Runs (m >>= f) s (L₁ ++ L₂) R E := by
  unfold Runs at hf ⊢
  rw [bind_apply, hm]
  simp only
  split at hf
  · exact ⟨by rw [hf.1, htr, List.append_assoc], hf.2⟩
  · obtain ⟨hE, L', hpre, htr'⟩ := hf
    exact ⟨hE, L₁ ++ L', (List.prefix_append_right_inj L₁).mpr hpre, by
      rw [htr', htr, List.append_assoc]⟩

/-- A first part that is known to fail. -/
theorem bind_error {s₁ : Traced Γ ω C} {e : Failure} (hm : m s = .error e s₁) (hpre : L₁ <+: L)
    (htr : s₁.trace = s.trace ++ L₁) (hE : E e s₁.core) : Runs (m >>= f) s L R E := by
  unfold Runs
  rw [bind_apply, hm]
  exact ⟨hE, L₁, hpre, htr⟩

/-- A first part that is known to return and makes no call. -/
theorem bind_of_ok {s₁ : Traced Γ ω C} (hm : m s = .ok a s₁) (htr : s₁.trace = s.trace)
    (hf : Runs (f a) s₁ L R E) : Runs (m >>= f) s L R E :=
  by simpa using bind_ok hm (htr.trans (List.append_nil _).symm) hf

/-- Overwriting the core makes no call. -/
theorem setCore_bind {g : Γ} {f : Unit → Prog Γ ω C B}
    (hf : Runs (f ()) { s with core := g } L R E) : Runs (setCore g >>= f) s L R E := hf

theorem getCore_bind {f : Γ → Prog Γ ω C B} (hf : Runs (f s.core) s L R E) :
    Runs (getCore >>= f) s L R E := hf

theorem setCore {g : Γ} {Q : Unit → Γ → Prop} (h : Q () g) :
    Runs (setCore g : Prog Γ ω C Unit) s [] Q E :=
  ⟨(List.append_nil _).symm, h⟩

end Runs

namespace Quiet

variable {m : Prog Γ ω C A} {f : A → Prog Γ ω C B} {L L₁ L₂ : List C} {s s' : Traced Γ ω C}
  {a : A}

theorem of_ok (h : Quiet m L) (hm : m s = .ok a s') :
    s'.trace = s.trace ++ L ∧ s'.core = s.core :=
  Runs.of_ok (h s) hm

theorem of_error {e : Failure} (h : Quiet m L) (hm : m s = .error e s') :
    (e = .thrown ∧ s'.core = s.core) ∧ ∃ L', L' <+: L ∧ s'.trace = s.trace ++ L' :=
  Runs.of_error (h s) hm

theorem runs (h : Quiet m L) {E : Failure → Γ → Prop} (hE : E .thrown s.core) :
    Runs m s L (fun _ g => g = s.core) E := by
  refine (h s).mono (fun _ _ hg => hg) ?_
  rintro f g ⟨rfl, rfl⟩
  exact hE

protected theorem pure (a : A) : Quiet (pure a : Prog Γ ω C A) [] := fun _ => Runs.pure rfl

protected theorem mark (c : C) : Quiet (mark c : Prog Γ ω C Unit) [c] := fun _ => ⟨rfl, rfl⟩

protected theorem call (c : C) (f : Callback Γ ω A) : Quiet (call c f : Prog Γ ω C A) [c] := by
  intro s
  unfold Runs TracedProgram.call
  cases f s.core s.world with
  | ok a w => exact ⟨rfl, rfl⟩
  | error e w => exact ⟨⟨rfl, rfl⟩, [c], List.prefix_rfl, rfl⟩

/-- The calls an optional callback contributes. -/
protected theorem callIfSet (c : C) (f : Option (Callback Γ ω Unit)) :
    Quiet (callIfSet c f : Prog Γ ω C Unit) (if f.isSome then [c] else []) := by
  cases f with
  | none => exact Quiet.pure ()
  | some f => exact Quiet.call c f

protected theorem bind (hm : Quiet m L₁) (hf : ∀ a, Quiet (f a) L₂) :
    Quiet (m >>= f) (L₁ ++ L₂) := by
  intro s
  refine Runs.bind (hm s) fun a s₁ _ hs₁ => ?_
  have hcore : s₁.core = s.core := hs₁
  exact (hf a s₁).mono (fun _ _ hg => hg.trans hcore) fun _ _ hg => ⟨hg.1, hg.2.trans hcore⟩

/-- **Iteration.** A quiet body run over a list makes the calls of each element in turn. -/
protected theorem forM {I : Type} {f : I → Prog Γ ω C PUnit} {calls : I → List C}
    (hf : ∀ i, Quiet (f i) (calls i)) (is : List I) :
    Quiet (forM is f) (is.flatMap calls) := by
  induction is with
  | nil => exact Quiet.pure PUnit.unit
  | cons i is ih =>
    rw [List.forM_cons, List.flatMap_cons]
    exact Quiet.bind (hf i) fun _ => ih

/-- A loop that makes one call for each element. -/
theorem forM_call {I : Type} (c : I → C) (f : I → Callback Γ ω PUnit) (is : List I) :
    Quiet (forM is fun i => (call (c i) (f i) : Prog Γ ω C PUnit)) (is.map c) := by
  have h := Quiet.forM (fun i => Quiet.call (c i) (f i)) is
  rwa [← List.map_eq_flatMap] at h

end Quiet

/-! ### Kinds of calls -/

/-- Whether or not it returns, `m` only makes calls that satisfy `p`. -/
def Emits (p : C → Prop) (m : Prog Γ ω C A) : Prop :=
  ∀ s, ∃ L, (stateOf (m s)).trace = s.trace ++ L ∧ ∀ c ∈ L, p c

namespace Emits

variable {p : C → Prop} {m : Prog Γ ω C A} {f : A → Prog Γ ω C B}

theorem of_ok {s s' : Traced Γ ω C} {a : A} (h : Emits p m) (hm : m s = .ok a s') :
    ∃ L, s'.trace = s.trace ++ L ∧ ∀ c ∈ L, p c := by
  simpa [hm, stateOf] using h s

/-- The calls of a computation that does not look at the core are known anyway. -/
theorem of_quiet {L : List C} (h : Quiet m L) (hL : ∀ c ∈ L, p c) : Emits p m := by
  intro s
  obtain ⟨L', hpre, htr⟩ := (h s).stateOf_trace
  exact ⟨L', htr, fun c hc => hL c (hpre.subset hc)⟩

protected theorem pure (a : A) : Emits p (pure a : Prog Γ ω C A) :=
  of_quiet (Quiet.pure a) (by simp)

protected theorem fail (e : Failure) : Emits p (fail e : Prog Γ ω C A) := fun s =>
  ⟨[], (List.append_nil s.trace).symm, by simp⟩

protected theorem setCore (g : Γ) : Emits p (setCore g : Prog Γ ω C Unit) := fun s =>
  ⟨[], (List.append_nil s.trace).symm, by simp⟩

protected theorem call {c : C} (f : Callback Γ ω A) (hc : p c) :
    Emits p (call c f : Prog Γ ω C A) :=
  of_quiet (Quiet.call c f) (by simpa using hc)

protected theorem callIfSet {c : C} (f : Option (Callback Γ ω Unit)) (hc : p c) :
    Emits p (callIfSet c f : Prog Γ ω C Unit) :=
  of_quiet (Quiet.callIfSet c f) fun _ hc' => by
    rw [List.mem_ite_nil_right, List.mem_singleton] at hc'
    exact hc'.2 ▸ hc

protected theorem bind (hm : Emits p m) (hf : ∀ a, Emits p (f a)) : Emits p (m >>= f) := by
  intro s
  obtain ⟨L, htr, hL⟩ := hm s
  rw [bind_apply]
  cases hms : m s with
  | error e s₁ =>
    rw [hms] at htr
    exact ⟨L, htr, hL⟩
  | ok a s₁ =>
    rw [hms] at htr
    obtain ⟨L', htr', hL'⟩ := hf a s₁
    have htr₁ : s₁.trace = s.trace ++ L := htr
    refine ⟨L ++ L', ?_, fun c hc => (List.mem_append.mp hc).elim (hL c) (hL' c)⟩
    rw [← List.append_assoc, ← htr₁]
    exact htr'

theorem getCore_bind {f : Γ → Prog Γ ω C B} (hf : ∀ g, Emits p (f g)) :
    Emits p (getCore >>= f) := fun s => hf s.core s

theorem setCore_bind {g : Γ} {f : Unit → Prog Γ ω C B} (hf : Emits p (f ())) :
    Emits p (setCore g >>= f) := Emits.bind (Emits.setCore g) fun _ => hf

theorem mono {q : C → Prop} (h : Emits p m) (hpq : ∀ c, p c → q c) : Emits q m := by
  intro s
  obtain ⟨L, htr, hL⟩ := h s
  exact ⟨L, htr, fun c hc => hpq c (hL c hc)⟩

end Emits

/-- Among the calls of `m`, those of the kind `p` are `L` when it returns, else a prefix. -/
def Performs (p : C → Bool) (m : Prog Γ ω C A) (L : List C) : Prop :=
  ∀ s, ∃ L', (stateOf (m s)).trace = s.trace ++ L' ∧ L'.filter p <+: L ∧
    (returns (m s) = true → L'.filter p = L)

namespace Performs

variable {p : C → Bool} {m : Prog Γ ω C A} {f : A → Prog Γ ω C B} {L L₁ L₂ : List C}

theorem of_quiet (h : Quiet m L) : Performs p m (L.filter p) := by
  intro s
  cases hms : m s with
  | ok a s' => exact ⟨L, (h.of_ok hms).1, List.prefix_rfl, fun _ => rfl⟩
  | error e s' =>
    obtain ⟨-, L', hpre, htr⟩ := h.of_error hms
    exact ⟨L', htr, hpre.filter p, fun hreturns => nomatch hreturns⟩

protected theorem fail (e : Failure) : Performs p (fail e : Prog Γ ω C A) L := fun s =>
  ⟨[], (List.append_nil s.trace).symm, List.nil_prefix, fun hreturns => nomatch hreturns⟩

protected theorem bind (hm : Performs p m L₁) (hf : ∀ a, Performs p (f a) L₂) :
    Performs p (m >>= f) (L₁ ++ L₂) := by
  intro s
  obtain ⟨L', htr, hpre, heq⟩ := hm s
  rw [bind_apply]
  cases hms : m s with
  | error e s₁ =>
    rw [hms] at htr
    exact ⟨L', htr, hpre.trans (List.prefix_append L₁ L₂), fun hreturns => nomatch hreturns⟩
  | ok a s₁ =>
    rw [hms] at htr heq
    obtain ⟨L'', htr', hpre', heq'⟩ := hf a s₁
    have htr₁ : s₁.trace = s.trace ++ L' := htr
    have hL' : L'.filter p = L₁ := heq rfl
    refine ⟨L' ++ L'', ?_, ?_, fun hreturns => ?_⟩
    · rw [← List.append_assoc, ← htr₁]
      exact htr'
    · rw [List.filter_append, hL']
      exact (List.prefix_append_right_inj L₁).mpr hpre'
    · rw [List.filter_append, hL', heq' hreturns]

theorem getCore_bind {f : Γ → Prog Γ ω C B} (hf : ∀ g, Performs p (f g) L) :
    Performs p (getCore >>= f) L := fun s => hf s.core s

theorem setCore_bind {g : Γ} {f : Unit → Prog Γ ω C B} (hf : Performs p (f ()) L) :
    Performs p (setCore g >>= f) L := fun s => hf { s with core := g }

end Performs

/-! ### Relations that follow the program formers -/

/-- A relation between programs over two worlds that goes through the program formers. With
the second program left out it is a property of programs. -/
structure Compositional {ω' : Type} (J : ∀ A : Type, Prog Γ ω C A → Prog Γ ω' C A → Prop) :
    Prop where
  pure : ∀ {A : Type} (a : A), J A (pure a) (pure a)
  fail : ∀ {A : Type} (e : Failure), J A (fail e) (fail e)
  bind : ∀ {A B : Type} {m : Prog Γ ω C A} {m' : Prog Γ ω' C A} {f : A → Prog Γ ω C B}
    {f' : A → Prog Γ ω' C B}, J A m m' → (∀ a, J B (f a) (f' a)) → J B (m >>= f) (m' >>= f')
  getCore_bind : ∀ {B : Type} {f : Γ → Prog Γ ω C B} {f' : Γ → Prog Γ ω' C B},
    (∀ g, J B (f g) (f' g)) → J B (getCore >>= f) (getCore >>= f')

theorem Emits.compositional (p : C → Prop) :
    Compositional fun A (m : Prog Γ ω C A) (_ : Prog Γ ω C A) => Emits p m where
  pure := Emits.pure
  fail := Emits.fail
  bind := Emits.bind
  getCore_bind := Emits.getCore_bind

end TracedProgram
