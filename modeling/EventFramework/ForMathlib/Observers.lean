import EventFramework.ForMathlib.TracedProgram

/-!
# Observers

A callback is an *observer* when it cannot throw and only writes to a log `Λ` of its own,
which no other callback reads: it may look at the core and at the world. `beside` is a
callback of the program proper, which leaves the log alone.

`Erases keep m m'` compares a program `m` without observers to the same program `m'` with
them: whatever state `m'` is started in, it ends as `m` does from the state in which the log
and the calls that are not kept are forgotten. There is a rule for each program former, and
the call of an observer erases to nothing (`Erases.observe`).
-/

namespace TracedProgram

variable {Γ ω Λ C A B : Type}

/-- A callback that does not touch the log. -/
def beside (f : Callback Γ ω A) : Callback Γ (ω × Λ) A := fun g w =>
  match f g w.1 with
  | .ok a w₁ => .ok a (w₁, w.2)
  | .error e w₁ => .error e (w₁, w.2)

/-- A callback that only writes the log. -/
def observer (o : Γ → ω → Λ → Λ) : Callback Γ (ω × Λ) Unit := fun g w =>
  .ok () (w.1, o g w.1 w.2)

/-- Forget the log and the calls that are not kept. -/
def erase (keep : C → Bool) (s : Traced Γ (ω × Λ) C) : Traced Γ ω C where
  core := s.core
  world := s.world.1
  trace := s.trace.filter keep

/-- The outcome of a computation, in the erased state. -/
def eraseResult (keep : C → Bool) :
    EStateM.Result Failure (Traced Γ (ω × Λ) C) A → EStateM.Result Failure (Traced Γ ω C) A
  | .ok a s => .ok a (erase keep s)
  | .error e s => .error e (erase keep s)

@[simp]
theorem stateOf_eraseResult (keep : C → Bool)
    (r : EStateM.Result Failure (Traced Γ (ω × Λ) C) A) :
    stateOf (eraseResult keep r) = erase keep (stateOf r) := by
  cases r <;> rfl

/-- The program `m` does what `m'` does, but for the log and the calls that are not kept. -/
def Erases (keep : C → Bool) (m : Prog Γ ω C A) (m' : Prog Γ (ω × Λ) C A) : Prop :=
  ∀ s, m (erase keep s) = eraseResult keep (m' s)

namespace Erases

variable {keep : C → Bool} {m : Prog Γ ω C A} {m' : Prog Γ (ω × Λ) C A}
  {f : A → Prog Γ ω C B} {f' : A → Prog Γ (ω × Λ) C B} {c : C}

protected theorem pure (a : A) :
    Erases keep (pure a : Prog Γ ω C A) (pure a : Prog Γ (ω × Λ) C A) := fun _ => rfl

protected theorem fail (e : Failure) :
    Erases keep (fail e : Prog Γ ω C A) (fail e : Prog Γ (ω × Λ) C A) := fun _ => rfl

protected theorem setCore (g : Γ) :
    Erases keep (setCore g : Prog Γ ω C Unit) (setCore g : Prog Γ (ω × Λ) C Unit) := fun _ => rfl

protected theorem bind (hm : Erases keep m m') (hf : ∀ a, Erases keep (f a) (f' a)) :
    Erases keep (m >>= f) (m' >>= f') := by
  intro s
  rw [bind_apply, bind_apply, hm s]
  cases m' s with
  | ok a s₁ => exact hf a s₁
  | error e s₁ => rfl

theorem getCore_bind {f : Γ → Prog Γ ω C B} {f' : Γ → Prog Γ (ω × Λ) C B}
    (hf : ∀ g, Erases keep (f g) (f' g)) : Erases keep (getCore >>= f) (getCore >>= f') :=
  fun s => hf s.core s

theorem compositional (keep : C → Bool) :
    Compositional fun A (m : Prog Γ ω C A) (m' : Prog Γ (ω × Λ) C A) => Erases keep m m' where
  pure := Erases.pure
  fail := Erases.fail
  bind := Erases.bind
  getCore_bind := getCore_bind

/-- A kept entry at the end of a trace is kept. -/
private theorem filter_concat (hc : keep c = true) (T : List C) :
    (T ++ [c]).filter keep = T.filter keep ++ [c] := by
  rw [List.filter_append, List.filter_singleton, hc, cond_true]

protected theorem mark (hc : keep c = true) :
    Erases keep (mark c : Prog Γ ω C Unit) (mark c : Prog Γ (ω × Λ) C Unit) := by
  intro s
  have htrace := filter_concat hc s.trace
  simp only [TracedProgram.mark, erase, eraseResult, htrace]

/-- A callback of the program proper. -/
protected theorem call (hc : keep c = true) (f : Callback Γ ω A) :
    Erases keep (call c f) (call c (beside f : Callback Γ (ω × Λ) A)) := by
  intro s
  have htrace := filter_concat hc s.trace
  unfold TracedProgram.call beside
  cases hf : f s.core s.world.1 with
  | ok a w => simp only [erase, eraseResult, htrace, hf]
  | error e w => simp only [erase, eraseResult, htrace, hf]

/-- **An observer erases to nothing.** -/
theorem observe (hc : keep c = false) (o : Γ → ω → Λ → Λ) :
    Erases keep (pure ()) (call c (observer o)) := by
  intro s
  have htrace : (s.trace ++ [c]).filter keep = s.trace.filter keep := by
    rw [List.filter_append, List.filter_singleton, hc, cond_false, List.append_nil]
  simp only [TracedProgram.call, observer, erase, eraseResult, pure_apply, htrace]

/-- An optional callback of the program proper. -/
theorem callIfSet {H H' : Type} (hc : keep c = true) (hook : Option H)
    {f : H → Callback Γ ω Unit} {lift : H → H'} {f' : H' → Callback Γ (ω × Λ) Unit}
    (hf : ∀ x, f' (lift x) = beside (f x)) :
    Erases keep (callIfSet c (hook.map f)) (callIfSet c ((hook.map lift).map f')) := by
  cases hook with
  | none => exact Erases.pure ()
  | some x =>
    simp only [Option.map_some, TracedProgram.callIfSet, hf]
    exact Erases.call hc (f x)

/-- An optional observer in the place of no callback. -/
theorem observeIfSet {H H' : Type} (hc : keep c = false) {unset : Option (Callback Γ ω Unit)}
    (hunset : unset = none) (hook : Option H) {lift : H → H'}
    {f' : H' → Callback Γ (ω × Λ) Unit} {o : H → Γ → ω → Λ → Λ}
    (hf : ∀ x, f' (lift x) = observer (o x)) :
    Erases keep (TracedProgram.callIfSet c unset)
      (TracedProgram.callIfSet c ((hook.map lift).map f')) := by
  rw [hunset]
  cases hook with
  | none => exact Erases.pure ()
  | some x =>
    simp only [Option.map_some, TracedProgram.callIfSet, hf]
    exact observe hc (o x)

/-- A loop over callbacks of the program proper. -/
theorem forM_call {E : Type} {c : E → C} (hc : ∀ i, keep (c i) = true)
    (f : E → Callback Γ ω PUnit) (is : List E) :
    Erases keep (forM is fun i => (TracedProgram.call (c i) (f i) : Prog Γ ω C PUnit))
      (forM is fun i => TracedProgram.call (c i) (beside (f i) : Callback Γ (ω × Λ) PUnit)) := by
  induction is with
  | nil => exact Erases.pure PUnit.unit
  | cons i is ih =>
    rw [List.forM_cons, List.forM_cons]
    exact Erases.bind (Erases.call (hc i) (f i)) fun _ => ih

end Erases

end TracedProgram
