import EventFramework.ForMathlib.TracedProgram

/-!
# Programs that do what their calls do

Most programs that call user code only decide which calls to make. What they do to the world
is what these calls do, carried out one after the other: `replay perform calls`, where
`perform` says what a single call does to the world.

`Replays perform I K m` is this judgement. As long as the core satisfies `I`, `m` does to the
world what its own calls do, and it leaves a core satisfying `K`. The rules follow the program
formers. Together with `Runs`, which says which calls `m` makes, the judgement determines how
`m` ends and the world it leaves (`Replays.outcome`), so two programs over different cores with
the same calls can be compared.
-/

namespace TracedProgram

variable {Γ ω C D A B : Type}

/-- What a list of calls does to the world. -/
def replay (perform : C → EStateM Unit ω Unit) (calls : List C) : EStateM Unit ω Unit :=
  forM calls perform

section

variable {perform : C → EStateM Unit ω Unit} {L L₁ L₂ : List C} {w w₁ : ω}

@[simp]
theorem replay_nil (w : ω) : replay perform [] w = .ok () w := rfl

theorem replay_cons (c : C) (L : List C) (w : ω) :
    replay perform (c :: L) w = match perform c w with
      | .ok _ w => replay perform L w
      | .error e w => .error e w := by
  rw [replay, List.forM_cons]
  simp only [bind, EStateM.bind]
  cases perform c w <;> rfl

theorem replay_singleton (c : C) (w : ω) : replay perform [c] w = perform c w := by
  rw [replay_cons]
  cases perform c w <;> rfl

theorem replay_append (L₁ L₂ : List C) (w : ω) :
    replay perform (L₁ ++ L₂) w = match replay perform L₁ w with
      | .ok _ w => replay perform L₂ w
      | .error e w => .error e w := by
  induction L₁ generalizing w with
  | nil => rfl
  | cons c L₁ ih =>
    rw [List.cons_append, replay_cons, replay_cons]
    cases perform c w with
    | ok _ w₁ => exact ih w₁
    | error e w₁ => rfl

/-- A list of calls that throws throws whatever is to follow. -/
theorem replay_error_mono {e : Unit} (hpre : L₁ <+: L)
    (h : replay perform L₁ w = .error e w₁) : replay perform L w = .error e w₁ := by
  obtain ⟨L₂, rfl⟩ := hpre
  rw [replay_append, h]

/-- Calls without an effect can be left out in front. -/
theorem replay_idle_append (hidle : ∀ c ∈ L₁, perform c = pure ()) :
    replay perform (L₁ ++ L₂) w = replay perform L₂ w := by
  induction L₁ with
  | nil => rfl
  | cons c L₁ ih =>
    obtain ⟨hc, hL₁⟩ := List.forall_mem_cons.mp hidle
    rw [List.cons_append, replay_cons, hc]
    exact ih hL₁

/-- Calls without an effect can be left out at the end. -/
theorem replay_append_idle (hidle : ∀ c ∈ L₂, perform c = pure ()) :
    replay perform (L₁ ++ L₂) w = replay perform L₁ w := by
  have hnone : ∀ w, replay perform L₂ w = .ok () w := by
    intro w
    rw [← List.append_nil L₂, replay_idle_append hidle, replay_nil]
  rw [replay_append]
  cases replay perform L₁ w with
  | ok _ w₁ => exact hnone w₁
  | error e w₁ => rfl

/-- Renaming the calls. -/
theorem replay_map {perform' : D → EStateM Unit ω Unit} {f : D → C} {L : List D}
    (hf : ∀ c, perform (f c) = perform' c) : replay perform (L.map f) w = replay perform' L w := by
  induction L generalizing w with
  | nil => rfl
  | cons c L ih =>
    rw [List.map_cons, replay_cons, replay_cons, hf]
    cases perform' c w with
    | ok _ w₁ => exact ih
    | error e w₁ => rfl

end

/-- As long as the core satisfies `I`, `m` does to the world what its calls do, and ends with a
core satisfying `K`. -/
def Replays (perform : C → EStateM Unit ω Unit) (I K : Γ → Prop) (m : Prog Γ ω C A) : Prop :=
  ∀ s, I s.core → ∃ L, (stateOf (m s)).trace = s.trace ++ L ∧
    match m s with
    | .ok _ s' => replay perform L s.world = .ok () s'.world ∧ K s'.core
    | .error f s' => f = .thrown → replay perform L s.world = .error () s'.world

namespace Replays

variable {perform : C → EStateM Unit ω Unit} {I K K' : Γ → Prop} {m : Prog Γ ω C A}
  {f : A → Prog Γ ω C B}

protected theorem pure (hK : ∀ g, I g → K g) (a : A) :
    Replays perform I K (pure a : Prog Γ ω C A) := fun s hI =>
  ⟨[], (List.append_nil s.trace).symm, rfl, hK s.core hI⟩

protected theorem fail {e : Failure} (he : e ≠ .thrown) :
    Replays perform I K (fail e : Prog Γ ω C A) := fun s _ =>
  ⟨[], (List.append_nil s.trace).symm, fun h => absurd h he⟩

protected theorem setCore {g : Γ} (hg : K g) :
    Replays perform I K (setCore g : Prog Γ ω C Unit) := fun s _ =>
  ⟨[], (List.append_nil s.trace).symm, rfl, hg⟩

/-- A record of the program's own. -/
protected theorem mark {c : C} (hc : perform c = pure ()) :
    Replays perform I I (mark c : Prog Γ ω C Unit) := fun s hI =>
  ⟨[c], rfl, by rw [replay_singleton, hc]; rfl, hI⟩

/-- A callback that does what `perform` says. -/
protected theorem call {c : C} {f : Callback Γ ω Unit} (hf : ∀ g, I g → f g = perform c) :
    Replays perform I I (call c f) := by
  intro s hI
  unfold call
  rw [hf s.core hI]
  cases hc : perform c s.world with
  | ok _ w => exact ⟨[c], rfl, by rw [replay_singleton, hc], hI⟩
  | error e w => exact ⟨[c], rfl, fun _ => by rw [replay_singleton, hc]⟩

protected theorem bind (hm : Replays perform I K m) (hf : ∀ a, Replays perform K K' (f a)) :
    Replays perform I K' (m >>= f) := by
  intro s hI
  obtain ⟨L, htr, hres⟩ := hm s hI
  rw [bind_apply]
  cases hms : m s with
  | error e s₁ =>
    rw [hms] at htr hres
    exact ⟨L, htr, hres⟩
  | ok a s₁ =>
    rw [hms] at htr hres
    obtain ⟨hworld, hK⟩ := hres
    obtain ⟨L', htr', hres'⟩ := hf a s₁ hK
    have htr₁ : s₁.trace = s.trace ++ L := htr
    refine ⟨L ++ L', ?_, ?_⟩
    · rw [← List.append_assoc, ← htr₁]
      exact htr'
    · rw [replay_append, hworld]
      exact hres'

theorem getCore_bind {f : Γ → Prog Γ ω C B} (hf : ∀ g, I g → Replays perform I K (f g)) :
    Replays perform I K (getCore >>= f) := fun s hI => hf s.core hI s hI

theorem setCore_bind {g : Γ} {f : Unit → Prog Γ ω C B} (hg : K g)
    (hf : Replays perform K K' (f ())) : Replays perform I K' (setCore g >>= f) :=
  Replays.bind (Replays.setCore hg) fun _ => hf

/-- An optional callback. -/
protected theorem callIfSet {c : C} {f : Option (Callback Γ ω Unit)}
    (hf : ∀ x, f = some x → ∀ g, I g → x g = perform c) :
    Replays perform I I (callIfSet c f) := by
  cases f with
  | none => exact Replays.pure (fun _ hI => hI) ()
  | some x => exact Replays.call (hf x rfl)

/-- A loop of callbacks. -/
theorem forM_call {E : Type} {c : E → C} {f : E → Callback Γ ω PUnit}
    (hf : ∀ i g, I g → f i g = perform (c i)) (is : List E) :
    Replays perform I I (forM is fun i => (TracedProgram.call (c i) (f i) : Prog Γ ω C PUnit)) := by
  induction is with
  | nil => exact Replays.pure (fun _ hI => hI) PUnit.unit
  | cons i is ih =>
    rw [List.forM_cons]
    exact Replays.bind (Replays.call (hf i)) fun _ => ih

/-- **The outcome of a program whose calls are known** is that of its calls. -/
theorem outcome {s : Traced Γ ω C} {L : List C} {Q : A → Γ → Prop} {E : Failure → Γ → Prop}
    (h : Replays perform I K m) (hI : I s.core) (hruns : Runs m s L Q E)
    (hE : ∀ f g, E f g → f = .thrown) :
    match replay perform L s.world with
    | .ok _ w => ∃ a s', m s = .ok a s' ∧ s'.world = w ∧ Q a s'.core
    | .error _ w => ∃ s', m s = .error .thrown s' ∧ s'.world = w ∧ E .thrown s'.core := by
  obtain ⟨L', htr, hres⟩ := h s hI
  cases hms : m s with
  | ok a s' =>
    rw [hms] at htr hres
    obtain ⟨htrace, hQ⟩ := hruns.of_ok hms
    obtain rfl : L = L' := List.append_cancel_left (htrace.symm.trans htr)
    rw [hres.1]
    exact ⟨a, s', rfl, rfl, hQ⟩
  | error f s' =>
    rw [hms] at htr hres
    obtain ⟨hEf, L₁, hpre, htrace⟩ := hruns.of_error hms
    obtain rfl : L₁ = L' := List.append_cancel_left (htrace.symm.trans htr)
    obtain rfl := hE f s'.core hEf
    rw [replay_error_mono hpre (hres rfl)]
    exact ⟨s', rfl, rfl, hEf⟩

end Replays

end TracedProgram
