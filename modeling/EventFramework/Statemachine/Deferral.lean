import EventFramework.ForMathlib.ErrorState
import EventFramework.Statemachine.Selection
import EventFramework.Statemachine.Visits

/-!
# The calls of a React that defers

Whatever the states, their links and the callbacks are, a `React` that returns either has
called the deferral callback as its very last call, with the event it was given and after
calls that ask only, or not at all (`react_calls`). So a `React` runs actions or defers its
event, never both.
-/

namespace EventFramework.Statemachine

open ErrorState TracedProgram

namespace Call

variable {σ ε α : Type}

/-- The call of `on_defer_event_`. -/
def isDefer : Call σ ε α → Bool
  | .onDeferEvent _ _ => true
  | _ => false

theorem IsQuestion.isDefer {c : Call σ ε α} (h : c.IsQuestion) : c.isDefer = false := by
  cases c <;> first | rfl | exact h.elim

theorem IsTransit.isDefer {c : Call σ ε α} (h : c.IsTransit) : c.isDefer = false := by
  cases c <;> first | rfl | exact h.elim

end Call

namespace Fsm

variable {σ ε α ι ω : Type} (P : Fsm σ ε α ι ω)

/-! ### What never defers -/

/-- Programs that do not call the deferral callback. -/
abbrev Keeps {A : Type} (m : M σ ε α ι ω A) : Prop := Emits (fun c => c.isDefer = false) m

theorem clearWorking_keeps : Keeps (clearWorking : M σ ε α ι ω Unit) :=
  .getCore_bind fun _ => .setCore _

variable [DecidableEq σ] [Fintype σ]

/-- **After the selection** nothing defers. -/
theorem dispatchTransition_keeps (start : StateObj σ) (transition : Transition σ α) (event : ε) :
    Keeps (P.dispatchTransition start transition event) := by
  refine (P.dispatchTransition_emits event start transition).mono ?_
  rintro c (hc | rfl)
  · exact hc.isDefer
  · rfl

/-! ### The selection -/

variable {P} {S S' : Sys σ ε α ι ω} {event : ε}

omit [DecidableEq σ] [Fintype σ] in
/-- One round of the loop asks. -/
theorem callHandler_asks (s : StateObj σ) (event : ε) :
    Emits Call.IsQuestion (P.callHandler s event) := by
  unfold callHandler
  split
  · exact .bind (.call _ trivial) fun _ => .pure _
  · exact .fail _

omit [DecidableEq σ] [Fintype σ] in
/-- The loop asks, and when it returns with nothing the deferral callback came last. -/
theorem bubble_calls {left : Option (Transition σ α)} :
    ∀ {n s} {S : Sys σ ε α ι ω}, P.bubble event n s S = .ok left S' →
      ∃ asked last, (∀ c ∈ asked, c.IsQuestion) ∧ S'.trace = S.trace ++ (asked ++ last) ∧
        (last = [] ∧ left.isSome ∨ ∃ s', last = [.onDeferEvent s' event] ∧ left = none) := by
  intro n
  induction n with
  | zero =>
    intro s S h
    cases h
  | succ n ih =>
    intro s S h
    unfold bubble at h
    obtain ⟨⟨⟩, S₁, h₁, h⟩ := bind_ok_iff.mp h
    obtain ⟨transition, S₂, h₂, h⟩ := bind_ok_iff.mp h
    have hhook : (Call.onHandleEvent (α := α) s event).IsQuestion := trivial
    obtain ⟨asked₁, htr₁, hasked₁⟩ := (Emits.callIfSet _ hhook).of_ok h₁
    obtain ⟨asked₂, htr₂, hasked₂⟩ := (callHandler_asks s event).of_ok h₂
    have hasked : ∀ c ∈ asked₁ ++ asked₂, c.IsQuestion := fun c hc =>
      (List.mem_append.mp hc).elim (hasked₁ c) (hasked₂ c)
    have htr : S₂.trace = S.trace ++ (asked₁ ++ asked₂) := by
      rw [htr₂, htr₁, List.append_assoc]
    cases htarget : transition.target with
    | none =>
      simp only [htarget] at h
      cases hparent : P.parent s with
      | none =>
        rw [hparent] at h
        obtain ⟨rfl, rfl⟩ := EStateM.Result.ok.inj h
        exact ⟨_, [], hasked, by rw [htr, List.append_nil], .inl ⟨rfl, rfl⟩⟩
      | some parent =>
        -- unhandled here: the states above ask on
        rw [hparent] at h
        obtain ⟨asked, last, hasked', htr', hlast⟩ := ih h
        refine ⟨_ ++ asked, last, fun c hc =>
          (List.mem_append.mp hc).elim (hasked c) (hasked' c), ?_, hlast⟩
        rw [htr', htr]
        simp only [List.append_assoc]
    | some target =>
      simp only [htarget] at h
      cases target with
      | kDeferEvent =>
        cases hdefer : P.onDeferEvent with
        | none =>
          rw [hdefer] at h
          cases h
        | some f =>
          rw [hdefer] at h
          obtain ⟨⟨⟩, S₃, h₃, h⟩ := bind_ok_iff.mp h
          obtain ⟨htr₃, -⟩ := (Quiet.call _ _).of_ok h₃
          obtain ⟨rfl, rfl⟩ := EStateM.Result.ok.inj h
          refine ⟨_, [.onDeferEvent s event], hasked, ?_, .inr ⟨s, rfl, rfl⟩⟩
          rw [htr₃, htr, List.append_assoc]
      | _ =>
        obtain ⟨rfl, rfl⟩ := EStateM.Result.ok.inj h
        exact ⟨_, [], hasked, by rw [htr, List.append_nil], .inl ⟨rfl, rfl⟩⟩

/-- **The calls of a completed React.** -/
theorem react_calls (h : P.react event S = .ok () S') :
    ∃ calls, S'.trace = S.trace ++ calls ∧
      ((∃ asked s, calls = asked ++ [.onDeferEvent s event] ∧ ∀ c ∈ asked, c.IsQuestion) ∨
        ∀ c ∈ calls, c.isDefer = false) := by
  unfold react at h
  rw [getCore_bind_apply] at h
  cases hstart : S.core.currentState with
  | none =>
    rw [hstart] at h
    cases h
  | some start =>
    simp only [hstart] at h
    split at h
    · cases h
    · rw [setCore_bind_apply] at h
      obtain ⟨left, S₁, h₁, h⟩ := bind_ok_iff.mp h
      obtain ⟨asked, last, hasked, htr₁, hlast⟩ := bubble_calls h₁
      -- the loop decides: after a deferral `React` returns, else it runs what never defers
      cases left with
      | none =>
        obtain ⟨-, hsome⟩ | ⟨s, rfl, -⟩ := hlast
        · contradiction
        · obtain ⟨-, rfl⟩ := EStateM.Result.ok.inj h
          exact ⟨_, htr₁, .inl ⟨asked, s, rfl, hasked⟩⟩
      | some transition =>
        obtain ⟨rfl, -⟩ | ⟨s, -, hnone⟩ := hlast
        · have hrest := Emits.bind (P.dispatchTransition_keeps start transition event)
            fun _ => clearWorking_keeps
          obtain ⟨calls, htr₂, hcalls⟩ := hrest.of_ok h
          refine ⟨asked ++ calls, ?_, .inr fun c hc => ?_⟩
          · rw [htr₂, htr₁, List.append_nil]
            exact List.append_assoc _ _ _
          · exact (List.mem_append.mp hc).elim (fun hc => (hasked c hc).isDefer) (hcalls c)
        · contradiction

end Fsm

end EventFramework.Statemachine
