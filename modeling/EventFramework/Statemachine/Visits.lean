import EventFramework.Statemachine.Walks

/-!
# The walks of any machine

Nothing is assumed about the states in this file: their links may even be cyclic. A
`WalkRelation` between two machines on the same states is a compositional relation between
their programs that holds of leaving a state, of entering one and of saving the history. It
then holds of all walks (`WalkRelation.exitStatesFromUpTo`, `WalkRelation.enterInitialStates`
and so on), and this is the only place where the recursion of the walks is followed for it.

The first use is about the calls. The walks make calls of visiting states only
(`emits_walks`), so the actions executed by a transition are those attached to it, whatever
the forest looks like (`takeTransition_performs`).
-/

namespace EventFramework.Statemachine

open TracedProgram

namespace Call

variable {σ ε α : Type}

/-- Calls made when a state is left or entered. -/
def IsVisit : Call σ ε α → Prop
  | .exitState _ | .onStateExit _ | .exitAction _ _ _ => True
  | .enterState _ | .onStateEntry _ | .entryAction _ _ _ => True
  | _ => False

/-- Calls made when the state is changed. -/
def IsTransit : Call σ ε α → Prop
  | .onStateChange _ _ _ | .action _ _ => True
  | c => c.IsVisit

/-- The actions attached to a transition among the calls. -/
def isTransitionAction : Call σ ε α → Bool
  | .action _ _ => true
  | _ => false

theorem IsVisit.isTransit {c : Call σ ε α} (h : c.IsVisit) : c.IsTransit := by
  cases c <;> trivial

theorem IsVisit.isTransitionAction {c : Call σ ε α} (h : c.IsVisit) :
    c.isTransitionAction = false := by
  cases c <;> first | rfl | exact h.elim

end Call

namespace Fsm

variable {σ ε α ι ω ω' : Type} [DecidableEq σ]

/-- A compositional relation between the programs of two machines on the same states that
holds of the visits of single states. -/
structure WalkRelation (P : Fsm σ ε α ι ω) (P' : Fsm σ ε α ι ω')
    (J : ∀ A : Type, M σ ε α ι ω A → M σ ε α ι ω' A → Prop) : Prop extends Compositional J where
  state : P'.state = P.state
  exitState : ∀ x event, J Unit (P.exitState x event) (P'.exitState x event)
  enterState : ∀ x event, J Unit (P.enterState x event) (P'.enterState x event)
  saveHistory : ∀ x, J Unit (P.saveHistory x) (P'.saveHistory x)

namespace WalkRelation

variable {P : Fsm σ ε α ι ω} {P' : Fsm σ ε α ι ω'}
  {J : ∀ A : Type, M σ ε α ι ω A → M σ ε α ι ω' A → Prop} (h : WalkRelation P P' J)

include h

theorem parent_eq (x : StateObj σ) : P'.parent x = P.parent x := by
  cases x with
  | user s => simp only [parent, h.state]
  | _ => rfl

theorem getInitialState_eq (core : Core σ ι) (x : StateObj σ) :
    P'.getInitialState core x = P.getInitialState core x := by
  have hflags : P'.isHistory x = P.isHistory x := by
    cases x with
    | user s => simp only [isHistory, flags, h.state]
    | _ => rfl
  have hinitial : P'.initial x = P.initial x := by
    cases x with
    | user s => simp only [initial, h.state]
    | _ => rfl
  unfold getInitialState
  rw [hflags, hinitial]

theorem searchUp_eq (state : StateObj σ) :
    ∀ n a, P'.searchUp state n a = P.searchUp state n a := by
  intro n
  induction n with
  | zero =>
    intro a
    cases a <;> rfl
  | succ n ih =>
    intro a
    cases a with
    | none => rfl
    | some x =>
      unfold searchUp
      rw [h.parent_eq, ih]

theorem exitLoop (top : Option (StateObj σ)) (event : ε) :
    ∀ n state, J Unit (P.exitLoop top event n state) (P'.exitLoop top event n state) := by
  intro n
  induction n with
  | zero => exact fun _ => h.fail _
  | succ n ih =>
    intro state
    unfold Fsm.exitLoop
    by_cases htop : state = top
    · simp only [if_pos htop]
      exact h.pure ()
    · simp only [if_neg htop]
      cases state with
      | none => exact h.fail _
      | some s =>
        refine h.bind (h.saveHistory s) fun _ => h.bind (h.exitState s event) fun _ => ?_
        rw [h.parent_eq]
        exact ih _

theorem enterStatesFromDownToRecursive (top : Option (StateObj σ)) (event : ε) :
    ∀ n target, J Unit (P.enterStatesFromDownToRecursive top event n target)
      (P'.enterStatesFromDownToRecursive top event n target) := by
  intro n
  induction n with
  | zero => exact fun _ => h.fail _
  | succ n ih =>
    intro target
    unfold Fsm.enterStatesFromDownToRecursive
    cases target with
    | none => exact h.pure ()
    | some t =>
      by_cases htop : top = some t
      · simp only [if_pos htop]
        exact h.pure ()
      · simp only [if_neg htop]
        refine h.bind ?_ fun _ => h.enterState t event
        rw [h.parent_eq]
        exact ih _

theorem enterInitialStates (event : ε) :
    ∀ n target, J (StateObj σ) (P.enterInitialStates event n target)
      (P'.enterInitialStates event n target) := by
  intro n
  induction n with
  | zero => exact fun _ => h.fail _
  | succ n ih =>
    intro target
    unfold Fsm.enterInitialStates
    refine h.getCore_bind fun core => ?_
    rw [h.getInitialState_eq]
    cases P.getInitialState core target with
    | none => exact h.pure target
    | some state => exact h.bind (h.enterState state event) fun _ => ih state

variable [Fintype σ]

theorem findCommonParentLoop_eq (state2 : Option (StateObj σ)) :
    ∀ n a, P'.findCommonParentLoop state2 n a = P.findCommonParentLoop state2 n a := by
  intro n
  induction n with
  | zero =>
    intro a
    cases a <;> rfl
  | succ n ih =>
    intro a
    cases a with
    | none => rfl
    | some x =>
      unfold findCommonParentLoop
      rw [h.searchUp_eq, h.parent_eq, ih]

theorem findCommonParent_eq (state1 state2 : Option (StateObj σ)) :
    P'.findCommonParent state1 state2 = P.findCommonParent state1 state2 :=
  h.findCommonParentLoop_eq state2 _ state1

theorem exitStatesFromUpTo (src : StateObj σ) (top : Option (StateObj σ)) (event : ε) :
    J Unit (P.exitStatesFromUpTo src top event) (P'.exitStatesFromUpTo src top event) := by
  unfold Fsm.exitStatesFromUpTo
  by_cases htop : some src = top
  · simp only [if_pos htop]
    exact h.exitState src event
  · simp only [if_neg htop]
    exact h.exitLoop top event _ _

theorem enterStatesAbove (top : Option (StateObj σ)) (target : StateObj σ) (event : ε) :
    J Unit (P.enterStatesAbove top target event) (P'.enterStatesAbove top target event) := by
  unfold Fsm.enterStatesAbove
  by_cases htop : top ≠ some target
  · simp only [if_pos htop, h.parent_eq]
    exact h.enterStatesFromDownToRecursive top event _ _
  · simp only [if_neg htop]
    exact h.pure ()

end WalkRelation

/-! ### The calls of the walks -/

section Calls

variable (P : Fsm σ ε α ι ω) (event : ε)

omit [DecidableEq σ] in
/-- The calls of leaving or entering one state. -/
private theorem forall_mem_visit {lead hook : Call σ ε α} {isSet : Bool} {list : List α}
    {act : α → Call σ ε α} (hlead : lead.IsVisit) (hhook : hook.IsVisit)
    (hact : ∀ a, (act a).IsVisit) :
    ∀ c ∈ lead :: (callsIf isSet hook ++ list.map act), c.IsVisit := by
  refine List.forall_mem_cons.mpr ⟨hlead, List.forall_mem_append.mpr ⟨fun c hc => ?_, ?_⟩⟩
  · rw [eq_of_mem_callsIf hc]
    exact hhook
  · exact List.forall_mem_map.mpr fun a _ => hact a

/-- The walks only visit. -/
theorem emits_walks : WalkRelation P P fun _ m _ => Emits Call.IsVisit m where
  toCompositional := Emits.compositional Call.IsVisit
  state := rfl
  exitState x _ :=
    .of_quiet (P.exitState_quiet x) (forall_mem_visit trivial trivial fun _ => trivial)
  enterState x _ :=
    .of_quiet (P.enterState_quiet x) (forall_mem_visit trivial trivial fun _ => trivial)
  saveHistory x := by
    refine .getCore_bind fun core => ?_
    split
    · exact .pure ()
    · split
      · exact .setCore _
      · exact .pure ()

theorem stateChanged_emits (oldState target : StateObj σ) :
    Emits (fun c => c.IsTransit ∧ c.isTransitionAction = false)
      (P.stateChanged oldState target event) := by
  unfold stateChanged
  split
  · exact .callIfSet _ ⟨trivial, rfl⟩
  · exact .pure ()

omit [DecidableEq σ] in
theorem executeActions_emits (transition : Transition σ α) :
    Emits Call.IsTransit (P.executeActions transition event) :=
  .of_quiet (P.executeActions_quiet transition) (List.forall_mem_map.mpr fun _ _ => trivial)

variable [Fintype σ]

theorem enterStatesFromDownTo_emits (top target : Option (StateObj σ)) :
    Emits Call.IsVisit (P.enterStatesFromDownTo top target event) := by
  unfold enterStatesFromDownTo
  split
  · exact .fail _
  · refine .bind (P.emits_walks.enterStatesAbove top _ event) fun _ =>
      .bind (P.emits_walks.enterState _ event) fun _ =>
      .bind (P.emits_walks.enterInitialStates event _ _) fun _ => .getCore_bind fun _ => .setCore _

theorem takeTransition_emits (transition : Transition σ α) (target : StateObj σ) :
    Emits Call.IsTransit (P.takeTransition transition target event) := by
  refine .getCore_bind fun core => ?_
  split
  · exact .fail _
  · exact .fail _
  · have hexits := P.emits_walks.exitStatesFromUpTo
    exact .setCore_bind <|
      .bind ((P.stateChanged_emits event _ target).mono fun _ => And.left) fun _ =>
      .bind ((hexits _ _ event).mono fun _ => Call.IsVisit.isTransit) fun _ =>
      .bind (P.executeActions_emits event transition) fun _ =>
      (P.enterStatesFromDownTo_emits event _ _).mono fun _ => Call.IsVisit.isTransit

/-- After the loop, nothing is asked and nothing deferred. -/
theorem dispatchTransition_emits (start : StateObj σ) (transition : Transition σ α) :
    Emits (fun c => c.IsTransit ∨ c = .onUnhandledEvent start event)
      (P.dispatchTransition start transition event) := by
  unfold dispatchTransition
  split
  · exact (P.executeActions_emits event transition).mono fun _ => .inl
  · exact (P.takeTransition_emits event transition _).mono fun _ => .inl
  · exact .callIfSet _ (.inr rfl)

end Calls

end Fsm

end EventFramework.Statemachine
