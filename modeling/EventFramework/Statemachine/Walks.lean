import EventFramework.Statemachine.React
import EventFramework.ForMathlib.StateHierarchyRuns

/-!
# What the walks of the machine do

One specification for each function that walks the state forest, in terms of the abstract
chart `P.chart`: `FindCommonParent` computes the least common ancestor
(`findCommonParent_eq`), leaving and entering call exactly the callbacks of the states on the
abstract paths (`exitStatesFromUpTo_runs`, `enterStatesFromDownTo_runs`), and the branch of
`React` that changes the state is one abstract move (`takeTransition_runs`).

All of it holds with callbacks that throw at any point: then the calls made so far are a
prefix, and the current state, the busy flag and the implementation pointer are as they were
when the walk began (`Core.Agrees`).
-/

namespace EventFramework.Statemachine

open TracedProgram PointerChain ParentForest StateHierarchy

/-- The data members other than the history map agree. -/
structure Core.Agrees {σ ι : Type} (g core : Core σ ι) : Prop where
  currentState : g.currentState = core.currentState
  working : g.working = core.working
  impl : g.impl = core.impl

theorem Core.Agrees.rfl {σ ι : Type} {core : Core σ ι} : core.Agrees core :=
  ⟨.refl _, .refl _, .refl _⟩

namespace Fsm

variable {σ ε α ι ω : Type} (P : Fsm σ ε α ι ω)

/-- The chart of a machine. -/
def chart : Chart (StateObj σ) where
  parent := P.parent
  initial := P.initial
  hasHistory := P.isHistory

@[simp]
theorem chart_parent : P.chart.parent = P.parent := rfl

theorem getInitialState_eq (core : Core σ ι) (state : StateObj σ) :
    P.getInitialState core state = P.chart.resolve core.initial state := by
  unfold getInitialState Chart.resolve
  cases core.initial state <;> rfl

/-! ### The calls for one state -/

/-- A callback contributes a call when it is set. -/
def callsIf (isSet : Bool) (call : Call σ ε α) : List (Call σ ε α) :=
  if isSet then [call] else []

theorem eq_of_mem_callsIf {isSet : Bool} {call c : Call σ ε α} (h : c ∈ callsIf isSet call) :
    c = call := by
  rw [callsIf, List.mem_ite_nil_right, List.mem_singleton] at h
  exact h.2

/-- The calls of `ExitState`. -/
def exitCalls (event : ε) (state : StateObj σ) : List (Call σ ε α) :=
  .exitState state :: (callsIf P.onStateExit.isSome (.onStateExit state) ++
    (P.onExit state).map fun action => .exitAction state action event)

/-- The calls of `EnterState`. -/
def entryCalls (event : ε) (state : StateObj σ) : List (Call σ ε α) :=
  .enterState state :: (callsIf P.onStateEntry.isSome (.onStateEntry state) ++
    (P.onEntry state).map fun action => .entryAction state action event)

theorem callIfSet_quiet {A : Type} (call : Call σ ε α) (hook : Option A)
    (f : A → Callback (Core σ ι) ω Unit) :
    Quiet (callIfSet call (hook.map f) : M σ ε α ι ω Unit) (callsIf hook.isSome call) := by
  have h := Quiet.callIfSet (Γ := Core σ ι) (ω := ω) call (hook.map f)
  rwa [Option.isSome_map] at h

variable {event : ε}

theorem exitState_quiet (state : StateObj σ) :
    Quiet (P.exitState state event) (P.exitCalls event state) :=
  Quiet.bind (Quiet.mark _) fun _ => Quiet.bind (callIfSet_quiet _ P.onStateExit _) fun _ =>
    Quiet.forM_call _ _ _

theorem enterState_quiet (state : StateObj σ) :
    Quiet (P.enterState state event) (P.entryCalls event state) :=
  Quiet.bind (Quiet.mark _) fun _ => Quiet.bind (callIfSet_quiet _ P.onStateEntry _) fun _ =>
    Quiet.forM_call _ _ _

theorem executeActions_quiet (transition : Transition σ α) :
    Quiet (P.executeActions transition event)
      (transition.actionList.map fun action => .action action event) :=
  Quiet.forM_call _ _ _

variable [DecidableEq σ]

theorem stateChanged_quiet (oldState target : StateObj σ) :
    Quiet (P.stateChanged oldState target event)
      (callsIf (P.onStateChange.isSome && decide (oldState ≠ target))
        (.onStateChange event oldState target)) := by
  unfold stateChanged
  split
  · rename_i hne
    simpa [hne] using callIfSet_quiet (.onStateChange event oldState target) P.onStateChange
      fun f => f event oldState target
  · rename_i heq
    simpa [heq, callsIf] using Quiet.pure (Γ := Core σ ι) (ω := ω) (C := Call σ ε α) ()

/-! ### The common parent -/

theorem searchUp_eq (state : StateObj σ) {l : List (StateObj σ)} {a : Option (StateObj σ)}
    (h : Seg P.parent a none l) :
    ∀ n, l.length < n → P.searchUp state n a = some (decide (state ∈ l)) := by
  induction l generalizing a with
  | nil =>
    intro n _
    obtain rfl : a = none := Seg.nil_iff.mp h
    cases n <;> simp [searchUp]
  | cons x l ih =>
    intro n hn
    obtain ⟨rfl, hl⟩ := Seg.cons_iff.mp h
    cases n with
    | zero => simp at hn
    | succ n =>
      unfold searchUp
      by_cases hx : x = state
      · simp [hx]
      · rw [if_neg hx, ih hl n (by simpa using hn)]
        simp [Ne.symm hx]

variable [Fintype σ]

theorem length_lt_fuel {a : Option (StateObj σ)} {l : List (StateObj σ)}
    {next : StateObj σ → Option (StateObj σ)} (h : Seg next a none l) : l.length < fuel σ :=
  Nat.lt_succ_of_le h.nodup.length_le_card

theorem findCommonParentLoop_eq {state2 : Option (StateObj σ)} {l₂ : List (StateObj σ)}
    (h₂ : Seg P.parent state2 none l₂) {l : List (StateObj σ)} {a : Option (StateObj σ)}
    (h : Seg P.parent a none l) :
    ∀ n, l.length < n → P.findCommonParentLoop state2 n a = some (l.find? (· ∈ l₂)) := by
  induction l generalizing a with
  | nil =>
    intro n _
    obtain rfl : a = none := Seg.nil_iff.mp h
    cases n <;> simp [findCommonParentLoop]
  | cons x l ih =>
    intro n hn
    obtain ⟨rfl, hl⟩ := Seg.cons_iff.mp h
    cases n with
    | zero => simp at hn
    | succ n =>
      unfold findCommonParentLoop
      rw [P.searchUp_eq x h₂ _ (length_lt_fuel h₂), List.find?_cons]
      by_cases hx : x ∈ l₂
      · simp [hx]
      · simpa [hx] using ih hl n (by simpa using hn)

/-- **`FindCommonParent` computes the least common ancestor.** -/
theorem findCommonParent_eq (hac : Acyclic P.parent) (c t : StateObj σ) :
    P.findCommonParent (some c) (some t) = some (lca P.parent c t) :=
  P.findCommonParentLoop_eq (ancestors_seg hac t) (ancestors_seg hac c) _
    (length_lt_fuel (ancestors_seg hac c))

/-! ### Leaving -/

omit [Fintype σ] in
theorem saveHistory_apply (state : StateObj σ) (S : Sys σ ε α ι ω) :
    P.saveHistory state S = .ok ()
      { S with core := { S.core with initial := P.chart.record S.core.initial state } } := by
  unfold saveHistory Chart.record
  rw [getCore_bind_apply]
  cases hp : P.parent state with
  | none => simp [hp]
  | some p =>
    by_cases hhist : P.isHistory p = true
    · simp [hp, hhist, chart, setInitialState, setCore]
    · simp [hp, hhist, chart]

variable {P} {core₀ : Core σ ι} {S : Sys σ ε α ι ω}

omit [Fintype σ] in
/-- The exit loop leaves the states of a chain and records each of them. -/
theorem exitLoop_runs {top : Option (StateObj σ)} {l : List (StateObj σ)} :
    ∀ {n a} {S : Sys σ ε α ι ω}, Seg P.parent a top l → (∀ x ∈ l, some x ≠ top) →
      l.length < n → S.core.Agrees core₀ →
      Runs (P.exitLoop top event n a) S (l.flatMap (P.exitCalls event))
        (fun _ g => g = { S.core with initial := l.foldl P.chart.record S.core.initial })
        (fun f g => f = .thrown ∧ g.Agrees core₀) := by
  induction l with
  | nil =>
    intro n a S hseg _ hn _
    obtain rfl : a = top := Seg.nil_iff.mp hseg
    cases n with
    | zero => simp at hn
    | succ n =>
      unfold exitLoop
      rw [if_pos rfl]
      exact Runs.pure rfl
  | cons x l ih =>
    intro n a S hseg hne hn hS
    obtain ⟨rfl, hl⟩ := Seg.cons_iff.mp hseg
    obtain ⟨hx, hne⟩ := List.forall_mem_cons.mp hne
    cases n with
    | zero => simp at hn
    | succ n =>
      unfold exitLoop
      rw [if_neg hx, List.flatMap_cons]
      -- the history is saved before the exit callbacks run, so a throw leaves it changed
      refine Runs.bind_of_ok (P.saveHistory_apply x S) rfl ?_
      have hS₁ : ({ S.core with initial := P.chart.record S.core.initial x } : Core σ ι).Agrees
          core₀ := ⟨hS.currentState, hS.working, hS.impl⟩
      refine Runs.bind ((P.exitState_quiet x).runs ⟨rfl, hS₁⟩) fun _ S₂ _ hS₂ => ?_
      have hrest := ih (S := S₂) hl hne (by simpa using hn) (by rw [hS₂]; exact hS₁)
      rw [hS₂] at hrest
      exact hrest

/-- **Leaving.** `ExitStatesFromUpTo` runs the exit callbacks of the abstract exit path and
records its history. -/
theorem exitStatesFromUpTo_runs (hac : Acyclic P.parent) (c t : StateObj σ)
    (hS : S.core.Agrees core₀) :
    Runs (P.exitStatesFromUpTo c (lca P.parent c t) event) S
      ((P.chart.exitPath c t).flatMap (P.exitCalls event))
      (fun _ g => g = { S.core with initial := P.chart.recordExits S.core.initial c t })
      (fun f g => f = .thrown ∧ g.Agrees core₀) := by
  unfold exitStatesFromUpTo Chart.exitPath Chart.recordExits
  rw [chart_parent]
  by_cases hct : c ∈ ancestors P.parent t
  · rw [if_pos (lca_eq_left hac hct).symm, if_pos hct, branch_eq_nil hac hct,
      List.flatMap_singleton]
    exact (P.exitState_quiet c).runs ⟨rfl, hS⟩
  · rw [if_neg fun h => hct ((lca_eq_left_iff hac).mp h.symm), if_neg hct]
    refine exitLoop_runs (branch_seg hac c t) (fun x hx hlca => ?_) ?_ hS
    · exact (mem_branch.mp hx).2 (lca_mem hlca.symm).2
    · exact Nat.lt_succ_of_le
        ((ancestors_nodup hac c).sublist List.filter_sublist).length_le_card

/-! ### Entering -/

omit [Fintype σ] in
theorem enterStatesFromDownToRecursive_quiet {top : Option (StateObj σ)}
    {l : List (StateObj σ)} :
    ∀ {n a}, Seg P.parent a top l → (∀ x ∈ l, top ≠ some x) → l.length < n →
      Quiet (P.enterStatesFromDownToRecursive top event n a)
        (l.reverse.flatMap (P.entryCalls event)) := by
  induction l with
  | nil =>
    intro n a hseg _ hn
    obtain rfl : a = top := Seg.nil_iff.mp hseg
    cases n with
    | zero => simp at hn
    | succ n =>
      unfold enterStatesFromDownToRecursive
      cases a with
      | none => exact Quiet.pure ()
      | some t =>
        simp only [if_true]
        exact Quiet.pure ()
  | cons x l ih =>
    intro n a hseg hne hn
    obtain ⟨rfl, hl⟩ := Seg.cons_iff.mp hseg
    obtain ⟨hx, hne⟩ := List.forall_mem_cons.mp hne
    cases n with
    | zero => simp at hn
    | succ n =>
      unfold enterStatesFromDownToRecursive
      simp only [if_neg hx, List.reverse_cons, List.flatMap_append, List.flatMap_singleton]
      -- the recursion comes first: outer states are entered before inner ones
      exact Quiet.bind (ih hl hne (by simpa using hn)) fun _ => P.enterState_quiet x

omit [DecidableEq σ] [Fintype σ] in
/-- The descent loop enters a chain of initial states and returns its end. -/
theorem enterInitialStates_runs (event : ε) {l : List (StateObj σ)} :
    ∀ {n x} {S : Sys σ ε α ι ω}, Seg (P.chart.resolve S.core.initial)
        (P.chart.resolve S.core.initial x) none l → l.length < n → S.core.Agrees core₀ →
      Runs (P.enterInitialStates event n x) S (l.flatMap (P.entryCalls event))
        (fun y g => y = l.getLastD x ∧ g = S.core) (fun f g => f = .thrown ∧ g.Agrees core₀) := by
  induction l with
  | nil =>
    intro n x S hseg hn hS
    cases n with
    | zero => simp at hn
    | succ n =>
      unfold enterInitialStates
      refine Runs.getCore_bind ?_
      have hnone : P.getInitialState S.core x = none :=
        (P.getInitialState_eq S.core x).trans (Seg.nil_iff.mp hseg)
      rw [hnone]
      exact Runs.pure ⟨rfl, rfl⟩
  | cons y l ih =>
    intro n x S hseg hn hS
    cases n with
    | zero => simp at hn
    | succ n =>
      obtain ⟨hy, hl⟩ := Seg.cons_iff.mp hseg
      unfold enterInitialStates
      refine Runs.getCore_bind ?_
      have hsome : P.getInitialState S.core x = some y :=
        (P.getInitialState_eq S.core x).trans hy
      rw [hsome, List.flatMap_cons]
      refine Runs.bind ((P.enterState_quiet y).runs ⟨rfl, hS⟩) fun _ S₁ _ hS₁ => ?_
      have hrest := ih (S := S₁) (x := y) (by rw [hS₁]; exact hl) (by simpa using hn)
        (by rw [hS₁]; exact hS)
      rw [hS₁] at hrest
      rw [List.getLastD_cons]
      exact hrest

/-- **Entering.** Below a chain `l` from the target up to `top`, `EnterStatesFromDownTo` enters
the chain downwards (the target alone when it is empty), then the descent, and ends where the
descent ends. -/
theorem enterStatesFromDownTo_runs (event : ε) (hP : P.chart.WellNested)
    (hgood : P.chart.GoodMemory S.core.initial) {top : Option (StateObj σ)} {t : StateObj σ}
    {l : List (StateObj σ)} (hseg : Seg P.parent (some t) top l) (hne : ∀ x ∈ l, top ≠ some x)
    (hlen : l.length < fuel σ) (hS : S.core.Agrees core₀) :
    Runs (P.enterStatesFromDownTo top (some t) event) S
      ((l.tail.reverse ++ [t] ++ P.chart.descent S.core.initial t).flatMap (P.entryCalls event))
      (fun _ g => g = { S.core with currentState := some (P.chart.landing S.core.initial t) })
      (fun f g => f = .thrown ∧ g.Agrees core₀) := by
  have habove : Quiet (P.enterStatesAbove top t event)
      (l.tail.reverse.flatMap (P.entryCalls event)) := by
    unfold enterStatesAbove
    cases l with
    | nil =>
      rw [if_neg (not_not.mpr (Seg.nil_iff.mp hseg).symm)]
      exact Quiet.pure ()
    | cons x l =>
      obtain ⟨hx, hl⟩ := Seg.cons_iff.mp hseg
      obtain rfl := Option.some.inj hx
      obtain ⟨htop, hne⟩ := List.forall_mem_cons.mp hne
      rw [if_pos htop]
      refine enterStatesFromDownToRecursive_quiet hl hne ?_
      rw [List.length_cons] at hlen
      exact Nat.lt_of_succ_lt hlen
  rw [enterStatesFromDownTo, List.flatMap_append, List.flatMap_append, List.append_assoc,
    List.flatMap_singleton]
  refine Runs.bind (habove.runs ⟨rfl, hS⟩) fun _ S₁ _ hS₁ => ?_
  have hS₁' : S₁.core = S.core := hS₁
  refine Runs.bind ((P.enterState_quiet t).runs ⟨rfl, by rw [hS₁']; exact hS⟩) fun _ S₂ _ hS₂ => ?_
  have hS₂' : S₂.core = S.core := hS₂.trans hS₁'
  have hdesc := Chart.descent_seg hP hgood t
  have hrest := enterInitialStates_runs event (S := S₂) (x := t) (n := fuel σ)
    (by rw [hS₂']; exact hdesc) (length_lt_fuel hdesc)
    (by rw [hS₂']; exact hS)
  -- the current state is written last, after all callbacks
  rw [← List.append_nil ((P.chart.descent S.core.initial t).flatMap _)]
  refine Runs.bind hrest fun y S₃ _ hS₃ => ?_
  obtain ⟨rfl, hS₃⟩ := hS₃
  refine Runs.getCore_bind (Runs.setCore ?_)
  rw [hS₃, hS₂']
  rfl

/-! ### A whole transition -/

theorem entryPath_eq (hac : Acyclic P.parent) (c t : StateObj σ) :
    P.chart.entryPath c t = (branch P.parent t c).tail.reverse ++ [t] := by
  unfold Chart.entryPath
  rw [chart_parent]
  split
  · rename_i htc
    rw [branch_eq_nil hac htc]
    rfl
  · rename_i htc
    have hmem : t ∈ branch P.parent t c := mem_branch.mpr ⟨self_mem_ancestors hac t, htc⟩
    have hseg := branch_seg hac t c
    cases hbr : branch P.parent t c with
    | nil => simp [hbr] at hmem
    | cons x l =>
      rw [hbr] at hseg
      obtain rfl := Option.some.inj (Seg.cons_iff.mp hseg).1
      simp

variable (P) in
/-- The calls of a transition from `c` to `t` with the given actions, under the memory `h`. -/
def transitionCalls (h : StateObj σ → Option (StateObj σ)) (c t : StateObj σ)
    (actions : List α) (event : ε) : List (Call σ ε α) :=
  callsIf (P.onStateChange.isSome && decide (c ≠ t)) (.onStateChange event c t) ++
    ((P.chart.exitPath c t).flatMap (P.exitCalls event) ++
      (actions.map (fun action => .action action event) ++
        (P.chart.entryPath c t ++ P.chart.descent (P.chart.recordExits h c t) t).flatMap
          (P.entryCalls event)))

variable (P) in
/-- The machine after a transition from `c` to `t`. -/
def transitionCore (core : Core σ ι) (c t : StateObj σ) : Core σ ι :=
  { core with
    initial := P.chart.recordExits core.initial c t
    currentState := some (P.chart.landing (P.chart.recordExits core.initial c t) t) }

/-- **A transition** leaves the exit path, runs the actions, enters the entry path and the
descent, and ends where the descent ends. -/
theorem takeTransition_runs (event : ε) (hP : P.chart.WellNested)
    (hgood : P.chart.GoodMemory S.core.initial) {c : StateObj σ}
    (hc : S.core.currentState = some c) (transition : Transition σ α) (t : StateObj σ) :
    Runs (P.takeTransition transition t event) S
      (P.transitionCalls S.core.initial c t transition.actionList event)
      (fun _ g => g = P.transitionCore S.core c t)
      (fun f g => f = .thrown ∧
        g.Agrees { S.core with currentState := some .kInTransition }) := by
  have hac : Acyclic P.parent := hP.acyclic
  unfold takeTransition transitionCalls
  refine Runs.getCore_bind ?_
  rw [hc, P.findCommonParent_eq hac]
  -- from here on a callback sees `kInTransition`, and leaves it behind when it throws
  refine Runs.setCore_bind ?_
  refine Runs.bind ((P.stateChanged_quiet c t).runs ⟨rfl, Core.Agrees.rfl⟩) fun _ S₁ _ hS₁ => ?_
  have hS₁' : S₁.core = { S.core with currentState := some .kInTransition } := hS₁
  have hag : S₁.core.Agrees { S.core with currentState := some .kInTransition } :=
    by rw [hS₁']; exact Core.Agrees.rfl
  refine Runs.bind (exitStatesFromUpTo_runs hac c t hag) fun _ S₂ _ hS₂ => ?_
  have hS₂' : S₂.core = { S.core with
      currentState := some .kInTransition
      initial := P.chart.recordExits S.core.initial c t } := by rw [hS₂, hS₁']
  have hag₂ : S₂.core.Agrees { S.core with currentState := some .kInTransition } := by
    rw [hS₂']
    exact ⟨rfl, rfl, rfl⟩
  refine Runs.bind ((P.executeActions_quiet transition).runs ⟨rfl, hag₂⟩)
    fun _ S₃ _ hS₃ => ?_
  have hS₃' : S₃.core = S₂.core := hS₃
  have hgood₃ : P.chart.GoodMemory S₃.core.initial := by
    rw [hS₃', hS₂']
    exact Chart.recordExits_goodMemory hgood c t
  have hentry := enterStatesFromDownTo_runs event hP hgood₃ (branch_seg hac t c)
    (fun x hx hlca => (mem_branch.mp hx).2 (lca_mem hlca).2)
    (Nat.lt_succ_of_le ((ancestors_nodup hac t).sublist List.filter_sublist).length_le_card)
    (by rw [hS₃']; exact hag₂)
  rw [lca_comm hac t c, ← entryPath_eq hac, hS₃', hS₂'] at hentry
  exact hentry

end Fsm

end EventFramework.Statemachine
