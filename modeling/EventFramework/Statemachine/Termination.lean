import EventFramework.Statemachine.Observation
import EventFramework.Statemachine.Runs

/-!
# Start and React end

None of the loops of the machine has a bound of its own, and the loop that leaves states does not
test for null. That they all end, without following a null state pointer, rests on three facts:
the parent links are acyclic, `FindCommonParent` returns an ancestor-or-self of both its
arguments, and the history map only ever holds children of the states it is asked for
(`Regular`). The last one is an invariant of all machines that can be reached
(`Reachable.regular`), whatever has happened to the calls before: a call that is stopped by a
callback leaves the history it has recorded so far.

`reachable_ends` states the result for any call of `Start` and `React`. The descent below the target
enters one state in each round, and at most as many as the subtree of the target is high.
-/

namespace EventFramework.Statemachine

open TracedProgram PointerChain ParentForest StateHierarchy EnterExit

namespace Fsm

variable {σ ε α ι ω : Type} [DecidableEq σ] [Fintype σ] (P : Fsm σ ε α ι ω)

/-! ### Reachable machines -/

/-- The machines between calls. A call may have failed and left the machine as it was then, and
the user does with the world what he likes. -/
inductive Reachable [Inhabited ε] : Sys σ ε α ι ω → Prop
  | new (w : ω) : Reachable ⟨{}, w, []⟩
  | world (w : ω) {S : Sys σ ε α ι ω} (hS : Reachable S) : Reachable { S with world := w }
  | init (impl : Option ι) {S : Sys σ ε α ι ω} (hS : Reachable S) :
      Reachable (stateOf (Fsm.init impl S))
  | start (s : σ) {S : Sys σ ε α ι ω} (hS : Reachable S) :
      Reachable (stateOf (P.start (some (.user s)) S))
  | react (event : ε) {S : Sys σ ε α ι ω} (hS : Reachable S) :
      Reachable (stateOf (P.react event S))

/-- **The invariant.** The history map is well formed, and a machine that has been started has an
implementation and is in a user state, or in transition. -/
structure Regular (S : Sys σ ε α ι ω) : Prop where
  memory : P.chart.GoodMemory S.core.initial
  current : ∀ x, S.core.currentState = some x →
    S.core.impl.isSome ∧ (x = .kInTransition ∨ ∃ c, x = .user c)

variable {P} {S S' : Sys σ ε α ι ω} {event : ε} {f : Failure}

omit [Fintype σ] [DecidableEq σ] in
theorem Regular.idle (hS : P.Regular S) {c : σ} (hcurrent : S.core.currentState = some (.user c))
    (hidle : S.core.working = false) : P.Idle S c :=
  ⟨⟨(hS.current _ hcurrent).1, hidle⟩, hcurrent, hS.memory⟩

omit [Fintype σ] [DecidableEq σ] in
theorem Idle.regular {c : σ} (hS : P.Idle S c) : P.Regular S := by
  refine ⟨hS.memory, fun x hx => ⟨hS.impl, .inr ⟨c, ?_⟩⟩⟩
  exact Option.some.inj (hx.symm.trans hS.current)

omit [Fintype σ] [DecidableEq σ] in
theorem Idle.refines {c : σ} (hS : P.Idle S c) :
    Refines S ⟨.user c, S.core.initial, marks S.trace, []⟩ := ⟨hS.current, rfl, rfl⟩

omit [Fintype σ] [DecidableEq σ] in
/-- What a `React` meets: a machine that refuses it, one in transition, or an idle one. -/
theorem Regular.react_cases (hS : P.Regular S) :
    (S.core.currentState = none ∨ S.core.working = true) ∨
      S.core.currentState = some .kInTransition ∧ S.core.working = false ∨ ∃ c, P.Idle S c := by
  by_cases hrefused : S.core.currentState = none ∨ S.core.working = true
  · exact .inl hrefused
  · obtain ⟨hstarted, hbusy⟩ := not_or.mp hrefused
    obtain ⟨x, hx⟩ := Option.ne_none_iff_exists'.mp hstarted
    have hidle : S.core.working = false := Bool.eq_false_iff.mpr hbusy
    rcases (hS.current x hx).2 with rfl | ⟨c, rfl⟩
    · exact .inr (.inl ⟨hx, hidle⟩)
    · exact .inr (.inr ⟨c, hS.idle hx hidle⟩)

/-- However it ends, a `React` leaves a well-formed history. -/
theorem react_goodMemory (hS : P.chart.GoodMemory S.core.initial) (event : ε) :
    P.chart.GoodMemory (stateOf (P.react event S)).core.initial := by
  by_cases hrefused : S.core.currentState = none ∨ S.core.working = true
  · rw [react_refused hrefused]
    exact hS
  · obtain ⟨hstarted, hbusy⟩ := not_or.mp hrefused
    obtain ⟨x, hx⟩ := Option.ne_none_iff_exists'.mp hstarted
    have hwatched := react_watched_of (I := fun g => P.chart.GoodMemory g.initial)
      (Q := fun g => P.chart.GoodMemory g.initial) (fun g x hg => Chart.record_goodMemory hg x)
      (fun _ _ hg => hg) (fun _ hg => hg) (s := withLog S) hx (Bool.eq_false_iff.mpr hbusy) event hS
    exact hwatched.stateOf_core

theorem Regular.react (hP : P.chart.WellNested) (hS : P.Regular S) (event : ε) :
    P.Regular (stateOf (P.react event S)) := by
  refine ⟨react_goodMemory hS.memory event, ?_⟩
  rcases hS.react_cases with hrefused | ⟨hcurrent, hidle⟩ | ⟨c, hidle⟩
  · rw [react_refused hrefused]
    exact hS.current
  · have hruns := react_inTransition_runs hcurrent hidle (P := P) event
    cases h : P.react event S with
    | ok _ S' => exact (hruns.of_ok h).2.elim
    | error f S' =>
      have hcore : S'.core = (busy S).core := (hruns.of_error h).1.2
      intro x hx
      rw [stateOf, hcore] at hx ⊢
      exact hS.current x hx
  · cases h : P.react event S with
    | ok _ S' =>
      obtain ⟨c', hidle'⟩ := react_idle hP hidle h
      exact hidle'.regular.current
    | error f S' =>
      obtain ⟨asked, last, -, hruns⟩ := react_runs hP hidle event
      have hinterrupted : (busy S).core.Interrupted S'.core := by
        cases hanswer : P.answer event S with
        | none =>
          rw [hanswer] at hruns
          rw [(hruns.of_error h).1.2]
          exact ⟨.inl rfl, rfl, rfl⟩
        | some response =>
          rw [hanswer] at hruns
          exact (hruns.of_error h).1.2
      intro x hx
      refine ⟨hinterrupted.impl ▸ hidle.impl, ?_⟩
      rcases hinterrupted.currentState with hsame | htransition
      · exact (hS.current x (hsame.symm.trans hx)).2
      · exact .inl (Option.some.inj (hx.symm.trans htransition))

variable [Inhabited ε]

/-- `Start` writes no history. -/
theorem start_goodMemory (hS : P.chart.GoodMemory S.core.initial)
    (initial : Option (StateObj σ)) :
    P.chart.GoodMemory (stateOf (P.start initial S)).core.initial := by
  cases himpl : S.core.impl with
  | none =>
    rw [start_refused himpl]
    exact hS
  | some i =>
    have hwatched := start_watched_of (I := fun g => P.chart.GoodMemory g.initial)
      (Q := fun g => P.chart.GoodMemory g.initial) (fun g x hg => Chart.record_goodMemory hg x)
      (fun _ _ hg => hg) (s := withLog S) (himpl ▸ rfl) initial Chart.goodMemory_empty
    exact hwatched.stateOf_core

theorem Regular.start (hP : P.chart.WellNested) (hS : P.Regular S) (s : σ) :
    P.Regular (stateOf (P.start (some (.user s)) S)) := by
  refine ⟨start_goodMemory hS.memory _, ?_⟩
  cases himpl : S.core.impl with
  | none =>
    rw [start_refused himpl]
    exact hS.current
  | some i =>
    have hsome : S.core.impl.isSome := himpl ▸ rfl
    have hruns := start_runs hP S s
    rw [start_apply hsome]
    cases h : P.enterStatesFromDownTo none (some (.user s)) default (cleared S) with
    | ok _ S' =>
      have hcore : S'.core = P.startCore S.core (.user s) := (hruns.of_ok h).2
      obtain ⟨u, hu⟩ := landing_user hP Chart.goodMemory_empty s
      intro x hx
      rw [stateOf, hcore] at hx ⊢
      exact ⟨hsome, .inr ⟨u, (Option.some.inj hx).symm.trans hu⟩⟩
    | error f S' =>
      have hagrees := (hruns.of_error h).1.2
      intro x hx
      have htransition : S'.core.currentState = some .kInTransition := hagrees.currentState
      exact ⟨hagrees.impl ▸ hsome, .inl (Option.some.inj (hx.symm.trans htransition))⟩

/-- **Every reachable machine is regular.** -/
theorem Reachable.regular (hP : P.chart.WellNested) (hS : P.Reachable S) : P.Regular S := by
  induction hS with
  | new w => exact ⟨Chart.goodMemory_empty, fun x hx => nomatch hx⟩
  | world w _ ih => exact ⟨ih.memory, ih.current⟩
  | init impl _ ih =>
    cases impl with
    | none => exact ih
    | some i => exact ⟨ih.memory, fun x hx => ⟨rfl, (ih.current x hx).2⟩⟩
  | start s _ ih => exact ih.start hP s
  | react event _ ih => exact ih.react hP event

/-! ### The rounds of the descent -/

omit [Fintype σ] [DecidableEq σ] [Inhabited ε] in
/-- When the marks end with entering `t` and then `D`, and `t` is entered only once, no more than
`D` is entered after `t`. -/
theorem length_marks_le {X : List (Mark (StateObj σ))} {D : List (StateObj σ)} {t : StateObj σ}
    {L₁ L₂ : List (Call σ ε α)}
    (hpre : marks (L₁ ++ .enterState t :: L₂) <+: X ++ .enter t :: D.map .enter)
    (hX : .enter t ∉ X) (hD : t ∉ D) : (marks L₂).length ≤ D.length := by
  obtain ⟨rest, hrest⟩ := hpre
  have hmarks : marks (L₁ ++ .enterState t :: L₂) = marks L₁ ++ .enter t :: marks L₂ :=
    marks_append L₁ (.enterState t :: L₂)
  have hD' : (.enter t : Mark (StateObj σ)) ∉ D.map .enter := by simpa using hD
  rw [hmarks, List.append_assoc, List.cons_append] at hrest
  have hafter : marks L₂ ++ rest = D.map .enter :=
    ((List.append_cons_inj_of_notMem hX hD').mp hrest.symm).2.2.symm
  have hlength := congrArg List.length hafter
  rw [List.length_append, List.length_map] at hlength
  omega

omit [Inhabited ε] in
/-- The target comes last on the way down to it, and only once. -/
theorem exists_entryPath_eq (hac : Acyclic P.parent) (c t : StateObj σ) :
    ∃ above, P.chart.entryPath c t = above ++ [t] ∧ t ∉ above := by
  have hnodup := Chart.entryPath_nodup hac (C := P.chart) (c := c) (t := t)
  rw [entryPath_eq hac] at hnodup ⊢
  exact ⟨_, rfl, fun hmem => (List.nodup_append'.mp hnodup).2.2 hmem List.mem_cons_self⟩

omit [Inhabited ε] in
/-- After the target of a transition, `React` enters at most as many states as its subtree is
high. -/
theorem react_rounds (hP : P.chart.WellNested) (hS : P.Regular S) {t : StateObj σ}
    {L₁ L₂ : List (Call σ ε α)} (htarget : P.target event S = some t)
    (htrace : (stateOf (P.react event S)).trace = S.trace ++ (L₁ ++ .enterState t :: L₂)) :
    (marks L₂).length ≤ height P.parent t := by
  have hac : Acyclic P.parent := hP.acyclic
  rcases hS.react_cases with hrefused | ⟨hcurrent, hidle⟩ | ⟨c, hidle⟩
  · rw [react_refused hrefused] at htrace
    have hnil : S.trace = S.trace ++ (L₁ ++ .enterState t :: L₂) := htrace
    simp at hnil
  · obtain ⟨L', hpre, htrace'⟩ := (react_inTransition_runs hcurrent hidle event).stateOf_trace
    obtain rfl := List.append_cancel_left (htrace'.symm.trans htrace)
    have hmem := hpre.subset (List.mem_append_right L₁ List.mem_cons_self)
    exact nomatch eq_of_mem_callsIf hmem
  · have hmarks := react_marks hP hidle hidle.refines event
    rw [htrace, htarget, marks_append] at hmarks
    obtain ⟨above, habove, hnew⟩ := exists_entryPath_eq hac (.user c) t
    simp only [Chart.step, Chart.move, habove, List.append_assoc, List.map_append,
      List.prefix_append_right_inj] at hmarks
    rw [← List.append_assoc] at hmarks
    have hgood := Chart.recordExits_goodMemory hidle.memory (.user c) t
    refine (length_marks_le hmarks ?_ ?_).trans (Chart.descent_length_le hP hgood t)
    · simpa using hnew
    · intro hmem
      exact hac _ (Chart.properAncestor_of_mem_descent hP hgood hmem)

/-- After its argument, `Start` enters at most as many states as the subtree is high. -/
theorem start_rounds (hP : P.chart.WellNested) (himpl : S.core.impl.isSome) {s : σ}
    {L₁ L₂ : List (Call σ ε α)}
    (htrace : (stateOf (P.start (some (.user s)) S)).trace = L₁ ++ .enterState (.user s) :: L₂) :
    (marks L₂).length ≤ height P.parent (.user s) := by
  have hac : Acyclic P.parent := hP.acyclic
  have hmarks := start_marks hP himpl s
  have hnodup := ancestors_nodup hac (.user s)
  unfold Chart.begin at hmarks
  rw [ancestors_eq_cons hac, List.nodup_cons] at hnodup
  rw [htrace, chart_parent, ancestors_eq_cons hac, List.reverse_cons, List.append_assoc,
    List.map_append] at hmarks
  refine (length_marks_le hmarks ?_ ?_).trans
    (Chart.descent_length_le hP Chart.goodMemory_empty (.user s))
  · simpa using hnodup.1
  · intro hmem
    exact hac _ (Chart.properAncestor_of_mem_descent hP Chart.goodMemory_empty hmem)

/-! ### How a call fails -/

omit [Inhabited ε] in
theorem react_failure (hP : P.chart.WellNested) (hS : P.Regular S)
    (h : P.react event S = .error f S') : f = .assertion ∨ f = .thrown ∨
      f = .nullPointer ∧ S.core.currentState = some .kInTransition ∧
        ∃ L, S'.trace = S.trace ++ L ∧ ∀ c ∈ L, c = .onHandleEvent .kInTransition event := by
  rcases hS.react_cases with hrefused | ⟨hcurrent, hidle⟩ | ⟨c, hidle⟩
  · rw [react_refused hrefused] at h
    exact .inl (EStateM.Result.error.inj h).1.symm
  · obtain ⟨⟨hf, -⟩, L, hpre, htrace⟩ :=
      (react_inTransition_runs hcurrent hidle event).of_error h
    rcases hf with rfl | ⟨-, rfl⟩
    · exact .inr (.inr ⟨rfl, hcurrent, L, htrace, fun c hc => eq_of_mem_callsIf (hpre.subset hc)⟩)
    · exact .inr (.inl rfl)
  · obtain ⟨asked, last, -, hruns⟩ := react_runs hP hidle event
    cases hanswer : P.answer event S with
    | none =>
      rw [hanswer] at hruns
      exact .inr (.inl (hruns.of_error h).1.1)
    | some response =>
      rw [hanswer] at hruns
      rcases (hruns.of_error h).1.1 with hf | ⟨hf, -⟩
      · exact .inr (.inl hf)
      · exact .inl hf

theorem start_failure (hP : P.chart.WellNested) {s : σ}
    (h : P.start (some (.user s)) S = .error f S') : f = .assertion ∨ f = .thrown := by
  cases himpl : S.core.impl with
  | none =>
    rw [start_refused himpl] at h
    exact .inl (EStateM.Result.error.inj h).1.symm
  | some i =>
    rw [start_apply (himpl ▸ rfl)] at h
    exact .inr ((start_runs hP S s).of_error h).1.1

/-! ### The result -/

/-- **Start and React end, and follow no null state pointer.** A call on a reachable machine that
does not return has been stopped by an assertion or by a callback; only where `Start` was stopped
before, `React` gets to the handler of `kInTransition`, which is null, after offering it the
event. In the descent below the target of a transition, or below the state `Start` was called
with, there are at most as many rounds, each entering one state, as the subtree there is high. -/
theorem reachable_ends (hP : P.chart.WellNested) (hS : P.Reachable S) :
    (∀ event f S', P.react event S = .error f S' → f = .assertion ∨ f = .thrown ∨
      f = .nullPointer ∧ S.core.currentState = some .kInTransition ∧
        ∃ L, S'.trace = S.trace ++ L ∧ ∀ c ∈ L, c = .onHandleEvent .kInTransition event) ∧
    (∀ s f S', P.start (some (.user s)) S = .error f S' → f = .assertion ∨ f = .thrown) ∧
    (∀ event t L₁ L₂, P.target event S = some t →
      (stateOf (P.react event S)).trace = S.trace ++ (L₁ ++ .enterState t :: L₂) →
      (marks L₂).length ≤ height P.parent t) ∧
    ∀ s L₁ L₂, S.core.impl.isSome →
      (stateOf (P.start (some (.user s)) S)).trace = L₁ ++ .enterState (.user s) :: L₂ →
      (marks L₂).length ≤ height P.parent (.user s) := by
  have hregular : P.Regular S := hS.regular hP
  exact ⟨fun event f S' h => react_failure hP hregular h, fun s f S' h => start_failure hP h,
    fun event t L₁ L₂ => react_rounds hP hregular, fun s L₁ L₂ himpl => start_rounds hP himpl⟩

/-- The traffic light, started in green. -/
def greenStarted : Sys Light (Response Light LightAction) LightAction Unit Unit :=
  stateOf (trafficLight.start (some (.user .green)) (stateOf (init (some ()) ⟨{}, (), []⟩)))

/-- On its way from green to on, the traffic light enters one state below on, which has height 1. -/
theorem trafficLight_ends :
    height trafficLight.parent (.user .on) = 1 ∧
      (∀ event S', trafficLight.react event greenStarted ≠ .error .diverged S' ∧
        trafficLight.react event greenStarted ≠ .error .nullPointer S') ∧
      ∃ L₁ L₂, (stateOf (trafficLight.react (.transitionTo .on) greenStarted)).trace =
          greenStarted.trace ++ (L₁ ++ .enterState (.user .on) :: L₂) ∧
        (marks L₂).length ≤ height trafficLight.parent (.user .on) ∧ (marks L₂).length = 1 := by
  have hreachable : trafficLight.Reachable greenStarted :=
    Reachable.start Light.green (.init (some ()) (.new ()))
  obtain ⟨hreact, -, hrounds, -⟩ := reachable_ends trafficLight_wellFormed.wellNested hreachable
  refine ⟨by decide +kernel, fun event S' => ⟨fun h => ?_, fun h => ?_⟩, ?_⟩
  · rcases hreact event _ S' h with hf | hf | ⟨hf, -⟩ <;> cases hf
  · rcases hreact event _ S' h with hf | hf | ⟨-, hcurrent, -⟩
    · cases hf
    · cases hf
    · exact absurd hcurrent (by decide)
  · have htrace : (stateOf (trafficLight.react (.transitionTo .on) greenStarted)).trace =
        greenStarted.trace ++ ([.handler .green (.transitionTo .on), .exitState (.user .green)] ++
          .enterState (.user .on) :: [.entryAction (.user .on) .onEntry (.transitionTo .on),
            .enterState (.user .green)]) := by
      decide +kernel
    exact ⟨_, _, htrace, hrounds _ _ _ _ (by decide +kernel) htrace, rfl⟩

end Fsm

end EventFramework.Statemachine
