import EventFramework.ActiveObjects.EventQueue

/-!
# Stopping a domain

The loop of `ActiveObjectDomainBase.hxx`: `Run` dequeues entries and dispatches them until it
dequeues one whose target is null, and `Stop` puts such an entry at the back of the queue. The
entry of `Stop` is an entry like any other: while it waits in the queue, other threads and the
dispatched objects go on enqueuing at both ends.

The entries that `Run` dispatches before it returns are those pushed before the marker and those
pushed at the front before the marker was popped; what it leaves in the queue are those pushed
at the back behind the marker and those pushed after its pop (`reachable_drains`).
-/

namespace EventFramework.ActiveObjects

open DequeHistory

/-! ### The loop -/

/-- `IEventQueue::QueueEntry`, two pointers that may be null. -/
structure QueueEntry (O ε : Type) where
  target : Option O
  event : Option ε
  deriving DecidableEq, Repr

/-- The entry of `Stop`. -/
def QueueEntry.stop {O ε : Type} : QueueEntry O ε := ⟨none, none⟩

/-- Where the domain thread is. -/
inductive RunPhase (O ε : Type)
  /-- at `Dequeue` -/
  | waiting
  /-- in `Dispatch` of the target of an entry -/
  | dispatching (entry : QueueEntry O ε)
  /-- `Run` has returned -/
  | returned
  deriving DecidableEq, Repr

/-- What `Run` does with an entry. -/
def QueueEntry.received {O ε : Type} (entry : QueueEntry O ε) : RunPhase O ε :=
  match entry.target with
  | none => .returned
  | some _ => .dispatching entry

/-- A domain: its queue and its thread. -/
structure Domain (M : Semaphore) (T O ε : Type) where
  queue : EventQueue M T (QueueEntry O ε) := {}
  phase : RunPhase O ε := .waiting
  /-- `Stop` has been called (ghost) -/
  stopCalled : Bool := false
  /-- the entries whose dispatch has returned (ghost) -/
  dispatched : List (QueueEntry O ε) := []

namespace Domain

variable {M : Semaphore} {T O ε : Type} [DecidableEq T]

/-- The steps. Any thread enqueues for an object, also the domain thread `domain` while it
dispatches; one call of `Stop` is made; only the domain thread dequeues. -/
inductive Step (domain : T) (capacity : Option ℕ) : Domain M T O ε → Domain M T O ε → Prop
  | enqueueBack {s t target event queue}
      (hq : s.queue.Step capacity (.pushBack t ⟨some target, event⟩) queue) :
      Step domain capacity s { s with queue }
  | enqueueFront {s t target event queue}
      (hq : s.queue.Step capacity (.pushFront t ⟨some target, event⟩) queue) :
      Step domain capacity s { s with queue }
  | stop {s t queue} (honce : s.stopCalled = false)
      (hq : s.queue.Step capacity (.pushBack t .stop) queue) :
      Step domain capacity s { s with queue, stopCalled := true }
  | release {s t queue} (hq : s.queue.Step capacity (.release t) queue) :
      Step domain capacity s { s with queue }
  -- the loop of `Run`
  | acquire {s queue} (hphase : s.phase = .waiting)
      (hq : s.queue.Step capacity (.acquire domain) queue) :
      Step domain capacity s { s with queue }
  | dequeue {s entry queue} (hphase : s.phase = .waiting)
      (hfront : s.queue.queue.head? = some entry)
      (hq : s.queue.Step capacity (.pop domain) queue) :
      Step domain capacity s { s with queue, phase := entry.received }
  | dispatched {s entry} (hphase : s.phase = .dispatching entry) :
      Step domain capacity s { s with
        phase := .waiting
        dispatched := s.dispatched ++ [entry] }

/-- The states reached from a domain with an empty queue. -/
inductive Reachable (domain : T) (capacity : Option ℕ) : Domain M T O ε → Prop
  | init : Reachable domain capacity {}
  | step {s s' : Domain M T O ε} (hs : Reachable domain capacity s)
      (h : Step domain capacity s s') : Reachable domain capacity s'

/-! ### The marker in the queue -/

/-- The pushes among `ops` that the marker lets through: what is put at the front before it is
popped. -/
def atFront (before ops : List (Op (QueueEntry O ε))) : List (Pushed (QueueEntry O ε)) :=
  (pushedSince (before ++ [.pushBack .stop]) ops).filter fun p => !p.back

/-- The pushes among `ops` that the marker stops: what is put behind it. -/
def behind (before ops : List (Op (QueueEntry O ε))) : List (Pushed (QueueEntry O ε)) :=
  (pushedSince (before ++ [.pushBack .stop]) ops).filter Pushed.back

/-- **How `Run` leaves the queue.** The locked operations were `before`, the push of the marker,
`between`, the pop of the marker, and `after`; `served` are the pushes whose entries have been
dispatched, in this order, and `left` those whose entries are in the queue. -/
structure Drained (s : Domain M T O ε) (before between after : List (Op (QueueEntry O ε)))
    (served left : List (Pushed (QueueEntry O ε))) : Prop where
  history : s.queue.history = before ++ [.pushBack .stop] ++ between ++ [.pop] ++ after
  /-- the pop after `between` is the last one, and it has given out the marker -/
  after_push : ∀ op ∈ after, op ≠ .pop
  out : ∃ n, run s.queue.history = some ⟨served ++ [mark before .stop], left, n⟩
  dispatched : s.dispatched = served.map Pushed.value
  queue : s.queue.queue = left.map Pushed.value
  served_perm : served.Perm (pushed before ++ atFront before between)
  left_perm : left.Perm (behind before between ++
    pushedSince (before ++ [.pushBack .stop] ++ between ++ [.pop]) after)

/-- Where the marker is: not pushed yet, in the queue, or popped. -/
inductive Progress (s : Domain M T O ε) (d : Deque (QueueEntry O ε)) : Prop
  | serving (hstop : s.stopCalled = false) (hphase : s.phase ≠ .returned)
      (htarget : ∀ p ∈ pushed s.queue.history, p.value.target ≠ none)
  | stopping (before since : List (Op (QueueEntry O ε))) (hstop : s.stopCalled = true)
      (hphase : s.phase ≠ .returned)
      (hhistory : s.queue.history = before ++ [.pushBack .stop] ++ since)
      (hmarked : d.Marked before .stop since)
      (htarget : ∀ p ∈ pushed before ++ pushedSince (before ++ [.pushBack .stop]) since,
        p.value.target ≠ none)
  | drained (before between after : List (Op (QueueEntry O ε)))
      (served : List (Pushed (QueueEntry O ε))) (hstop : s.stopCalled = true)
      (hphase : s.phase = .returned)
      (hhistory : s.queue.history = before ++ [.pushBack .stop] ++ between ++ [.pop] ++ after)
      (hafter : ∀ op ∈ after, op ≠ .pop)
      (hout : d.out = served ++ [mark before .stop])
      (hserved : served.Perm (pushed before ++ atFront before between))
      (hrest : d.rest.Perm (behind before between ++
        pushedSince (before ++ [.pushBack .stop] ++ between ++ [.pop]) after))

/-- The entries taken from the queue and not dispatched yet. -/
@[simp]
def taken : RunPhase O ε → List (QueueEntry O ε)
  | .waiting => []
  | .dispatching entry => [entry]
  | .returned => [.stop]

/-- The invariant. -/
structure Sound (s : Domain M T O ε) (d : Deque (QueueEntry O ε)) : Prop where
  run : run s.queue.history = some d
  results : s.queue.results = d.out.map Pushed.value
  queue : s.queue.queue = d.rest.map Pushed.value
  popped : s.queue.results = s.dispatched ++ taken s.phase
  target : ∀ entry, s.phase = .dispatching entry ∨ entry ∈ s.dispatched → entry.target ≠ none
  progress : s.Progress d

variable {s s' : Domain M T O ε} {d d' : Deque (QueueEntry O ε)}
  {op : Op (QueueEntry O ε)} {entry : QueueEntry O ε}

theorem received_eq_returned : entry.received = .returned ↔ entry.target = none := by
  unfold QueueEntry.received
  split <;> simp [*]

theorem received_of_target (h : entry.target ≠ none) : entry.received = .dispatching entry := by
  unfold QueueEntry.received
  split
  · contradiction
  · rfl

theorem received_eq_dispatching {e : QueueEntry O ε} (h : entry.received = .dispatching e) :
    e.target ≠ none := by
  intro he
  by_cases htarget : entry.target = none
  · exact nomatch h.symm.trans (received_eq_returned.mpr htarget)
  · rw [received_of_target htarget] at h
    obtain rfl := RunPhase.dispatching.inj h
    exact htarget he

omit [DecidableEq T] in
theorem Progress.congr (h : s.Progress d) (hhistory : s'.queue.history = s.queue.history)
    (hstop : s'.stopCalled = s.stopCalled)
    (hphase : s'.phase = .returned ↔ s.phase = .returned) : s'.Progress d := by
  cases h with
  | serving hs hp htarget =>
    exact .serving (hstop ▸ hs) (mt hphase.mp hp) (hhistory ▸ htarget)
  | stopping before since hs hp hhist hmarked htarget =>
    exact .stopping before since (hstop ▸ hs) (mt hphase.mp hp) (hhistory.trans hhist) hmarked
      htarget
  | drained before between after served hs hp hhist hafter hout hserved hrest =>
    exact .drained before between after served (hstop ▸ hs) (hphase.mpr hp)
      (hhistory.trans hhist) hafter hout hserved hrest

/-- Pushing an entry for an object. -/
inductive IsPush (entry : QueueEntry O ε) : Op (QueueEntry O ε) → Prop
  | back : IsPush entry (.pushBack entry)
  | front : IsPush entry (.pushFront entry)

theorem IsPush.ne_pop (h : IsPush entry op) : op ≠ .pop := by
  cases h <;> simp

theorem IsPush.value_eq (h : IsPush entry op) {before : List (Op (QueueEntry O ε))}
    {p : Pushed (QueueEntry O ε)} (hp : p ∈ pushedSince before [op]) : p.value = entry := by
  cases h with
  | back => rw [List.mem_singleton.mp hp]
  | front => rw [List.mem_singleton.mp hp]

omit [DecidableEq T] in
/-- A push leaves the marker where it is. -/
theorem Progress.push (h : s.Progress d) (hrun : run s.queue.history = some d)
    (hop : IsPush entry op) (hentry : entry.target ≠ none) (happly : d.apply op = some d')
    (hhistory : s'.queue.history = s.queue.history ++ [op])
    (hstop : s'.stopCalled = s.stopCalled) (hphase : s'.phase = s.phase) : s'.Progress d' := by
  -- the new entry is for an object
  have hnew : ∀ before, ∀ p ∈ pushedSince before [op], p.value.target ≠ none :=
    fun before p hp => hop.value_eq hp ▸ hentry
  cases h with
  | serving hs hp htarget =>
    refine .serving (hstop ▸ hs) (hphase ▸ hp) ?_
    rw [hhistory, pushed_append]
    exact List.forall_mem_append.mpr ⟨htarget, hnew _⟩
  | stopping before since hs hp hhist hmarked htarget =>
    rw [hhist] at hrun
    refine .stopping before (since ++ [op]) (hstop ▸ hs) (hphase ▸ hp) ?_
      (hmarked.push hrun hop.ne_pop happly) ?_
    · rw [hhistory, hhist, List.append_assoc]
    · rw [pushedSince_append, ← List.append_assoc]
      exact List.forall_mem_append.mpr ⟨htarget, hnew _⟩
  | drained before between after served hs hp hhist hafter hout hserved hrest =>
    obtain ⟨hout', hrest'⟩ := Deque.apply_perm hop.ne_pop happly
    refine .drained before between (after ++ [op]) served (hstop ▸ hs) (hphase.trans hp) ?_ ?_
      (hout'.trans hout) hserved ?_
    · rw [hhistory, hhist, List.append_assoc]
    · exact List.forall_mem_append.mpr ⟨hafter, by simpa using hop.ne_pop⟩
    · rw [pushedSince_append, ← hhist, pushedSince_of_run hrun, ← List.append_assoc]
      exact hrest'.trans (hrest.append_right _)

omit [DecidableEq T] in
/-- `Stop` puts the marker in. -/
theorem Progress.stop (h : s.Progress d) (hrun : run s.queue.history = some d)
    (honce : s.stopCalled = false) (happly : d.apply (.pushBack .stop) = some d')
    (hhistory : s'.queue.history = s.queue.history ++ [.pushBack .stop])
    (hstop : s'.stopCalled = true) (hphase : s'.phase = s.phase) : s'.Progress d' := by
  cases h with
  | serving hs hp htarget =>
    refine .stopping s.queue.history [] hstop (hphase ▸ hp) ?_
      (Deque.marked_pushBack hrun happly) ?_
    · rw [hhistory, List.append_nil]
    · simpa [pushedSince, pushedFrom] using htarget
  | stopping _ _ hs => exact absurd (honce.symm.trans hs) Bool.false_ne_true
  | drained _ _ _ _ hs => exact absurd (honce.symm.trans hs) Bool.false_ne_true

omit [DecidableEq T] in
/-- A pop gives out the marker if and only if the entry has no target. -/
theorem Progress.pop (h : s.Progress d) (hrun : run s.queue.history = some d)
    (hwaiting : s.phase = .waiting) (happly : d.apply .pop = some d')
    (hentry : d'.out.map Pushed.value = d.out.map Pushed.value ++ [entry])
    (hhistory : s'.queue.history = s.queue.history ++ [.pop])
    (hstop : s'.stopCalled = s.stopCalled) (hphase : s'.phase = entry.received) :
    s'.Progress d' := by
  have hnone : ∀ before : List (Op (QueueEntry O ε)), pushedSince before [.pop] = [] :=
    fun _ => rfl
  cases h with
  | serving hs hp htarget =>
    -- what comes out has been pushed
    have hmem : entry ∈ (pushed (s.queue.history ++ [.pop])).map Pushed.value := by
      have hvalid := run_valid (run_concat_of_apply hrun happly)
      have hout : entry ∈ d'.out.map Pushed.value := by simp [hentry]
      exact ((hvalid.perm.map Pushed.value).mem_iff).mp (by simp [hout])
    rw [pushed_append, hnone, List.append_nil] at hmem
    obtain ⟨p, hp', rfl⟩ := List.mem_map.mp hmem
    refine .serving (hstop ▸ hs) ?_ ?_
    · rw [hphase, Ne, received_eq_returned]
      exact htarget p hp'
    · rw [hhistory, pushed_append, hnone, List.append_nil]
      exact htarget
  | stopping before since hs hp hhist hmarked htarget =>
    obtain ⟨p, hout, hcase⟩ := hmarked.pop happly
    obtain rfl : p.value = entry := by simpa [hout] using hentry
    obtain ⟨hmem, hmarked'⟩ | ⟨rfl, hrest, hserved⟩ := hcase
    · -- an entry from in front of the marker
      have hvalue : p.value.target ≠ none := by
        refine htarget p (List.mem_append.mpr ?_)
        exact (List.mem_append.mp hmem).imp_right List.mem_of_mem_filter
      refine .stopping before (since ++ [.pop]) (hstop ▸ hs) ?_ ?_ hmarked' ?_
      · rw [hphase, Ne, received_eq_returned]
        exact hvalue
      · rw [hhistory, hhist, List.append_assoc]
      · rwa [pushedSince_append, hnone, List.append_nil]
    · -- the marker
      refine .drained before since [] d.out (hstop ▸ hs) ?_ ?_ (by simp) hout hserved ?_
      · rw [hphase]
        rfl
      · rw [hhistory, hhist, List.append_nil]
      · rw [hrest]
        exact .of_eq (List.append_nil _).symm
  | drained _ _ _ _ hs hp => exact absurd (hwaiting.symm.trans hp) (by simp)

omit [DecidableEq T] in
/-- The entry that ends `Run` is that of `Stop`. -/
theorem Progress.taken_received {l : List (QueueEntry O ε)} (h : s.Progress d)
    (hentry : d.out.map Pushed.value = l ++ [entry]) (hphase : s.phase = entry.received) :
    taken entry.received = [entry] := by
  by_cases htarget : entry.target = none
  · have hreturned := received_eq_returned.mpr htarget
    cases h with
    | serving _ hp => exact absurd (hphase.trans hreturned) hp
    | stopping _ _ _ hp => exact absurd (hphase.trans hreturned) hp
    | drained _ _ _ _ _ _ _ _ hout =>
      rw [hout, List.map_append] at hentry
      obtain ⟨-, hstop⟩ := List.append_inj' hentry rfl
      rw [hreturned, ← hstop]
      rfl
  · rw [received_of_target htarget]
    rfl

omit [DecidableEq T] in
theorem Sound.refinesDeque (hs : s.Sound d) : s.queue.RefinesDeque :=
  ⟨d, hs.run, hs.results, hs.queue⟩

/-- An entry for an object is enqueued. -/
theorem Sound.push {capacity : Option ℕ} {l : Label T (QueueEntry O ε)}
    {queue : EventQueue M T (QueueEntry O ε)} (hs : s.Sound d) (hq : s.queue.Step capacity l queue)
    (hop : IsPush entry op) (hentry : entry.target ≠ none)
    (hhistory : queue.history = s.queue.history ++ [op])
    (hresults : queue.results = s.queue.results) : ∃ d', { s with queue }.Sound d' := by
  obtain ⟨d', hrun, hresults', hqueue⟩ := hq.refinesDeque hs.refinesDeque
  have happly : d.apply op = some d' := apply_of_run_concat hs.run (hhistory ▸ hrun)
  exact ⟨d', hrun, hresults', hqueue, hresults.trans hs.popped, hs.target,
    hs.progress.push hs.run hop hentry happly hhistory rfl rfl⟩

/-- A step of the queue that leaves the list. -/
theorem Sound.silent {capacity : Option ℕ} {l : Label T (QueueEntry O ε)}
    {queue : EventQueue M T (QueueEntry O ε)} (hs : s.Sound d) (hq : s.queue.Step capacity l queue)
    (hhistory : queue.history = s.queue.history)
    (hresults : queue.results = s.queue.results) : ∃ d', { s with queue }.Sound d' := by
  obtain ⟨d', hrun, hresults', hqueue⟩ := hq.refinesDeque hs.refinesDeque
  obtain rfl : d = d' := Option.some.inj (hs.run.symm.trans (hhistory ▸ hrun))
  exact ⟨d, hrun, hresults', hqueue, hresults.trans hs.popped, hs.target,
    hs.progress.congr hhistory rfl .rfl⟩

/-- **One step.** -/
theorem Sound.step {domain : T} {capacity : Option ℕ} (hs : s.Sound d)
    (h : Step domain capacity s s') : ∃ d', s'.Sound d' := by
  cases h with
  | enqueueBack hq =>
    exact hs.push hq .back (Option.some_ne_none _) hq.ghosts_eq.1 hq.ghosts_eq.2
  | enqueueFront hq =>
    exact hs.push hq .front (Option.some_ne_none _) hq.ghosts_eq.1 hq.ghosts_eq.2
  | @stop _ queue honce hq =>
    obtain ⟨hhistory, hresults⟩ := hq.ghosts_eq
    obtain ⟨d', hrun, hresults', hqueue⟩ := hq.refinesDeque hs.refinesDeque
    have happly : d.apply (.pushBack .stop) = some d' :=
      apply_of_run_concat hs.run (hhistory ▸ hrun)
    exact ⟨d', hrun, hresults', hqueue, hresults.trans hs.popped, hs.target,
      hs.progress.stop hs.run honce happly hhistory rfl rfl⟩
  | release hq => exact hs.silent hq hq.ghosts_eq.1 hq.ghosts_eq.2
  | acquire hphase hq => exact hs.silent hq hq.ghosts_eq.1 hq.ghosts_eq.2
  | @dequeue entry queue hphase hfront hq =>
    obtain ⟨hhistory, e, he, hresults⟩ := hq.ghosts_eq
    obtain rfl : e = entry := Option.some.inj (he.symm.trans hfront)
    obtain ⟨d', hrun, hresults', hqueue⟩ := hq.refinesDeque hs.refinesDeque
    have happly : d.apply .pop = some d' := apply_of_run_concat hs.run (hhistory ▸ hrun)
    have hvalues : d'.out.map Pushed.value = d.out.map Pushed.value ++ [e] := by
      rw [← hresults', hresults, hs.results]
    have hprogress : Progress { s with queue, phase := e.received } d' :=
      hs.progress.pop hs.run hphase happly hvalues hhistory rfl rfl
    refine ⟨d', hrun, hresults', hqueue, ?_, ?_, hprogress⟩
    · have htaken : taken e.received = [e] := hprogress.taken_received hvalues rfl
      rw [hresults, hs.popped, hphase, htaken, taken, List.append_nil]
    · rintro x (hx | hx)
      · exact received_eq_dispatching hx
      · exact hs.target x (.inr hx)
  | @dispatched entry hphase =>
    refine ⟨d, hs.run, hs.results, hs.queue, ?_, ?_, ?_⟩
    · simpa [hphase] using hs.popped
    · simp only [List.mem_append, List.mem_singleton]
      rintro e (he | he | rfl)
      · exact nomatch he
      · exact hs.target e (.inr he)
      · exact hs.target e (.inl hphase)
    · exact hs.progress.congr rfl rfl (by simp [hphase])

theorem Step.queue_step {domain : T} {capacity : Option ℕ} (h : Step domain capacity s s') :
    (∃ l, s.queue.Step capacity l s'.queue) ∨ s'.queue = s.queue := by
  cases h with
  | dispatched hphase => exact .inr rfl
  | _ => exact .inl ⟨_, ‹_›⟩

/-- The queue of a domain is used as an event queue. -/
theorem Reachable.queue_run {domain : T} {capacity : Option ℕ} (h : Reachable domain capacity s) :
    ∃ ls, EventQueue.Run capacity ls s.queue := by
  induction h with
  | init => exact ⟨[], .nil⟩
  | step _ hstep ih =>
    obtain ⟨ls, hls⟩ := ih
    obtain ⟨l, hl⟩ | heq := hstep.queue_step
    · exact ⟨ls ++ [l], .concat hls hl⟩
    · exact ⟨ls, heq ▸ hls⟩

/-- **The invariant of the reachable states.** -/
theorem Reachable.sound {domain : T} {capacity : Option ℕ} (h : Reachable domain capacity s) :
    ∃ d, s.Sound d := by
  induction h with
  | init =>
    refine ⟨⟨[], [], 0⟩, rfl, rfl, rfl, rfl, ?_, .serving rfl (by simp) ?_⟩
    · rintro entry (h | h)
      · exact nomatch h
      · exact nomatch h
    · exact fun p hp => nomatch hp
  | step _ hstep ih =>
    obtain ⟨d, hd⟩ := ih
    exact hd.step hstep

/-- **Stopping drains the queue.** With a semaphore whose acquires never outnumber its releases,
under every interleaving: the domain thread never pops an empty list and never dispatches to a
null target; and when `Run` has returned, it has dispatched exactly the entries pushed before the
marker and those pushed at the front before the marker was popped, each push once, and has left
in the queue exactly those pushed at the back behind the marker and those pushed after its pop. -/
theorem reachable_drains {domain : T} {capacity : Option ℕ} (hM : M.Counts)
    (h : Reachable domain capacity s) :
    (domain ∈ s.queue.dequeuing → s.queue.queue ≠ []) ∧
    (∀ entry, s.phase = .dispatching entry ∨ entry ∈ s.dispatched → entry.target ≠ none) ∧
    (s.phase = .returned → ∃ before between after served left,
      s.Drained before between after served left ∧
        ((served ++ left).map Pushed.ticket).Nodup) := by
  obtain ⟨ls, hrun⟩ := h.queue_run
  obtain ⟨d, hd⟩ := h.sound
  refine ⟨hrun.accounted.queue_ne_nil hM, hd.target, fun hreturned => ?_⟩
  cases hd.progress with
  | serving _ hp => exact absurd hreturned hp
  | stopping _ _ _ hp => exact absurd hreturned hp
  | drained before between after served _ _ hhist hafter hout hserved hrest =>
    refine ⟨before, between, after, served, d.rest, ⟨hhist, hafter, ⟨d.pushes, ?_⟩, ?_, hd.queue,
      hserved, hrest⟩, ?_⟩
    · rw [← hout]
      exact hd.run
    · -- the last result is the marker
      have hpopped := hd.results.symm.trans hd.popped
      rw [hout, hreturned, List.map_append] at hpopped
      exact (List.append_inj_left' hpopped rfl).symm
    · have hnodup := (((run_valid hd.run).perm.map Pushed.ticket).nodup_iff).mpr
        (nodup_pushed s.queue.history)
      refine hnodup.sublist (List.Sublist.map _ ?_)
      rw [hout, List.append_assoc]
      exact (List.Sublist.refl served).append (List.sublist_append_right _ _)

/-- The domain thread 0 dispatches what thread 1 has put at the front behind its call of `Stop`,
but not what it has put at the back. -/
theorem reachable_drains_returned : ∃ s : Domain (stdSemaphore 3) ℕ ℕ ℕ, Reachable 0 none s ∧
    s.phase = .returned ∧ s.dispatched = [⟨some 6, none⟩] ∧ s.queue.queue = [⟨some 5, none⟩] ∧
    ∃ before between after served left, s.Drained before between after served left := by
  have hinit : Reachable 0 none ({} : Domain (stdSemaphore 3) ℕ ℕ ℕ) := .init
  have hstop : Reachable 0 none _ := .step hinit
    (.stop rfl (.pushBack (t := 1) ⟨by decide, by decide⟩ (EventQueue.room_none _)))
  have hreleased : Reachable 0 none _ := .step hstop
    (.release (.release (t := 1) (m := SemState.counter 1) (by decide) ⟨0, rfl, rfl⟩))
  have hback : Reachable 0 none _ := .step hreleased (.enqueueBack
    (.pushBack (t := 1) (e := (⟨some 5, none⟩ : QueueEntry ℕ ℕ))
      ⟨by decide, by decide⟩ (EventQueue.room_none _)))
  have hreleased : Reachable 0 none _ := .step hback
    (.release (.release (t := 1) (m := SemState.counter 2) (by decide) ⟨1, rfl, rfl⟩))
  have hfront : Reachable 0 none _ := .step hreleased (.enqueueFront
    (.pushFront (t := 1) (e := (⟨some 6, none⟩ : QueueEntry ℕ ℕ))
      ⟨by decide, by decide⟩ (EventQueue.room_none _)))
  have hacquired : Reachable 0 none _ := .step hfront
    (.acquire rfl (.acquire (t := 0) (m := SemState.counter 1) ⟨by decide, by decide⟩
      ⟨1, rfl, rfl⟩))
  have hdequeued : Reachable 0 none _ := .step hacquired
    (.dequeue rfl rfl (.pop (t := 0) (by decide) rfl))
  have hdispatched : Reachable 0 none _ := .step hdequeued (.dispatched rfl)
  have hacquired : Reachable 0 none _ := .step hdispatched
    (.acquire rfl (.acquire (t := 0) (m := SemState.counter 0) ⟨by decide, by decide⟩
      ⟨0, rfl, rfl⟩))
  have hreturned : Reachable 0 none _ := .step hacquired
    (.dequeue rfl rfl (.pop (t := 0) (by decide) rfl))
  obtain ⟨before, between, after, served, left, h, -⟩ :=
    (reachable_drains (stdSemaphore_counts 3) hreturned).2.2 rfl
  exact ⟨_, hreturned, rfl, rfl, rfl, before, between, after, served, left, h⟩

end Domain

end EventFramework.ActiveObjects
