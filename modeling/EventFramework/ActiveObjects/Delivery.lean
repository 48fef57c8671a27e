import EventFramework.ActiveObjects.Shutdown

/-!
# No event starves

A fair run of a domain in which the pushes at the front come to an end. An entry that has been
put in the queue is dispatched, sooner or later, if and only if no marker of `Stop` is in front
of it (`FairRun.delivered_iff`). What is in front of an entry when it is pushed decides: the
pushes at the back come behind it, and `Stop` is one of them.

The rank of an entry counts the steps of the loop until it has been dispatched (`Domain.steps`);
the entries in front of it are those that were pushed before it and not given out yet.
-/

namespace EventFramework.ActiveObjects

open DequeHistory FairRuns

namespace Domain

section Steps

variable {M : Semaphore} {T O ε : Type} [DecidableEq T] {s s' : Domain M T O ε} {domain : T}
  {capacity : Option ℕ} {d d' : Deque (QueueEntry O ε)} {p : Pushed (QueueEntry O ε)}

omit [DecidableEq T] in
/-- The entry has been dispatched. -/
def Delivered (p : Pushed (QueueEntry O ε)) (s : Domain M T O ε) : Prop :=
  ∃ d, run s.queue.history = some d ∧ p ∈ d.out.take s.dispatched.length

omit [DecidableEq T] in
/-- Neither the entry nor any that is or was in front of it is a marker. -/
def Unblocked (p : Pushed (QueueEntry O ε)) (s : Domain M T O ε) : Prop :=
  ∃ d, run s.queue.history = some d ∧ d.UpTo (fun entry => entry.target ≠ none) p

omit [DecidableEq T] in
/-- The entries to be dequeued until the entry is. -/
def ahead (p : Pushed (QueueEntry O ε)) (s : Domain M T O ε) : ℕ :=
  match run s.queue.history with
  | some d => (d.all.map Pushed.ticket).idxOf p.ticket + 1 - d.out.length
  | none => 0

omit [DecidableEq T] in
theorem ahead_of_run (hd : run s.queue.history = some d) :
    ahead p s = (d.all.map Pushed.ticket).idxOf p.ticket + 1 - d.out.length := by
  rw [ahead, hd]

/-- Only objects are pushed for at the front. -/
theorem Step.history (h : Step domain capacity s s') :
    s'.queue.history = s.queue.history ∨ ∃ op, s'.queue.history = s.queue.history ++ [op] ∧
      ∀ y, op = .pushFront y → y.target ≠ none := by
  cases h with
  | enqueueBack hq => exact .inr ⟨_, hq.ghosts_eq.1, by simp⟩
  | enqueueFront hq => exact .inr ⟨_, hq.ghosts_eq.1, fun y hy => by cases hy; simp⟩
  | stop honce hq => exact .inr ⟨_, hq.ghosts_eq.1, by simp⟩
  | release hq => exact .inl hq.ghosts_eq.1
  | acquire hphase hq => exact .inl hq.ghosts_eq.1
  | dequeue hphase hfront hq => exact .inr ⟨_, hq.ghosts_eq.1, by simp⟩
  | dispatched hphase => exact .inl rfl

theorem Step.mem_pushed (h : Step domain capacity s s') (hp : p ∈ pushed s.queue.history) :
    p ∈ pushed s'.queue.history := by
  obtain heq | ⟨op, heq, -⟩ := h.history
  · rwa [heq]
  · rw [heq, pushed_append]
    exact List.mem_append_left _ hp

/-- **No step blocks or unblocks an entry.** -/
theorem Step.unblocked_iff (hs : s.Sound d) (hs' : s'.Sound d') (h : Step domain capacity s s')
    (hp : p ∈ pushed s.queue.history) : Unblocked p s' ↔ Unblocked p s := by
  have hiff : ∀ {s : Domain M T O ε} {d}, s.Sound d →
      (Unblocked p s ↔ d.UpTo (fun entry => entry.target ≠ none) p) := by
    intro s d hs
    refine ⟨?_, fun hup => ⟨d, hs.run, hup⟩⟩
    rintro ⟨d₁, hd₁, hup⟩
    rwa [Option.some.inj (hs.run.symm.trans hd₁)]
  rw [hiff hs, hiff hs']
  obtain heq | ⟨op, heq, hfront⟩ := h.history
  · have hrun' := hs'.run
    rw [heq, hs.run] at hrun'
    rw [Option.some.inj hrun']
  · have happly : d.apply op = some d' := apply_of_run_concat hs.run (heq ▸ hs'.run)
    exact Deque.upTo_apply_iff hs'.run happly ((mem_all_iff hs.run).mpr hp) hfront

omit [DecidableEq T] in
theorem Sound.dispatched_eq (hs : s.Sound d) :
    s.dispatched = (d.out.take s.dispatched.length).map Pushed.value := by
  rw [List.map_take, ← hs.results, hs.popped, List.take_left]

omit [DecidableEq T] in
/-- What has been dispatched was not behind a marker. -/
theorem Delivered.unblocked (hs : s.Sound d) (h : Delivered p s) : Unblocked p s := by
  obtain ⟨d₁, hd₁, hp⟩ := h
  obtain rfl := Option.some.inj (hs.run.symm.trans hd₁)
  obtain ⟨before, after, htake⟩ := List.append_of_mem hp
  have hall : d.all = before ++ p :: (after ++ (d.out.drop s.dispatched.length ++ d.rest)) := by
    rw [Deque.all]
    conv_lhs => rw [← List.take_append_drop s.dispatched.length d.out, htake]
    simp
  refine ⟨d, hs.run, before, _, hall, fun q hq => hs.target _ (.inr ?_)⟩
  -- its entry is among those dispatched
  have hmem : q ∈ d.out.take s.dispatched.length := by
    rw [htake]
    simp only [List.mem_append, List.mem_cons] at hq ⊢
    tauto
  rw [hs.dispatched_eq]
  exact List.mem_map_of_mem hmem

omit [DecidableEq T] in
/-- An entry that is not blocked and not dispatched keeps `Run` from returning. -/
theorem Unblocked.phase_ne (hs : s.Sound d) (hu : Unblocked p s) (hd : ¬ Delivered p s) :
    s.phase ≠ .returned := by
  intro hreturned
  obtain ⟨d₁, hd₁, before, after, hall, hgood⟩ := hu
  obtain rfl := Option.some.inj (hs.run.symm.trans hd₁)
  -- the marker has been given out last
  have hvalues : d.out.map Pushed.value = s.dispatched ++ [.stop] := by
    rw [← hs.results, hs.popped, hreturned, taken]
  obtain ⟨out, m, hout, hdispatched, hm⟩ : ∃ out m, d.out = out ++ [m] ∧
      out.map Pushed.value = s.dispatched ∧ m.value = .stop := by
    obtain ⟨out, last, hout, hvalue, hlast⟩ := List.map_eq_append_iff.mp hvalues
    obtain ⟨m, rfl, hm⟩ := List.map_eq_singleton_iff.mp hlast
    exact ⟨out, m, hout, hvalue, hm⟩
  have hlength : s.dispatched.length = out.length := by rw [← hdispatched, List.length_map]
  have hpout : p ∉ out := fun hp => hd ⟨d, hs.run, by rwa [hlength, hout, List.take_left]⟩
  have hmarker : m ∈ before ++ [p] := by
    rw [Deque.all, hout, List.append_assoc, List.singleton_append] at hall
    obtain ⟨c, rfl, hc⟩ | ⟨c, rfl, hc⟩ := List.append_eq_append_iff.mp hall
    · cases c with
      | nil => simp [List.cons_eq_cons.mp hc]
      | cons q c => simp [List.cons_eq_cons.mp hc]
    · cases c with
      | nil => simp [List.cons_eq_cons.mp hc]
      | cons q c =>
        obtain ⟨rfl, -⟩ := List.cons_eq_cons.mp hc
        simp at hpout
  exact hgood m hmarker (by rw [hm]; rfl)

omit [DecidableEq T] in
/-- While the loop waits, an entry that has not been dispatched is in the queue. -/
theorem Sound.mem_rest (hs : s.Sound d) (hp : p ∈ pushed s.queue.history)
    (hd : ¬ Delivered p s) (hwaiting : s.phase = .waiting) : p ∉ d.out ∧ p ∈ d.rest := by
  have hlength : s.dispatched.length = d.out.length := by
    have hpopped := congrArg List.length hs.popped
    rw [hs.results, hwaiting, taken, List.append_nil, List.length_map] at hpopped
    exact hpopped.symm
  have hout : p ∉ d.out := fun hout =>
    hd ⟨d, hs.run, by rwa [hlength, List.take_length]⟩
  refine ⟨hout, ?_⟩
  have hall := (mem_all_iff hs.run).mpr hp
  exact (List.mem_append.mp hall).resolve_left hout

omit [DecidableEq T] in
theorem Sound.ahead_pos (hs : s.Sound d) (hp : p ∈ pushed s.queue.history)
    (hd : ¬ Delivered p s) (hwaiting : s.phase = .waiting) :
    d.out.length < (d.all.map Pushed.ticket).idxOf p.ticket + 1 := by
  obtain ⟨-, hrest⟩ := hs.mem_rest hp hd hwaiting
  have hnodup := nodup_all hs.run
  rw [Deque.all, List.map_append] at hnodup ⊢
  have hticket : p.ticket ∉ d.out.map Pushed.ticket := fun hmem =>
    (List.nodup_append.mp hnodup).2.2 _ hmem _ (List.mem_map_of_mem hrest) rfl
  rw [List.idxOf_append_of_notMem hticket, List.length_map]
  omega

omit [DecidableEq T] in
/-- Pushes at the back come behind the entry. -/
theorem Beside.ahead_eq (hs : s.Sound d) (hs' : s'.Sound d') (h : Beside s s')
    (hfront : ∀ e, s'.queue.history ≠ s.queue.history ++ [.pushFront e])
    (hp : p ∈ pushed s.queue.history) : ahead p s' = ahead p s := by
  obtain heq | ⟨op, hop, heq⟩ := h.history
  · rw [ahead, ahead, heq]
  · have happly : d.apply op = some d' := apply_of_run_concat hs.run (heq ▸ hs'.run)
    obtain ⟨l, hl⟩ := Deque.all_apply happly fun y hy => hfront y (by rw [heq, hy])
    have hticket : p.ticket ∈ d.all.map Pushed.ticket :=
      List.mem_map_of_mem ((mem_all_iff hs.run).mpr hp)
    rw [ahead_of_run hs.run, ahead_of_run hs'.run, hl, List.map_append,
      List.idxOf_append_of_mem hticket, (Deque.apply_perm hop happly).1]

/-- Every entry dequeued before the entry counts. -/
theorem Serve.ahead_lt (hs : s.Sound d) (hs' : s'.Sound d') (h : Serve domain capacity s s')
    (hp : p ∈ pushed s.queue.history) (hd : ¬ Delivered p s) :
    ahead p s' ≤ ahead p s ∧ ∀ entry, s.phase = .waiting → s'.phase = .dispatching entry →
      ahead p s' < ahead p s := by
  cases h with
  | acquire hphase hq =>
    refine ⟨?_, fun entry _ hdispatching => absurd (hphase.symm.trans hdispatching) (by simp)⟩
    rw [ahead, ahead, hq.ghosts_eq.1]
  | @dequeue entry queue hphase hfront hq =>
    have heq : queue.history = s.queue.history ++ [.pop] := hq.ghosts_eq.1
    have happly : d.apply .pop = some d' := apply_of_run_concat hs.run (heq ▸ hs'.run)
    obtain ⟨⟨e, hout⟩, hall⟩ := Deque.apply_pop happly
    have hpos := hs.ahead_pos hp hd hphase
    rw [ahead_of_run hs.run, ahead_of_run hs'.run, hall, hout, List.length_append,
      List.length_singleton]
    exact ⟨by omega, fun _ _ _ => by omega⟩
  | dispatched hphase =>
    exact ⟨le_rfl, fun _ hwaiting _ => absurd (hwaiting.symm.trans hphase) (by simp)⟩

end Steps

namespace FairRun

variable {T O ε : Type} [DecidableEq T] {max : ℕ} {domain : T} {capacity : Option ℕ}
  {σ : ℕ → Domain (stdSemaphore max) T O ε} {n k : ℕ} {p : Pushed (QueueEntry O ε)}

/-- An entry stays pushed, and blocked or not. -/
theorem unblocked_iff (h : FairRun domain capacity σ) (hp : p ∈ pushed (σ n).queue.history) :
    ∀ k, n ≤ k → p ∈ pushed (σ k).queue.history ∧ (Unblocked p (σ k) ↔ Unblocked p (σ n)) := by
  intro k hk
  induction k, hk using Nat.le_induction with
  | base => exact ⟨hp, .rfl⟩
  | succ k hk ih =>
    obtain hstep | heq := h.run k
    · obtain ⟨d, hd⟩ := (h.reachable_at k).sound
      obtain ⟨d', hd'⟩ := (h.reachable_at (k + 1)).sound
      exact ⟨hstep.mem_pushed ih.1, (hstep.unblocked_iff hd hd' ih.1).trans ih.2⟩
    · rwa [heq]

/-- When nobody pushes at the front, the loop gets to an entry that is not blocked. -/
theorem exists_delivered (h : FairRun domain capacity σ)
    (hfront : ∀ k e, (σ (k + 1)).queue.history ≠ (σ k).queue.history ++ [.pushFront e])
    (hp : p ∈ pushed (σ 0).queue.history) (hu : Unblocked p (σ 0)) : ∃ k, Delivered p (σ k) := by
  have hpushed : ∀ k, p ∈ pushed (σ k).queue.history := fun k =>
    (h.unblocked_iff hp k (Nat.zero_le k)).1
  have hunblocked : ∀ k, Unblocked p (σ k) := fun k =>
    (h.unblocked_iff hp k (Nat.zero_le k)).2.mpr hu
  have hserve : ∀ k, ¬ Delivered p (σ k) → Serve domain capacity (σ k) (σ (k + 1)) →
      steps domain (ahead p (σ (k + 1))) (σ (k + 1)) < steps domain (ahead p (σ k)) (σ k) := by
    intro k hk hserve
    obtain ⟨d, hd⟩ := (h.reachable_at k).sound
    obtain ⟨d', hd'⟩ := (h.reachable_at (k + 1)).sound
    obtain ⟨hle, hlt⟩ := hserve.ahead_lt hd hd' (hpushed k) hk
    exact hserve.steps_lt (h.reachable_at k).alone hle hlt
  refine exists_of_rank (Delivered p) (Serve domain capacity)
    (fun s => steps domain (ahead p s) s) (fun k hk _ => ?_) (fun k hk _ => hserve k hk)
    fun hnever n => ?_
  · obtain hstep | hbeside := h.serve_or_beside k
    · exact (hserve k hk hstep).le
    · obtain ⟨d, hd⟩ := (h.reachable_at k).sound
      obtain ⟨d', hd'⟩ := (h.reachable_at (k + 1)).sound
      rw [hbeside.ahead_eq hd hd' (hfront k) (hpushed k), hbeside.steps_eq]
  · obtain ⟨d, hd⟩ := (h.reachable_at n).sound
    refine h.serve.exists_act (h.exists_enabled ((hunblocked n).phase_ne hd (hnever n))
      fun hwaiting => ?_)
    have hrest := (hd.mem_rest (hpushed n) (hnever n) hwaiting).2
    rw [hd.queue]
    exact List.ne_nil_of_mem (List.mem_map_of_mem hrest)

/-- **No event starves.** In a fair run in which the pushes at the front come to an end, an entry
that has been pushed at some time is dispatched, sooner or later, if and only if no marker is in
front of it then. -/
theorem delivered_iff (h : FairRun domain capacity σ) (hfront : ∃ n, ∀ k, n ≤ k → ∀ e,
      (σ (k + 1)).queue.history ≠ (σ k).queue.history ++ [.pushFront e])
    (hp : p ∈ pushed (σ n).queue.history) : (∃ k, Delivered p (σ k)) ↔ Unblocked p (σ n) := by
  constructor
  · rintro ⟨k, hk⟩
    obtain ⟨d, hd⟩ := (h.reachable_at k).sound
    have hu : Unblocked p (σ k) := hk.unblocked hd
    obtain ⟨d₁, hd₁, hmem⟩ := hk
    have hpk : p ∈ pushed (σ k).queue.history :=
      (mem_all_iff hd₁).mp (List.mem_append_left _ (List.mem_of_mem_take hmem))
    obtain hnk | hkn := Nat.le_total n k
    · exact (h.unblocked_iff hp k hnk).2.mp hu
    · exact (h.unblocked_iff hpk n hkn).2.mpr hu
  · intro hu
    obtain ⟨m, hm⟩ := hfront
    obtain ⟨hpushed, hiff⟩ := h.unblocked_iff hp (n + m) (Nat.le_add_right n m)
    obtain ⟨k, hk⟩ := (h.shift (n + m)).exists_delivered
      (fun k => hm _ (Nat.le_add_right_of_le (Nat.le_add_left m n))) hpushed (hiff.mpr hu)
    exact ⟨_, hk⟩

/-- Thread 1 puts an entry in the queue for object 7, and the domain thread 0 dispatches it. -/
def deliverRun : ℕ → Domain (stdSemaphore 1) ℕ ℕ ℕ
  | 0 => {}
  | 1 => { queue := { queue := [⟨some 7, none⟩], enqueuing := insert 1 ∅
                      history := [.pushBack ⟨some 7, none⟩] } }
  | 2 => { queue := { queue := [⟨some 7, none⟩], sem := SemState.counter 1
                      enqueuing := (insert 1 ∅ : Finset ℕ).erase 1
                      history := [.pushBack ⟨some 7, none⟩] } }
  | 3 => { queue := { queue := [⟨some 7, none⟩], sem := SemState.counter 0
                      enqueuing := (insert 1 ∅ : Finset ℕ).erase 1
                      dequeuing := insert 0 ∅
                      history := [.pushBack ⟨some 7, none⟩] } }
  | 4 => { queue := { sem := SemState.counter 0
                      enqueuing := (insert 1 ∅ : Finset ℕ).erase 1
                      dequeuing := (insert 0 ∅ : Finset ℕ).erase 0
                      history := [.pushBack ⟨some 7, none⟩, .pop]
                      results := [⟨some 7, none⟩] }
           phase := .dispatching ⟨some 7, none⟩ }
  | _ => { queue := { sem := SemState.counter 0
                      enqueuing := (insert 1 ∅ : Finset ℕ).erase 1
                      dequeuing := (insert 0 ∅ : Finset ℕ).erase 0
                      history := [.pushBack ⟨some 7, none⟩, .pop]
                      results := [⟨some 7, none⟩] }
           dispatched := [⟨some 7, none⟩] }

theorem delivered_deliverRun : FairRun 0 none deliverRun ∧
    ∃ k, Delivered ⟨0, true, ⟨some 7, none⟩⟩ (deliverRun k) := by
  have hlast : ∀ k, 5 ≤ k → deliverRun k = deliverRun 5 := by
    intro k hk
    obtain ⟨k, rfl⟩ := Nat.exists_eq_add_of_le hk
    rw [Nat.add_comm]
    rfl
  have hrun : IsRun (Step 0 none) deliverRun := by
    intro k
    rcases k with _ | _ | _ | _ | _ | k
    · exact .inl (.enqueueBack
        (.pushBack (t := 1) ⟨by decide, by decide⟩ (EventQueue.room_none _)))
    · exact .inl (.release (.release (q := (deliverRun 1).queue) (t := 1)
        (m := SemState.counter 1) (by decide) ⟨0, rfl, rfl⟩))
    · exact .inl (.acquire (s := deliverRun 2) rfl (.acquire (q := (deliverRun 2).queue)
        (m := SemState.counter 0) ⟨by decide, by decide⟩ ⟨0, rfl, rfl⟩))
    · exact .inl (.dequeue (s := deliverRun 3) rfl rfl
        (.pop (q := (deliverRun 3).queue) (by decide) rfl))
    · exact .inl (.dispatched (s := deliverRun 4) rfl)
    · exact .inr rfl
  have hblocked : ∀ k, 5 ≤ k → ¬ Enabled (Serve 0 none) (deliverRun k) := by
    rintro k hk ⟨s', hs'⟩
    rw [hlast k hk] at hs'
    -- the queue is empty and the counter is zero
    cases hs' with
    | acquire hphase hq =>
      cases hq with
      | acquire ht hm =>
        obtain ⟨c, hc, -⟩ := hm
        cases hc
    | dequeue hphase hfront hq => cases hfront
    | dispatched hphase => cases hphase
  have h : FairRun 0 none deliverRun := by
    refine ⟨.init, hrun, fun n hn => ?_, fun t n hn => ?_, fun k => ?_, fun k hk => ?_⟩
    · exact absurd (hn (n + 5) (Nat.le_add_right n 5)) (hblocked _ (Nat.le_add_left 5 n))
    · obtain ⟨s', hs'⟩ := hn (n + 5) (Nat.le_add_right n 5)
      exact absurd hs'.mem (by simp [deliverRun])
    · rcases k with _ | _ | _ | _ | _ | k <;> simp [deliverRun, stdSemaphore]
    · rcases k with _ | _ | _ | _ | _ | k <;> simp [deliverRun]
  refine ⟨h, (h.delivered_iff (n := 1) ⟨5, fun k hk e => ?_⟩ (List.mem_singleton_self _)).mpr
    ⟨_, rfl, [], [], rfl, ?_⟩⟩
  · rw [hlast k hk, hlast (k + 1) (Nat.le_succ_of_le hk)]
    simp
  · simp

end FairRun

end Domain

end EventFramework.ActiveObjects
