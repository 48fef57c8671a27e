import EventFramework.ActiveObjects.EventQueue
import EventFramework.Pools.PoolRuns

/-!
# The queue without a heap

The two `EventQueue.hxx` side by side, in the order in which their lock lets the operations
pass. `cpp_active_objects::EventQueue` is a list on the heap; in
`cpp_active_objects_embedded::EventQueue` the list takes its nodes from a `StaticPool` with
`NumEntries` elements and gives each back when its entry is popped, so that the entries live in
the memory through which the free list of the pool runs.

The list itself is the one of the standard library. It is a sequence of nodes, and `NodeLayout`
says what is needed of a node: it fits into a block, and the entry put into it can be read back,
whatever the list does to its links.

`embeddedQueue_refines` is the comparison: as long as no more than `NumEntries` entries are
queued the two queues give the same results, and `Represents` is the simulation between them.
-/

namespace EventFramework.ActiveObjects

open DequeHistory ErrorState Pools

/-! ### The operations -/

/-- The locked parts of an event queue with states `S`. -/
structure IEventQueue (S E : Type) where
  /-- the states of a new queue -/
  Init : S → Prop
  /-- what may happen to the state without changing the entries -/
  Silent : S → S → Prop
  size : S → ℕ
  enqueueBack : E → EStateM Fault S Unit
  enqueueFront : E → EStateM Fault S Unit
  dequeue : EStateM Fault S E

namespace IEventQueue

variable {S E : Type} (I : IEventQueue S E)

/-- An operation and its result. -/
def perform : Op E → EStateM Fault S (Option E)
  | .pushBack entry => do
    I.enqueueBack entry
    return none
  | .pushFront entry => do
    I.enqueueFront entry
    return none
  | .pop => return some (← I.dequeue)

/-- The runs, with the outcome of each operation. `Dequeue` waits for an entry; a failed
assertion leaves the operation by an exception. -/
inductive Run : List (Op E) → List (Except Fault (Option E)) → S → Prop
  | init {s : S} (h : I.Init s) : Run [] [] s
  | silent {ops : List (Op E)} {outs : List (Except Fault (Option E))} {s s' : S}
      (hs : Run ops outs s) (h : I.Silent s s') : Run ops outs s'
  | ok {ops : List (Op E)} {outs : List (Except Fault (Option E))} {s s' : S} {op : Op E}
      {out : Option E} (hs : Run ops outs s) (hready : op = .pop → I.size s ≠ 0)
      (h : I.perform op s = .ok out s') : Run (ops ++ [op]) (outs ++ [.ok out]) s'
  | error {ops : List (Op E)} {outs : List (Except Fault (Option E))} {s s' : S} {op : Op E}
      {f : Fault} (hs : Run ops outs s) (hready : op = .pop → I.size s ≠ 0)
      (h : I.perform op s = .error f s') : Run (ops ++ [op]) (outs ++ [.error f]) s'

end IEventQueue

/-- `cpp_active_objects::EventQueue`. -/
def heapQueue (E : Type) : IEventQueue (List E) E where
  Init queue := queue = []
  Silent _ _ := False
  size := List.length
  enqueueBack entry := modify fun queue => queue ++ [entry]
  enqueueFront entry := modify fun queue => entry :: queue
  dequeue := do
    match ← get with
    | [] => throw .badPointer
    | entry :: rest =>
      set rest
      return entry

/-- The nodes of a list whose entries are of type `E`, in blocks of a pool: size and alignment
of a node, what its construction writes, and the entry that is read from it. -/
structure NodeLayout (c : Config) (E : Type) where
  size : ℕ
  alignment : ℕ
  store : E → (Fin c.words → BitVec 64) → Fin c.words → BitVec 64
  load : (Fin c.words → BitVec 64) → E
  size_le : size ≤ kAlignedElementSize c.elemSize
  load_store : ∀ entry contents, load (store entry contents) = entry

/-- `cpp_active_objects_embedded::EventQueue`: the pool, and the nodes of the list in order. -/
structure EmbeddedQueue (c : Config) where
  memoryPool : StaticPool c
  queue : List (BitVec 64)

namespace EmbeddedQueue

variable {c : Config} {E A : Type} (L : NodeLayout c E)

/-- A call to the pool, or an access to its memory. -/
def inPool (m : PoolM c A) : EStateM Fault (EmbeddedQueue c) A := fun q =>
  match m q.memoryPool with
  | .ok a memoryPool => .ok a { q with memoryPool }
  | .error f memoryPool => .error f { q with memoryPool }

/-- Read the contents of a block. -/
def readBlock (ptr : BitVec 64) : PoolM c (Fin c.words → BitVec 64) := do
  match c.pointee ptr with
  | none => throw .badPointer
  | some i => return (← get).poolMem i

/-- Overwrite the contents of a block. -/
def writeBlock (ptr : BitVec 64) (contents : Fin c.words → BitVec 64) : PoolM c Unit := do
  match c.pointee ptr with
  | none => throw .badPointer
  | some i => modify fun pool => pool.write i contents

/-- A new node with an entry in it. -/
def createNode (entry : E) : EStateM Fault (EmbeddedQueue c) (BitVec 64) := inPool do
  let node ← StaticPool.doAllocate L.size L.alignment
  let contents ← readBlock node
  writeBlock node (L.store entry contents)
  return node

/-- `queue_.emplace_back`. -/
def enqueueBack (entry : E) : EStateM Fault (EmbeddedQueue c) Unit := do
  let node ← createNode L entry
  modify fun q => { q with queue := q.queue ++ [node] }

/-- `queue_.emplace_front`. -/
def enqueueFront (entry : E) : EStateM Fault (EmbeddedQueue c) Unit := do
  let node ← createNode L entry
  modify fun q => { q with queue := node :: q.queue }

/-- `queue_.front` and `queue_.pop_front`. -/
def dequeue : EStateM Fault (EmbeddedQueue c) E := do
  match (← get).queue with
  | [] => throw .badPointer
  | node :: rest =>
    let result ← inPool (readBlock node)
    modify fun q => { q with queue := rest }
    inPool (StaticPool.doDeallocate node L.size L.alignment)
    return L.load result

/-- The list rewrites the links in a node, which leaves its entry. -/
inductive Relink : EmbeddedQueue c → EmbeddedQueue c → Prop
  | relink {q : EmbeddedQueue c} {i : Fin c.numElements} (hi : c.address i ∈ q.queue)
      {contents : Fin c.words → BitVec 64}
      (h : L.load contents = L.load (q.memoryPool.poolMem i)) :
      Relink q { q with memoryPool := q.memoryPool.write i contents }

end EmbeddedQueue

/-- `cpp_active_objects_embedded::EventQueue`. -/
def embeddedQueue {c : Config} {E : Type} (L : NodeLayout c E) :
    IEventQueue (EmbeddedQueue c) E where
  Init q := StaticPool.construct c = .ok () q.memoryPool ∧ q.queue = []
  Silent := EmbeddedQueue.Relink L
  size q := q.queue.length
  enqueueBack := EmbeddedQueue.enqueueBack L
  enqueueFront := EmbeddedQueue.enqueueFront L
  dequeue := EmbeddedQueue.dequeue L

/-! ### The simulation -/

namespace EmbeddedQueue

variable {c : Config} {E A : Type} {L : NodeLayout c E} {q : EmbeddedQueue c} {entries : List E}
  {entry : E}

/-- **The simulation relation**: the nodes of the list are the live blocks of an intact pool, and
the entries are what is stored in them. -/
def Represents (L : NodeLayout c E) (q : EmbeddedQueue c) (entries : List E) : Prop :=
  ∃ free held, Client.Intact ⟨q.memoryPool, q.queue⟩ free held ∧
    entries = held.map fun i => L.load (q.memoryPool.poolMem i)

namespace Represents

theorem length_eq (h : Represents L q entries) : q.queue.length = entries.length := by
  obtain ⟨free, held, hintact, rfl⟩ := h
  have hlive : q.queue = held.map c.address := hintact.live
  rw [hlive, List.length_map, List.length_map]

/-- **Each entry takes one block.** -/
theorem fillLevel_add (h : Represents L q entries) :
    q.memoryPool.fillLevel.toNat + q.queue.length = c.numElements := by
  obtain ⟨free, held, hintact, -⟩ := h
  rw [hintact.fillLevel]
  exact hintact.length_add

theorem of_construct (hpos : 0 < c.numElements) (h : (embeddedQueue L).Init q) :
    Represents L q [] := by
  obtain ⟨hpool, hqueue⟩ := h
  obtain ⟨free, hintact⟩ := Client.construct_intact hpool hpos
  exact ⟨free, [], hqueue ▸ hintact, rfl⟩

end Represents

/-- What is stored in the other blocks does not depend on the contents of one. -/
theorem map_load_write {pool : StaticPool c} {i : Fin c.numElements}
    {held : List (Fin c.numElements)}
    (hi : i ∉ held) (contents : Fin c.words → BitVec 64) :
    (held.map fun j => L.load ((pool.write i contents).poolMem j)) =
      held.map fun j => L.load (pool.poolMem j) := by
  refine List.map_congr_left fun j hj => ?_
  have hne : j ≠ i := fun h => hi (h ▸ hj)
  simp only [StaticPool.write, Function.update_of_ne hne]

theorem Represents.relink {q' : EmbeddedQueue c} (h : Represents L q entries)
    (hstep : Relink L q q') : Represents L q' entries := by
  obtain ⟨free, held, hintact, rfl⟩ := h
  obtain ⟨hi, hload⟩ := hstep
  rename_i i contents
  have hlive : q.queue = held.map c.address := hintact.live
  have hheld : i ∈ held := StaticPool.address_mem_map.mp (hlive ▸ hi)
  refine ⟨free, held, hintact.write hheld contents, List.map_congr_left fun j _ => ?_⟩
  by_cases hj : j = i
  · rw [hj]
    simp [StaticPool.write, hload]
  · simp only [StaticPool.write, Function.update_of_ne hj]

theorem inPool_ok {m : PoolM c A} {a : A} {pool : StaticPool c} (h : m q.memoryPool = .ok a pool) :
    inPool m q = .ok a { q with memoryPool := pool } := by
  rw [inPool, h]

theorem inPool_error {m : PoolM c A} {f : Fault} {pool : StaticPool c}
    (h : m q.memoryPool = .error f pool) : inPool m q = .error f { q with memoryPool := pool } := by
  rw [inPool, h]

theorem readBlock_address (i : Fin c.numElements) (pool : StaticPool c) :
    readBlock (c.address i) pool = .ok (pool.poolMem i) pool := by
  unfold readBlock
  rw [Config.pointee_address]
  rfl

theorem writeBlock_address (i : Fin c.numElements) (contents : Fin c.words → BitVec 64)
    (pool : StaticPool c) :
    writeBlock (c.address i) contents pool = .ok () (pool.write i contents) := by
  unfold writeBlock
  rw [Config.pointee_address]
  rfl

/-- **A node is created** in a free block, as long as there is one. -/
theorem Represents.createNode (h : Represents L q entries)
    (hroom : entries.length < c.numElements) (entry : E) :
    ∃ i pool free held, EmbeddedQueue.createNode L entry q =
        .ok (c.address i) { q with memoryPool := pool } ∧
      Client.Intact ⟨pool, c.address i :: q.queue⟩ free (i :: held) ∧
      q.queue = held.map c.address ∧
      entry :: entries = (i :: held).map fun j => L.load (pool.poolMem j) := by
  have hlen := h.fillLevel_add
  rw [h.length_eq] at hlen
  obtain ⟨free, held, hintact, rfl⟩ := h
  cases free with
  | nil =>
    have hfill := hintact.fillLevel
    simp only [List.length_nil] at hfill
    omega
  | cons i free =>
    obtain ⟨pool, hcall, hintact'⟩ := hintact.doAllocate_eq L.size_le L.alignment
    have hmem := StaticPool.doAllocate_poolMem hcall
    have hi : i ∉ held := (List.nodup_cons.mp hintact'.nodup_held).1
    refine ⟨i, pool.write i (L.store entry (pool.poolMem i)), free, held, ?_,
      hintact'.write List.mem_cons_self _, hintact.live, ?_⟩
    · exact inPool_ok ((bind_of_ok hcall).trans
        ((bind_of_ok (readBlock_address i pool)).trans
          (bind_of_ok (writeBlock_address i _ pool))))
    · rw [List.map_cons, map_load_write hi, hmem]
      simp [StaticPool.write, L.load_store]

/-- With all blocks in use no node can be created. -/
theorem Represents.createNode_of_full (h : Represents L q entries)
    (hfull : entries.length = c.numElements) (entry : E) :
    EmbeddedQueue.createNode L entry q = .error .assertion q := by
  have hlen := h.fillLevel_add
  rw [h.length_eq, hfull] at hlen
  obtain ⟨free, held, hintact, rfl⟩ := h
  have hfree : free = [] := by
    have hfill := hintact.fillLevel
    simp only at hfill
    exact List.length_eq_zero_iff.mp (by omega)
  subst hfree
  exact inPool_error (bind_of_error (hintact.doAllocate_of_nil L.size L.alignment))

theorem Represents.enqueueBack (h : Represents L q entries)
    (hroom : entries.length < c.numElements) (entry : E) :
    ∃ q', EmbeddedQueue.enqueueBack L entry q = .ok () q' ∧
      Represents L q' (entries ++ [entry]) := by
  obtain ⟨i, pool, free, held, hcall, hintact, hqueue, hload⟩ := h.createNode hroom entry
  obtain ⟨hentry, hentries⟩ := List.cons.inj hload
  refine ⟨⟨pool, q.queue ++ [c.address i]⟩, bind_of_ok hcall, free, held ++ [i], ?_, ?_⟩
  · -- the new block is the first of the live ones and the last node of the list
    have hperm := hintact.perm (List.perm_append_singleton i held)
    rwa [List.map_append, ← hqueue] at hperm
  · rw [List.map_append, ← hentries, hentry]
    rfl

theorem Represents.enqueueFront (h : Represents L q entries)
    (hroom : entries.length < c.numElements) (entry : E) :
    ∃ q', EmbeddedQueue.enqueueFront L entry q = .ok () q' ∧
      Represents L q' (entry :: entries) := by
  obtain ⟨i, pool, free, held, hcall, hintact, -, hload⟩ := h.createNode hroom entry
  exact ⟨⟨pool, c.address i :: q.queue⟩, bind_of_ok hcall, free, i :: held, hintact, hload⟩

theorem Represents.dequeue (h : Represents L q (entry :: entries)) :
    ∃ q', EmbeddedQueue.dequeue L q = .ok entry q' ∧ Represents L q' entries := by
  obtain ⟨free, held, hintact, hload⟩ := h
  cases held with
  | nil => exact nomatch hload
  | cons i held =>
    obtain ⟨rfl, rfl⟩ := List.cons.inj hload
    have hqueue : q.queue = c.address i :: held.map c.address := hintact.live
    obtain ⟨pool, hcall, hintact'⟩ :=
      hintact.doDeallocate_eq List.mem_cons_self L.size L.alignment
    rw [hqueue, List.erase_cons_head, List.erase_cons_head] at hintact'
    refine ⟨⟨pool, held.map c.address⟩, ?_, i :: free, held, hintact', ?_⟩
    · have hget : (get : EStateM Fault (EmbeddedQueue c) _) q = .ok q q := rfl
      have hread := inPool_ok (readBlock_address i q.memoryPool)
      have hmodify : (modify fun q => { q with queue := held.map c.address } :
          EStateM Fault (EmbeddedQueue c) Unit) q = .ok () ⟨q.memoryPool, held.map c.address⟩ := rfl
      unfold EmbeddedQueue.dequeue
      refine (bind_of_ok hget).trans ?_
      rw [hqueue]
      exact (bind_of_ok hread).trans ((bind_of_ok hmodify).trans (bind_of_ok (inPool_ok hcall)))
    · -- giving back the block does not touch the others
      refine List.map_congr_left fun j hj => ?_
      have hij : j ≠ i := fun h => (List.nodup_cons.mp hintact.nodup_held).1 (h ▸ hj)
      rw [StaticPool.doDeallocate_poolMem hcall (Config.address_injective.ne hij)]

end EmbeddedQueue

/-! ### Runs -/

section Runs

variable {c : Config} {E : Type} {L : NodeLayout c E} {q q' : EmbeddedQueue c}
  {entries entries' : List E} {op : Op E} {ops : List (Op E)} {out : Option E}
  {outs : List (Except Fault (Option E))}

/-- The heap queue does what it is asked to, except that `Dequeue` waits for an entry. -/
theorem heapQueue_perform (hready : op = .pop → entries.length ≠ 0) :
    ∃ out entries', (heapQueue E).perform op entries = .ok out entries' := by
  cases op with
  | pushBack entry => exact ⟨none, entries ++ [entry], rfl⟩
  | pushFront entry => exact ⟨none, entry :: entries, rfl⟩
  | pop =>
    cases entries with
    | nil => exact absurd rfl (hready rfl)
    | cons entry entries => exact ⟨some entry, entries, rfl⟩

theorem heapQueue_length (h : (heapQueue E).perform op entries = .ok out entries') :
    (op = .pop ∧ entries.length = entries'.length + 1) ∨
      (op ≠ .pop ∧ entries'.length = entries.length + 1) := by
  cases op with
  | pushBack entry =>
    cases h
    simp
  | pushFront entry =>
    cases h
    simp
  | pop =>
    cases entries with
    | nil => cases h
    | cons entry entries =>
      cases h
      simp

theorem heapQueue_run_nil (h : (heapQueue E).Run [] outs entries) : outs = [] ∧ entries = [] := by
  generalize hops : ([] : List (Op E)) = ops at h
  cases h with
  | init hinit => exact ⟨rfl, hinit⟩
  | silent _ h => exact h.elim
  | ok => exact absurd hops.symm (List.append_ne_nil_of_right_ne_nil _ (List.cons_ne_nil _ _))
  | error => exact absurd hops.symm (List.append_ne_nil_of_right_ne_nil _ (List.cons_ne_nil _ _))

theorem heapQueue_run_concat (h : (heapQueue E).Run (ops ++ [op]) outs entries) :
    ∃ outs₀ entries₀ out, (heapQueue E).Run ops outs₀ entries₀ ∧
      (op = .pop → entries₀.length ≠ 0) ∧
      (heapQueue E).perform op entries₀ = .ok out entries ∧ outs = outs₀ ++ [.ok out] := by
  generalize hops : ops ++ [op] = ops' at h
  cases h with
  | init => exact absurd hops (List.append_ne_nil_of_right_ne_nil _ (List.cons_ne_nil _ _))
  | silent _ h => exact h.elim
  | ok hs hready h =>
    obtain ⟨rfl, hop⟩ := List.append_inj' hops rfl
    obtain rfl := List.singleton_inj.mp hop
    exact ⟨_, _, _, hs, hready, h, rfl⟩
  | error hs hready h =>
    obtain ⟨out, entries₁, hok⟩ := heapQueue_perform hready
    exact nomatch h.symm.trans hok

namespace EmbeddedQueue

/-- **One operation.** While there is room the embedded queue does what the heap queue does. -/
theorem Represents.perform (h : Represents L q entries)
    (hheap : (heapQueue E).perform op entries = .ok out entries')
    (hroom : entries'.length ≤ c.numElements) :
    ∃ q', (embeddedQueue L).perform op q = .ok out q' ∧ Represents L q' entries' := by
  cases op with
  | pushBack entry =>
    cases hheap
    have hfree : entries.length < c.numElements := by
      rwa [List.length_append, List.length_singleton] at hroom
    obtain ⟨q', hcall, hq'⟩ := h.enqueueBack hfree entry
    exact ⟨q', bind_of_ok hcall, hq'⟩
  | pushFront entry =>
    cases hheap
    have hfree : entries.length < c.numElements := by
      rwa [List.length_cons] at hroom
    obtain ⟨q', hcall, hq'⟩ := h.enqueueFront hfree entry
    exact ⟨q', bind_of_ok hcall, hq'⟩
  | pop =>
    cases entries with
    | nil => cases hheap
    | cons entry entries =>
      cases hheap
      obtain ⟨q', hcall, hq'⟩ := h.dequeue
      exact ⟨q', bind_of_ok hcall, hq'⟩

/-- A full queue takes no entry. -/
theorem Represents.perform_of_full (h : Represents L q entries)
    (hfull : entries.length = c.numElements) (hop : op ≠ .pop) :
    (embeddedQueue L).perform op q = .error .assertion q := by
  cases op with
  | pushBack entry =>
    exact bind_of_error (bind_of_error (h.createNode_of_full hfull entry))
  | pushFront entry =>
    exact bind_of_error (bind_of_error (h.createNode_of_full hfull entry))
  | pop => exact absurd rfl hop

/-- What an operation can do. -/
theorem Represents.step (h : Represents L q entries) (hready : op = .pop → q.queue.length ≠ 0) :
    (∃ out entries' q', (embeddedQueue L).perform op q = .ok out q' ∧
        Represents L q' entries' ∧ (op ≠ .pop → entries.length ≠ c.numElements)) ∨
      (op ≠ .pop ∧ entries.length = c.numElements ∧
        (embeddedQueue L).perform op q = .error .assertion q) := by
  have hlen := h.fillLevel_add
  rw [h.length_eq] at hlen hready
  obtain ⟨out, entries', hheap⟩ := heapQueue_perform hready
  by_cases hfull : op ≠ .pop ∧ entries.length = c.numElements
  · exact .inr ⟨hfull.1, hfull.2, h.perform_of_full hfull.2 hfull.1⟩
  · have hroom : entries'.length ≤ c.numElements := by
      obtain ⟨-, hlength⟩ | ⟨hop, hlength⟩ := heapQueue_length hheap
      · omega
      · have hne : entries.length ≠ c.numElements := fun hl => hfull ⟨hop, hl⟩
        omega
    obtain ⟨q', hcall, hq'⟩ := h.perform hheap hroom
    exact .inl ⟨out, entries', q', hcall, hq', fun hop hl => hfull ⟨hop, hl⟩⟩

/-- **The simulation holds in every run**, also through failed operations. -/
theorem run_represents (hpos : 0 < c.numElements) (h : (embeddedQueue L).Run ops outs q) :
    ∃ entries, Represents L q entries := by
  induction h with
  | init hinit => exact ⟨[], .of_construct hpos hinit⟩
  | silent _ hstep ih =>
    obtain ⟨entries, hq⟩ := ih
    exact ⟨entries, hq.relink hstep⟩
  | ok _ hready hcall ih =>
    obtain ⟨entries, hq⟩ := ih
    obtain ⟨out, entries', q', hcall', hq', -⟩ | ⟨-, -, hfails⟩ := hq.step hready
    · cases hcall.symm.trans hcall'
      exact ⟨entries', hq'⟩
    · cases hcall.symm.trans hfails
  | error _ hready hcall ih =>
    obtain ⟨entries, hq⟩ := ih
    obtain ⟨out, entries', q', hcall', -⟩ | ⟨-, -, hfails⟩ := hq.step hready
    · cases hcall.symm.trans hcall'
    · cases hcall.symm.trans hfails
      exact ⟨entries, hq⟩

/-- The number of entries never exceeds `n` during a run of the heap queue. -/
def Bounded (E : Type) (n : ℕ) (ops : List (Op E)) : Prop :=
  ∀ k outs entries, (heapQueue E).Run (ops.take k) outs entries → entries.length ≤ n

theorem Bounded.of_concat {n : ℕ} (h : Bounded E n (ops ++ [op])) : Bounded E n ops := by
  intro k outs entries hrun
  refine h (min k ops.length) outs entries ?_
  rwa [List.take_append_of_le_length (min_le_right _ _), ← List.take_eq_take_min]

theorem Bounded.length_le {n : ℕ} (h : Bounded E n ops)
    (hrun : (heapQueue E).Run ops outs entries) : entries.length ≤ n := by
  refine h ops.length outs entries ?_
  rwa [List.take_length]

/-- The results of a run that does not exceed the capacity are those of the heap queue. -/
theorem run_eq (hpos : 0 < c.numElements) {outs' : List (Except Fault (Option E))}
    (h : (embeddedQueue L).Run ops outs' q) (hbound : Bounded E c.numElements ops)
    (hheap : (heapQueue E).Run ops outs entries) : outs' = outs ∧ Represents L q entries := by
  induction h generalizing outs entries with
  | init hinit =>
    obtain ⟨rfl, rfl⟩ := heapQueue_run_nil hheap
    exact ⟨rfl, .of_construct hpos hinit⟩
  | silent _ hstep ih =>
    obtain ⟨rfl, hq⟩ := ih hbound hheap
    exact ⟨rfl, hq.relink hstep⟩
  | ok _ _ hcall ih =>
    have hroom := hbound.length_le hheap
    obtain ⟨outs₀, entries₀, out, hheap₀, -, hperform, rfl⟩ := heapQueue_run_concat hheap
    obtain ⟨rfl, hq⟩ := ih hbound.of_concat hheap₀
    obtain ⟨q', hcall', hq'⟩ := hq.perform hperform hroom
    cases hcall.symm.trans hcall'
    exact ⟨rfl, hq'⟩
  | error _ _ hcall ih =>
    have hroom := hbound.length_le hheap
    obtain ⟨outs₀, entries₀, out, hheap₀, -, hperform, rfl⟩ := heapQueue_run_concat hheap
    obtain ⟨rfl, hq⟩ := ih hbound.of_concat hheap₀
    obtain ⟨q', hcall', hq'⟩ := hq.perform hperform hroom
    cases hcall.symm.trans hcall'

/-- And there is such a run. -/
theorem exists_run (hpos : 0 < c.numElements) (hbound : Bounded E c.numElements ops)
    (hheap : (heapQueue E).Run ops outs entries) : ∃ q, (embeddedQueue L).Run ops outs q := by
  induction ops using List.reverseRecOn generalizing outs entries with
  | nil =>
    obtain ⟨rfl, rfl⟩ := heapQueue_run_nil hheap
    obtain ⟨pool, -, hpool, -⟩ := StaticPool.construct_ok hpos
    exact ⟨⟨pool, []⟩, .init ⟨hpool, rfl⟩⟩
  | append_singleton ops op ih =>
    have hroom := hbound.length_le hheap
    obtain ⟨outs₀, entries₀, out, hheap₀, hready, hperform, rfl⟩ := heapQueue_run_concat hheap
    obtain ⟨q, hq⟩ := ih hbound.of_concat hheap₀
    obtain ⟨-, hrep⟩ := run_eq hpos hq hbound.of_concat hheap₀
    obtain ⟨q', hcall, -⟩ := hrep.perform hperform hroom
    have hsize : (embeddedQueue L).size q = entries₀.length := hrep.length_eq
    exact ⟨q', hq.ok (fun hop => hsize ▸ hready hop) hcall⟩

end EmbeddedQueue

/-- **The queue without a heap refines the heap queue.** In every run, whatever the list does to
its links: fill level and length add up to the number of elements, and an enqueue fails exactly
on a full queue, by the pool's assertion and without effect. On operations that never leave more
entries than that in the heap queue, the embedded queue has a run, and each of its runs has the
results of the heap queue. -/
theorem embeddedQueue_refines (L : NodeLayout c E) (hpos : 0 < c.numElements) :
    (∀ ops outs q, (embeddedQueue L).Run ops outs q →
      q.memoryPool.fillLevel.toNat + q.queue.length = c.numElements ∧
      ∀ op, op ≠ .pop →
        ((∃ f q', (embeddedQueue L).perform op q = .error f q') ↔
          q.queue.length = c.numElements) ∧
        ∀ f q', (embeddedQueue L).perform op q = .error f q' → f = .assertion ∧ q' = q) ∧
    ∀ ops outs entries, (heapQueue E).Run ops outs entries →
      EmbeddedQueue.Bounded E c.numElements ops →
      (∃ q, (embeddedQueue L).Run ops outs q) ∧
      ∀ outs' q, (embeddedQueue L).Run ops outs' q → outs' = outs := by
  refine ⟨fun ops outs q hrun => ?_, fun ops outs entries hheap hbound => ?_⟩
  · obtain ⟨entries, hq⟩ := EmbeddedQueue.run_represents hpos hrun
    refine ⟨hq.fillLevel_add, fun op hop => ?_⟩
    rw [hq.length_eq]
    obtain ⟨out, entries', q', hcall, -, hroom⟩ | ⟨-, hfull, hcall⟩ :=
      hq.step fun h => absurd h hop
    · rw [hcall]
      exact ⟨iff_of_false (by simp) (hroom hop), by simp⟩
    · rw [hcall]
      exact ⟨iff_of_true ⟨_, _, rfl⟩ hfull, fun f q' h => by cases h; exact ⟨rfl, rfl⟩⟩
  · exact ⟨EmbeddedQueue.exists_run hpos hbound hheap,
      fun outs' q hrun => (EmbeddedQueue.run_eq hpos hrun hbound hheap).1⟩

theorem heapQueue_length_le (h : (heapQueue E).Run ops outs entries) :
    entries.length ≤ ops.length := by
  induction h with
  | init hinit =>
    obtain rfl := hinit
    exact le_rfl
  | silent _ h => exact h.elim
  | ok _ _ h ih =>
    rw [List.length_append, List.length_singleton]
    obtain ⟨-, hlength⟩ | ⟨-, hlength⟩ := heapQueue_length h <;> omega
  | error _ hready h =>
    obtain ⟨out, entries₁, hok⟩ := heapQueue_perform hready
    exact nomatch h.symm.trans hok

/-- Short runs stay within the capacity. -/
theorem EmbeddedQueue.bounded_of_length {n : ℕ} (h : ops.length ≤ n) : Bounded E n ops := by
  intro k outs entries hrun
  have hlength := heapQueue_length_le hrun
  rw [List.length_take] at hlength
  omega

end Runs

/-- A pool for three nodes of 40 bytes. -/
def threeNodes : Config :=
  { Client.threeElements with
    elemSize := 40
    elemSize_lt := by decide
    base_fits := by decide }

/-- The words of a `QueueEntry`: the target, and a shared pointer of two. -/
abbrev EntryWords := BitVec 64 × BitVec 64 × BitVec 64

/-- A node: two links, and then the entry. -/
def pointerNode : NodeLayout threeNodes EntryWords where
  size := 40
  alignment := 8
  store entry contents i :=
    if (i : ℕ) = 2 then entry.1
    else if (i : ℕ) = 3 then entry.2.1
    else if (i : ℕ) = 4 then entry.2.2
    else contents i
  load contents :=
    (contents ⟨2, by decide⟩, contents ⟨3, by decide⟩, contents ⟨4, by decide⟩)
  size_le := by decide
  load_store _ _ := rfl

theorem pointerNode_dequeue : ∃ q, (embeddedQueue pointerNode).Run
    [.pushBack (5, 6, 1), .pushFront (7, 8, 2), .pop]
    [.ok none, .ok none, .ok (some (7, 8, 2))] q := by
  have hback : (heapQueue EntryWords).Run [.pushBack (5, 6, 1)] [.ok none] [(5, 6, 1)] :=
    .ok (.init rfl) (fun h => nomatch h) rfl
  have hfront : (heapQueue EntryWords).Run [.pushBack (5, 6, 1), .pushFront (7, 8, 2)]
      [.ok none, .ok none] [(7, 8, 2), (5, 6, 1)] := .ok hback (fun h => nomatch h) rfl
  have hpop : (heapQueue EntryWords).Run [.pushBack (5, 6, 1), .pushFront (7, 8, 2), .pop]
      [.ok none, .ok none, .ok (some (7, 8, 2))] [(5, 6, 1)] :=
    .ok hfront (fun _ => Nat.succ_ne_zero 1) rfl
  exact ((embeddedQueue_refines pointerNode (by decide)).2 _ _ _ hpop
    (EmbeddedQueue.bounded_of_length (by decide))).1

end EventFramework.ActiveObjects
