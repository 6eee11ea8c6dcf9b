import Trezoa.BankingStage.ReceiveAndBuffer

/-!
# The container keeps track of every transaction

Every id in the map is in the queue, held, or elsewhere: popped, or inserted and not yet pushed.
-/

namespace Trezoa.BankingStage

open Lib List Std.TreeMap Slab MinMaxHeap

variable {A : SlabAllocator} {Tx : Type}

namespace TransactionStateContainer

variable {c c' : TransactionStateContainer A Tx} {p : TransactionPriorityId}
  {ids others others' : List TransactionPriorityId}

/-- The ids in the map with their priorities. -/
def priorityIds (c : TransactionStateContainer A Tx) : List TransactionPriorityId :=
  c.idToTransactionState.entries.toList.map fun e => ⟨e.2.priority, e.1⟩

/-- The transaction is buffered and not taken out. -/
def Available (c : TransactionStateContainer A Tx) (id : ℕ) : Prop :=
  ∃ state tx, c.getTransactionState id = some state ∧ state.transaction = some tx

/-- Each id in the map is in the queue, held, or one of the others; the transactions of the first
two are not taken out. -/
structure Tracks (c : TransactionStateContainer A Tx) (others : List TransactionPriorityId) :
    Prop where
  perm : c.priorityIds.Perm (c.priorityQueue.elems ++ (c.heldTransactions ++ others))
  available : ∀ p ∈ c.priorityQueue.elems ++ c.heldTransactions, c.Available p.id
  slabCapacity : c.capacity + extraCapacity ≤ c.idToTransactionState.capacity

/-! ## Ids of the map -/

lemma map_id_priorityIds :
    c.priorityIds.map TransactionPriorityId.id = c.idToTransactionState.entries.keys := by
  rw [priorityIds, map_map, ← map_fst_toList_eq_keys]
  rfl

lemma nodup_priorityIds : (c.priorityIds.map TransactionPriorityId.id).Nodup := by
  rw [map_id_priorityIds]
  exact nodup_keys

lemma mem_priorityIds : p ∈ c.priorityIds ↔
    ∃ state, c.getTransactionState p.id = some state ∧ state.priority = p.priority := by
  simp only [priorityIds, mem_map, Prod.exists, mem_toList_iff_getElem?_eq_some]
  constructor
  · rintro ⟨id, state, hget, rfl⟩
    exact ⟨state, hget, rfl⟩
  · rintro ⟨state, hget, hpriority⟩
    exact ⟨p.id, state, hget, by rw [hpriority]⟩

lemma bufferSize_eq : c.bufferSize = c.priorityIds.length := by
  rw [bufferSize, len_eq_length_toList, priorityIds, length_map]

lemma withCapacity_tracks (capacity : ℕ) :
    (withCapacity capacity : TransactionStateContainer A Tx).Tracks [] where
  perm := .refl _
  available := by simp [withCapacity, MinMaxHeap.empty]
  slabCapacity := A.le_capacity_withCapacity _

namespace Tracks

section
variable (h : c.Tracks others)
include h

lemma perm_others (hperm : others.Perm others') : c.Tracks others' :=
  ⟨h.perm.trans ((hperm.append_left _).append_left _), h.available, h.slabCapacity⟩

lemma nodup : ((c.priorityQueue.elems
    ++ (c.heldTransactions ++ others)).map TransactionPriorityId.id).Nodup :=
  ((h.perm.map _).nodup_iff).mp nodup_priorityIds

/-- How many transactions there are. -/
lemma bufferSize : c.bufferSize
    = c.priorityQueue.elems.length + (c.heldTransactions.length + others.length) := by
  rw [bufferSize_eq, h.perm.length_eq, length_append, length_append]

/-- The state of one of the others. -/
lemma exists_state (hp : p ∈ others) :
    ∃ state, c.getTransactionState p.id = some state ∧ state.priority = p.priority :=
  mem_priorityIds.mp (h.perm.mem_iff.mpr (mem_append_right _ (mem_append_right _ hp)))

/-- One of the others is neither in the queue nor held. -/
lemma ne_of_mem (hp : p ∈ others) {q : TransactionPriorityId}
    (hq : q ∈ c.priorityQueue.elems ++ c.heldTransactions) : p.id ≠ q.id := by
  have hnodup := h.nodup
  rw [← append_assoc, map_append, nodup_append] at hnodup
  exact fun heq => hnodup.2.2 _ (mem_map_of_mem hq) _ (mem_map_of_mem hp) heq.symm

/-- Every id is counted once: how the lists of a container may change. -/
lemma count_eq (q : TransactionPriorityId) : c.priorityIds.count q
    = c.priorityQueue.elems.count q + (c.heldTransactions.count q + others.count q) := by
  rw [h.perm.count_eq q, count_append, count_append]

end
end Tracks

lemma perm_of_count_eq (h : ∀ q, c.priorityIds.count q
    = c.priorityQueue.elems.count q + (c.heldTransactions.count q + others.count q)) :
    c.priorityIds.Perm (c.priorityQueue.elems ++ (c.heldTransactions ++ others)) := by
  rw [perm_iff_count]
  intro q
  rw [h q, count_append, count_append]

namespace Tracks

/-! ## Pushing -/

/-- Ids that are pushed are no longer among the others. -/
lemma pushAll (h : c.Tracks (ids ++ others)) (havailable : ∀ p ∈ ids, c.Available p.id) :
    Tracks { c with priorityQueue := c.priorityQueue.pushAll ids } others where
  perm := by
    refine perm_of_count_eq fun q => ?_
    have hcount := h.count_eq q
    have hpush := (pushAll_perm (h := c.priorityQueue) ids).count_eq q
    rw [count_append] at hcount hpush
    dsimp only
    change c.priorityIds.count q = _
    omega
  available p hp := by
    rcases mem_append.mp hp with hp | hp
    · rcases mem_append.mp ((pushAll_perm ids).mem_iff.mp hp) with hp | hp
      · exact havailable p hp
      · exact h.available p (mem_append_left _ hp)
    · exact h.available p (mem_append_right _ hp)
  slabCapacity := h.slabCapacity

end Tracks

/-- What dropping leaves: the queue without its lowest ids, the map without these ids, and the rest
as it was. -/
structure Dropped (c c' : TransactionStateContainer A Tx) (dropped : List TransactionPriorityId) :
    Prop where
  queue : c.priorityQueue.elems = dropped ++ c'.priorityQueue.elems
  get : ∀ id, c'.getTransactionState id
    = if id ∈ dropped.map TransactionPriorityId.id then none else c.getTransactionState id
  held : c'.heldTransactions = c.heldTransactions
  capacity : c'.capacity = c.capacity
  slabCapacity : c'.idToTransactionState.capacity = c.idToTransactionState.capacity
  size : c'.bufferSize + dropped.length = c.bufferSize

/-- One id is dropped. -/
lemma dropLowest_dropped (h : c.dropLowest = .ok c') : ∃ p, Dropped c c' [p] := by
  unfold dropLowest at h
  split at h
  · cases h
  rename_i p queue hpop
  split at h
  · cases h
  rename_i states hremove
  cases h
  have hmem : p.id ∈ c.idToTransactionState.entries := by
    by_contra hnot
    rw [remove, dif_neg hnot] at hremove
    cases hremove
  obtain ⟨state, hget⟩ := Option.isSome_iff_exists.mp (mem_iff_isSome_getElem?.mp hmem)
  obtain ⟨states', hstates', hcap, hperm, hget'⟩ := remove_of_get hget
  rw [hremove] at hstates'
  cases hstates'
  refine ⟨p, popMin_eq_some hpop, fun id => ?_, rfl, rfl, hcap, ?_⟩
  · have hid := hget' id
    simp only [map_singleton, mem_singleton, eq_comm (a := id)]
    exact hid
  · rw [bufferSize_eq, bufferSize_eq, priorityIds, priorityIds, length_map, length_map,
      hperm.length_eq]
    rfl

lemma Dropped.refl (c : TransactionStateContainer A Tx) : Dropped c c [] :=
  ⟨rfl, fun _ => by simp, rfl, rfl, rfl, rfl⟩

lemma Dropped.trans {c₁ : TransactionStateContainer A Tx} {d d' : List TransactionPriorityId}
    (h : Dropped c c₁ d) (h' : Dropped c₁ c' d') : Dropped c c' (d ++ d') where
  queue := by rw [h.queue, h'.queue, append_assoc]
  get id := by
    rw [h'.get, h.get, map_append]
    by_cases hd : id ∈ d.map TransactionPriorityId.id <;>
      by_cases hd' : id ∈ d'.map TransactionPriorityId.id <;> simp [hd, hd']
  held := h'.held.trans h.held
  capacity := h'.capacity.trans h.capacity
  slabCapacity := h'.slabCapacity.trans h.slabCapacity
  size := by
    rw [length_append, ← h.size, ← h'.size]
    omega

/-- The loop drops as many ids as it has turns. -/
lemma dropLowest_loop {l : List ℕ} (h : l.foldlM (fun c _ => dropLowest c) c = .ok c') :
    ∃ dropped, dropped.length = l.length ∧ Dropped c c' dropped := by
  induction l generalizing c with
  | nil =>
    cases h
    exact ⟨[], rfl, Dropped.refl _⟩
  | cons _ l ih =>
    obtain ⟨c₁, hdrop, hrest⟩ := foldlM_cons_eq_ok.mp h
    obtain ⟨p, hp⟩ := dropLowest_dropped hdrop
    obtain ⟨dropped, hlength, hdropped⟩ := ih hrest
    exact ⟨p :: dropped, by simp [hlength], hp.trans hdropped⟩

/-- What a push drops are the ids that are lowest in the queue with the pushed ones, as many as
there are transactions above the capacity. -/
theorem pushIdsIntoQueue_drops {n : ℕ} (h : c.pushIdsIntoQueue ids = .ok (n, c')) :
    n = c.bufferSize - c.capacity ∧ c'.bufferSize ≤ c'.capacity ∧ ∃ dropped, dropped.length = n
      ∧ (dropped ++ c'.priorityQueue.elems).Perm (ids ++ c.priorityQueue.elems)
      ∧ (∀ d ∈ dropped, ∀ q ∈ c'.priorityQueue.elems, d ≤ q)
      ∧ (∀ id, c'.getTransactionState id
        = if id ∈ dropped.map TransactionPriorityId.id then none else c.getTransactionState id)
      ∧ c'.heldTransactions = c.heldTransactions := by
  obtain ⟨c₁, hloop, heq⟩ := map_eq_ok.mp h
  cases heq
  obtain ⟨dropped, hlength, hdropped⟩ := dropLowest_loop hloop
  rw [length_range] at hlength
  have hsize : c'.bufferSize + dropped.length = c.bufferSize := hdropped.size
  have hcap : c'.capacity = c.capacity := hdropped.capacity
  have hnum : dropped.length = c.bufferSize - c.capacity := hlength
  refine ⟨rfl, by omega, dropped, hlength, ?_, ?_, hdropped.get, hdropped.held⟩
  · rw [← hdropped.queue]
    exact pushAll_perm ids
  have hsorted := (c.priorityQueue.pushAll ids).sorted
  have hqueue : (c.priorityQueue.pushAll ids).elems = dropped ++ c'.priorityQueue.elems :=
    hdropped.queue
  rw [hqueue] at hsorted
  exact (pairwise_append.mp hsorted).2.2

namespace Tracks

/-- An id that leaves the queue is among the others. -/
lemma popped (h : c.Tracks others) {queue : MinMaxHeap TransactionPriorityId}
    (hqueue : c.priorityQueue.elems.Perm (p :: queue.elems)) :
    Tracks { c with priorityQueue := queue } (p :: others) where
  perm := by
    refine perm_of_count_eq fun q => ?_
    have hcount := h.count_eq q
    rw [hqueue.count_eq, count_cons] at hcount
    rw [count_cons]
    change c.priorityIds.count q = queue.elems.count q + (c.heldTransactions.count q + _)
    omega
  available q hq := by
    refine h.available q ?_
    rcases mem_append.mp hq with hq | hq
    · exact mem_append_left _ (hqueue.mem_iff.mpr (.tail _ hq))
    · exact mem_append_right _ hq
  slabCapacity := h.slabCapacity

/-- One of the others can be removed. -/
lemma removeById (h : c.Tracks (p :: others)) : ∃ c', c.removeById p.id = .ok c' ∧ c'.Tracks others
    ∧ c'.bufferSize + 1 = c.bufferSize ∧ c'.capacity = c.capacity
    ∧ c'.priorityQueue = c.priorityQueue ∧ c'.heldTransactions = c.heldTransactions
    ∧ c'.idToTransactionState.capacity = c.idToTransactionState.capacity
    ∧ ∀ id, c'.getTransactionState id = if p.id = id then none else c.getTransactionState id := by
  obtain ⟨state, hget, hpriority⟩ := h.exists_state (.head _)
  obtain ⟨states, hremove, hcap, hperm, hget'⟩ := remove_of_get hget
  let c' : TransactionStateContainer A Tx := { c with idToTransactionState := states }
  have hids : c.priorityIds.Perm (p :: c'.priorityIds) := by
    have := hperm.map fun e : ℕ × TransactionState Tx =>
      (⟨e.2.priority, e.1⟩ : TransactionPriorityId)
    rwa [map_cons, hpriority] at this
  refine ⟨c', ?_, ⟨perm_of_count_eq fun q => ?_, fun q hq => ?_, ?_⟩, ?_, rfl, rfl, rfl,
    hcap, hget'⟩
  · unfold TransactionStateContainer.removeById
    rw [hremove]
  · have hcount := h.count_eq q
    have hids' := hids.count_eq q
    rw [count_cons] at hcount hids'
    change c'.priorityIds.count q = c.priorityQueue.elems.count q + (c.heldTransactions.count q + _)
    omega
  · obtain ⟨state', tx, hstate', htx⟩ := h.available q hq
    refine ⟨state', tx, ?_, htx⟩
    change states.get q.id = some state'
    rw [hget' q.id, if_neg (h.ne_of_mem (.head _) hq)]
    exact hstate'
  · change c.capacity + _ ≤ states.capacity
    rw [hcap]
    exact h.slabCapacity
  · rw [bufferSize_eq, bufferSize_eq, hids.length_eq, length_cons]

/-- A queue that is not empty has an id to drop. -/
lemma dropLowest (h : c.Tracks others) (hpos : 0 < c.priorityQueue.elems.length) :
    ∃ c', c.dropLowest = .ok c' ∧ c'.Tracks others ∧ c'.bufferSize + 1 = c.bufferSize
      ∧ c'.priorityQueue.elems.length + 1 = c.priorityQueue.elems.length
      ∧ c'.capacity = c.capacity := by
  obtain ⟨p, queue, hpop⟩ := exists_popMin hpos
  have hqueue := popMin_eq_some hpop
  obtain ⟨c', hremove, h', hsize, hcap, hsame, -⟩ := (h.popped (.of_eq hqueue)).removeById
  refine ⟨c', ?_, h', hsize, ?_, hcap⟩
  · rw [TransactionStateContainer.dropLowest, hpop]
    exact hremove
  · rw [hqueue, length_cons, hsame]

/-- The loop that drops returns if the queue is long enough. -/
lemma dropLowest_loop (h : c.Tracks others) {l : List ℕ}
    (hlength : l.length ≤ c.priorityQueue.elems.length) :
    ∃ c', l.foldlM (fun c _ => TransactionStateContainer.dropLowest c) c = .ok c' ∧ c'.Tracks others
      ∧ c'.bufferSize + l.length = c.bufferSize ∧ c'.capacity = c.capacity := by
  induction l generalizing c with
  | nil => exact ⟨c, rfl, h, rfl, rfl⟩
  | cons i l ih =>
    rw [length_cons] at hlength
    obtain ⟨c₁, hdrop, h₁, hsize₁, hqueue₁, hcap₁⟩ := h.dropLowest (by omega)
    obtain ⟨c', hrest, h', hsize', hcap'⟩ := ih h₁ (by omega)
    refine ⟨c', foldlM_cons_eq_ok.mpr ⟨c₁, hdrop, hrest⟩, h', ?_, hcap'.trans hcap₁⟩
    rw [length_cons]
    omega

/-- A push returns if the transactions that are not pushed fit into the container; then all fit. -/
theorem pushIdsIntoQueue (ids : List TransactionPriorityId) (h : c.Tracks (ids ++ others))
    (havailable : ∀ p ∈ ids, c.Available p.id)
    (hfits : c.priorityQueue.elems.length + (c.heldTransactions.length + others.length)
      ≤ c.capacity) :
    ∃ n c', c.pushIdsIntoQueue ids = .ok (n, c') ∧ c'.Tracks others ∧ c'.bufferSize ≤ c'.capacity
      ∧ c'.capacity = c.capacity ∧ c'.heldTransactions = c.heldTransactions
      ∧ c'.idToTransactionState.capacity = c.idToTransactionState.capacity := by
  let c₁ : TransactionStateContainer A Tx := { c with priorityQueue := c.priorityQueue.pushAll ids }
  have h₁ : c₁.Tracks others := h.pushAll havailable
  have hsize := h.bufferSize
  rw [length_append] at hsize
  have hqueue : c₁.priorityQueue.elems.length = ids.length + c.priorityQueue.elems.length := by
    rw [← length_append]
    exact (pushAll_perm ids).length_eq
  have hlength : (List.range (c.bufferSize - c.capacity)).length ≤
    c₁.priorityQueue.elems.length := by
    rw [length_range]
    omega
  obtain ⟨c', hloop, h', hsize', hcap'⟩ := h₁.dropLowest_loop hlength
  obtain ⟨dropped, -, hdropped⟩ := TransactionStateContainer.dropLowest_loop hloop
  refine ⟨_, c', map_eq_ok.mpr ⟨c', hloop, rfl⟩, h', ?_, hcap', hdropped.held,
    hdropped.slabCapacity⟩
  rw [length_range] at hsize'
  have hsame : c₁.bufferSize = c.bufferSize := rfl
  have hcapacity : c'.capacity = c.capacity := hcap'
  omega

/-! ## Popping, removing and retrying -/

/-- A popped id is among the others, and its transaction is available. -/
lemma pop (h : c.Tracks others) (hpop : c.pop = some (p, c')) : c'.Tracks (p :: others)
    ∧ c'.Available p.id ∧ c'.bufferSize = c.bufferSize ∧ c'.capacity = c.capacity
    ∧ c'.idToTransactionState = c.idToTransactionState := by
  obtain ⟨⟨p', queue⟩, hmax, heq⟩ := Option.map_eq_some_iff.mp hpop
  cases heq
  have hqueue : c.priorityQueue.elems.Perm (p :: queue.elems) :=
    popMax_eq_some hmax ▸ perm_append_singleton _ _
  have hmem := hqueue.mem_iff.mpr (.head _)
  exact ⟨h.popped hqueue, h.available p (mem_append_left _ hmem), rfl, rfl, rfl⟩

/-- The state of one of the others can be written, with its priority. -/
lemma setTransactionState (h : c.Tracks others) (state : TransactionState Tx) (hp : p ∈ others)
    (hpriority : state.priority = p.priority) :
    (c.setTransactionState p.id state).Tracks others
      ∧ (c.setTransactionState p.id state).bufferSize = c.bufferSize
      ∧ ∀ id, (c.setTransactionState p.id state).getTransactionState id
        = if p.id = id then some state else c.getTransactionState id := by
  obtain ⟨state₀, hget, hpriority₀⟩ := h.exists_state hp
  obtain ⟨rest, hperm, hperm'⟩ := toList_set state hget
  have hids : (c.setTransactionState p.id state).priorityIds.Perm c.priorityIds := by
    refine (hperm'.map _).trans ((hperm.map _).trans ?_).symm
    rw [map_cons, map_cons, hpriority, hpriority₀]
  have hgets : ∀ id, (c.setTransactionState p.id state).getTransactionState id
      = if p.id = id then some state else c.getTransactionState id := fun id => get_set hget
  refine ⟨⟨hids.trans h.perm, fun q hq => ?_, ?_⟩, ?_, hgets⟩
  · obtain ⟨state', tx, hstate', htx⟩ := h.available q hq
    refine ⟨state', tx, ?_, htx⟩
    rw [hgets, if_neg (h.ne_of_mem hp hq)]
    exact hstate'
  · change c.capacity + _ ≤ (c.idToTransactionState.set p.id state).capacity
    rw [capacity_set]
    exact h.slabCapacity
  · rw [bufferSize_eq, bufferSize_eq, hids.length_eq]

/-- A transaction that was taken out can be put back: into the queue or among the held ones. -/
theorem retryTransaction (h : c.Tracks (p :: others)) (hsize : c.bufferSize ≤ c.capacity)
    (htaken : ∃ state, c.getTransactionState p.id = some state ∧ state.transaction = none) (tx : Tx)
    (immediately : Bool) : ∃ c', c.retryTransaction p.id tx immediately = .ok c' ∧ c'.Tracks others
      ∧ c'.bufferSize ≤ c'.capacity ∧ c'.capacity = c.capacity
      ∧ c'.idToTransactionState.capacity = c.idToTransactionState.capacity := by
  obtain ⟨state, hstate, hnone⟩ := htaken
  obtain ⟨state', hstate', hpriority⟩ := h.exists_state (.head _)
  obtain rfl : state' = state := Option.some.inj (hstate'.symm.trans hstate)
  let state₁ : TransactionState Tx := { state' with transaction := some tx }
  have hretry : state'.retryTransaction tx = .ok state₁ := by
    rw [TransactionState.retryTransaction, hnone]
    rfl
  obtain ⟨h₁, hsize₁, hget₁⟩ := h.setTransactionState state₁ (.head _) hpriority
  have hslab : (c.setTransactionState p.id state₁).idToTransactionState.capacity
      = c.idToTransactionState.capacity := capacity_set
  have havailable : (c.setTransactionState p.id state₁).Available p.id :=
    ⟨state₁, tx, by rw [hget₁, if_pos rfl], rfl⟩
  have hp : (⟨state'.priority, p.id⟩ : TransactionPriorityId) = p := by rw [hpriority]
  unfold TransactionStateContainer.retryTransaction
  rw [hstate]
  simp only [hretry, hp]
  cases immediately with
  | true =>
    have hbuffer := h₁.bufferSize
    rw [length_cons] at hbuffer
    have hcapacity : (c.setTransactionState p.id state₁).capacity = c.capacity := rfl
    obtain ⟨n, c', hpush, h', hsize', hcap', -, hslab'⟩ :=
      TransactionStateContainer.Tracks.pushIdsIntoQueue [p] h₁
        (by simpa using havailable) (by omega)
    refine ⟨c', ?_, h', hsize', hcap', hslab'.trans hslab⟩
    exact bind_eq_ok.mpr ⟨state₁, rfl, map_eq_ok.mpr ⟨_, hpush, rfl⟩⟩
  | false =>
    refine ⟨_, bind_eq_ok.mpr ⟨state₁, rfl, rfl⟩, ⟨perm_of_count_eq fun q => ?_,
      fun q hq => ?_, ?_⟩,
      ?_, rfl, hslab⟩
    · have hcount := h₁.count_eq q
      rw [count_cons] at hcount
      change (c.setTransactionState p.id state₁).priorityIds.count q
        = c.priorityQueue.elems.count q + ((c.heldTransactions ++ [p]).count q + _)
      rw [count_append, count_singleton]
      have hsame : (c.setTransactionState p.id state₁).priorityQueue = c.priorityQueue := rfl
      have hsame' : (c.setTransactionState p.id state₁).heldTransactions = c.heldTransactions := rfl
      rw [hsame, hsame'] at hcount
      omega
    · rcases mem_append.mp hq with hq | hq
      · exact h₁.available q (mem_append_left _ hq)
      rcases mem_append.mp hq with hq | hq
      · exact h₁.available q (mem_append_right _ hq)
      · rw [mem_singleton.mp hq]
        exact havailable
    · exact h₁.slabCapacity
    · exact hsize₁.trans_le hsize

/-- The held transactions can be flushed. -/
theorem flushHeldTransactions (h : c.Tracks others) (hsize : c.bufferSize ≤ c.capacity) :
    ∃ c', c.flushHeldTransactions = .ok c' ∧ c'.Tracks others ∧ c'.bufferSize ≤ c'.capacity
      ∧ c'.capacity = c.capacity
      ∧ c'.idToTransactionState.capacity = c.idToTransactionState.capacity := by
  let c₁ : TransactionStateContainer A Tx := { c with heldTransactions := [] }
  have h₁ : c₁.Tracks (c.heldTransactions ++ others) := by
    refine ⟨h.perm, fun q hq => h.available q ?_, h.slabCapacity⟩
    exact mem_append_left _ (by simpa [c₁] using hq)
  have hbuffer := h.bufferSize
  obtain ⟨n, c', hpush, h', hsize', hcap', -, hslab'⟩ :=
    TransactionStateContainer.Tracks.pushIdsIntoQueue c.heldTransactions h₁
      (fun q hq => h.available q (mem_append_right _ hq)) (by
        change c.priorityQueue.elems.length + (0 + others.length) ≤ c.capacity
        omega)
  exact ⟨c', map_eq_ok.mpr ⟨_, hpush, rfl⟩, h', hsize', hcap', hslab'⟩

end Tracks
end TransactionStateContainer
end Trezoa.BankingStage
