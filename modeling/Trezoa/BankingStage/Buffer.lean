import Trezoa.BankingStage.Conservation

/-!
# The buffer never loses a transaction

Runs of the container: packets are received, ids are popped, and what is popped is put back, retried
or removed.

* `reachable_conserves`: the map holds exactly the ids that are queued, held or outstanding, and
  never more than its capacity after a push; no operation panics; a push drops the lowest ids of the
  queue.
-/

namespace Trezoa.BankingStage

open Lib TransactionStateContainer List

variable {A : SlabAllocator} {Tx : Type} (bank : Bank Tx) {outstanding : List TransactionPriorityId}

/-! ## Receiving -/

lemma expectTransaction_returns {c : TransactionStateContainer A Tx} {id : ℕ}
    (h : c.Available id) : ∃ tx, expectTransaction c id = .ok tx := by
  obtain ⟨state, tx, hstate, htx⟩ := h
  refine ⟨tx, ?_⟩
  have hget : c.idToTransactionState.get id = some state := hstate
  simp only [expectTransaction, getTransaction, hget, TransactionState.getTransaction, htx]
  rfl

/-- The parts of a container that checks do not change. -/
structure SameQueue (c c' : TransactionStateContainer A Tx) : Prop where
  queue : c'.priorityQueue = c.priorityQueue
  held : c'.heldTransactions = c.heldTransactions
  capacity : c'.capacity = c.capacity
  slabCapacity : c'.idToTransactionState.capacity = c.idToTransactionState.capacity

lemma SameQueue.trans {c c₁ c' : TransactionStateContainer A Tx} (h : SameQueue c c₁)
    (h' : SameQueue c₁ c') : SameQueue c c' :=
  ⟨h'.queue.trans h.queue, h'.held.trans h.held, h'.capacity.trans h.capacity,
    h'.slabCapacity.trans h.slabCapacity⟩

/-- A transaction that fails a check is removed, and the others stay available. -/
lemma removeById_of_tracks {c : TransactionStateContainer A Tx} {p : TransactionPriorityId}
    {before after : List TransactionPriorityId}
    (h : c.Tracks (before ++ (p :: after ++ outstanding)))
    (havailable : ∀ q ∈ before ++ (p :: after), c.Available q.id) :
    ∃ c', c.removeById p.id = .ok c' ∧ SameQueue c c' ∧ c'.Tracks (before ++ (after ++ outstanding))
      ∧ ∀ q ∈ before ++ after, c'.Available q.id := by
  have h₁ : c.Tracks (p :: (before ++ (after ++ outstanding))) := h.perm_others perm_middle
  obtain ⟨c', hremove, h', -, hcap, hqueue, hheld, hslab, hget⟩ := h₁.removeById
  refine ⟨c', hremove, ⟨hqueue, hheld, hcap, hslab⟩, h', fun q hq => ?_⟩
  obtain ⟨state, tx, hstate, htx⟩ := havailable q (by
    rcases mem_append.mp hq with hq | hq
    · exact mem_append_left _ hq
    · exact mem_append_right _ (.tail _ hq))
  have hnodup := h₁.nodup
  rw [← append_assoc, map_append, nodup_append, map_cons, nodup_cons] at hnodup
  have hne : p.id ≠ q.id := by
    intro heq
    refine hnodup.2.1.1 (heq ▸ mem_map_of_mem ?_)
    rcases mem_append.mp hq with hq | hq
    · exact mem_append_left _ hq
    · exact mem_append_right _ (mem_append_left _ hq)
  exact ⟨state, tx, by rw [hget, if_neg hne, hstate], htx⟩

/-- One result: the transaction passes or is removed. -/
lemma checkResult_returns (r : Checking A Tx)
    (check : Except TransactionError Unit × TransactionPriorityId)
    {after : List TransactionPriorityId}
    (h : r.container.Tracks (r.passed ++ (check.2 :: after ++ outstanding)))
    (havailable : ∀ q ∈ r.passed ++ (check.2 :: after), r.container.Available q.id) :
    ∃ r', checkResult bank r check = .ok r' ∧ SameQueue r.container r'.container
      ∧ r'.container.Tracks (r'.passed ++ (after ++ outstanding))
      ∧ ∀ q ∈ r'.passed ++ after, r'.container.Available q.id := by
  obtain ⟨result, p⟩ := check
  obtain ⟨c', hremove, hsame, h', havailable'⟩ := removeById_of_tracks h havailable
  cases result with
  | error err => exact ⟨_, map_eq_ok.mpr ⟨c', hremove, rfl⟩, hsame, h', havailable'⟩
  | ok _ =>
    obtain ⟨tx, htx⟩ := expectTransaction_returns (havailable p (mem_append_right _ (.head _)))
    unfold checkResult
    simp only [htx]
    cases hfee : bank.checkFeePayerUnlocked tx with
    | error err =>
      refine ⟨{ r with container := c', stats :=
        { r.stats with numDroppedOnFeePayer := r.stats.numDroppedOnFeePayer + 1 } },
        bind_eq_ok.mpr ⟨tx, rfl, ?_⟩, hsame, h', havailable'⟩
      simp only [hfee]
      exact map_eq_ok.mpr ⟨c', hremove, rfl⟩
    | ok _ =>
      refine ⟨{ r with passed := r.passed ++ [p], stats :=
        { r.stats with numBuffered := r.stats.numBuffered + 1 } },
        bind_eq_ok.mpr ⟨tx, rfl, ?_⟩, ⟨rfl, rfl, rfl, rfl⟩, ?_, ?_⟩
      · simp [hfee]
      · dsimp only
        rw [append_assoc]
        exact h
      · dsimp only
        rw [append_assoc]
        exact havailable

/-- All results: the transactions that do not pass are removed. -/
lemma checkResults_return (checks : List (Except TransactionError Unit × TransactionPriorityId))
    (r : Checking A Tx)
    (h : r.container.Tracks (r.passed ++ (checks.map Prod.snd ++ outstanding)))
    (havailable : ∀ q ∈ r.passed ++ checks.map Prod.snd, r.container.Available q.id) :
    ∃ r', checks.foldlM (checkResult bank) r = .ok r' ∧ SameQueue r.container r'.container
      ∧ r'.container.Tracks (r'.passed ++ outstanding)
      ∧ ∀ q ∈ r'.passed, r'.container.Available q.id := by
  induction checks generalizing r with
  | nil => exact ⟨r, rfl, ⟨rfl, rfl, rfl, rfl⟩, h, by simpa using havailable⟩
  | cons check checks ih =>
    obtain ⟨r₁, hstep, hsame₁, h₁, havailable₁⟩ := checkResult_returns bank r check h havailable
    obtain ⟨r', hrest, hsame', h', havailable'⟩ := ih r₁ h₁ havailable₁
    exact ⟨r', foldlM_cons_eq_ok.mpr ⟨r₁, hstep, hrest⟩, hsame₁.trans hsame', h', havailable'⟩

/-- The state of the loop that receives packets: the inserted ids are available, and everything else
fits into the container. -/
structure Receiving.Fits (r : Receiving A Tx) (capacity : ℕ)
    (outstanding : List TransactionPriorityId) : Prop where
  tracks : r.container.inner.Tracks (r.transactionPriorityIds ++ outstanding)
  available : ∀ p ∈ r.transactionPriorityIds, r.container.inner.Available p.id
  fits : r.container.inner.priorityQueue.elems.length
    + (r.container.inner.heldTransactions.length + outstanding.length) ≤ capacity
  bytes : r.container.bytesBuffer.length = r.container.inner.idToTransactionState.capacity
  capacity_eq : r.container.inner.capacity = capacity

variable {r : Receiving A Tx} {capacity : ℕ}

section
variable (h : r.Fits capacity outstanding)
include h

/-- The checks return, and what passes is in the queue. -/
lemma Receiving.Fits.checkAndPushToQueue :
    ∃ r', BankingStage.checkAndPushToQueue bank r = .ok r' ∧ r'.Fits capacity outstanding
      ∧ r'.transactionPriorityIds = [] := by
  obtain ⟨txs, htxs, hall⟩ := mapM_returns (l := r.transactionPriorityIds)
    (g := fun priorityId => expectTransaction r.container.inner priorityId.id) (fun _ _ => True)
    fun p hp => by
      obtain ⟨tx, htx⟩ := expectTransaction_returns (h.available p hp)
      exact ⟨tx, htx, trivial⟩
  have hsnd : ((bank.checkTransactions txs).zip r.transactionPriorityIds).map Prod.snd
      = r.transactionPriorityIds := by
    refine map_snd_zip ?_
    rw [bank.length_checkTransactions, hall.length_eq]
  obtain ⟨checked, hchecked, hsame, htracks, havailable⟩ := checkResults_return bank
    ((bank.checkTransactions txs).zip r.transactionPriorityIds) ⟨r.container.inner, [], r.stats⟩
    (by rw [hsnd]; exact h.tracks) (by rw [hsnd]; exact h.available)
  obtain ⟨n, c', hpush, h', hsize, hcap, hheld, hslab⟩ :=
    TransactionStateContainer.Tracks.pushIdsIntoQueue _ htracks havailable (by
      rw [hsame.queue, hsame.held, hsame.capacity, h.capacity_eq]
      exact h.fits)
  refine ⟨_, bind_eq_ok.mpr ⟨txs, htxs, bind_eq_ok.mpr ⟨checked, hchecked,
    bind_eq_ok.mpr ⟨(n, c'), hpush, rfl⟩⟩⟩, ⟨h', by simp, ?_, ?_, ?_⟩, rfl⟩
  · have hcapacity : c'.capacity = capacity := by rw [hcap, hsame.capacity, h.capacity_eq]
    rw [h'.bufferSize, hcapacity] at hsize
    exact hsize
  · dsimp only
    rw [h.bytes, hslab, hsame.slabCapacity]
  · dsimp only
    rw [hcap, hsame.capacity, h.capacity_eq]

/-- A packet that is inserted: its id is new, and there is space for it. -/
lemma Receiving.Fits.tryInsertMapOnlyWithData
    (hshort : r.transactionPriorityIds.length < extraCapacity) (data : List UInt8)
    (f : List UInt8 → Option (TransactionState Tx)) :
    (∃ c', r.container.tryInsertMapOnlyWithData data f = .ok (none, c')
      ∧ ∀ stats, Receiving.Fits ⟨c', r.transactionPriorityIds, stats⟩ capacity outstanding)
    ∨ ∃ id state c', r.container.tryInsertMapOnlyWithData data f = .ok (some id, c')
      ∧ f data = some state ∧ c'.inner.getTransactionState id = some state
      ∧ (state.transaction.isSome = true → ∀ stats, Receiving.Fits
        ⟨c', r.transactionPriorityIds ++ [⟨state.priority, id⟩], stats⟩ capacity outstanding) := by
  obtain ⟨⟨inner, bytesBuffer⟩, ids, stats⟩ := r
  have hsize := h.tracks.bufferSize
  have hfits := h.fits
  have hslab := h.tracks.slabCapacity
  have hcap := h.capacity_eq
  rw [length_append] at hsize
  dsimp only at hsize hfits hslab hcap hshort
  have hlt : inner.idToTransactionState.len < inner.idToTransactionState.capacity := by
    change inner.bufferSize < _
    omega
  let key := inner.idToTransactionState.vacantKey
  have hentry : inner.getVacantMapEntry = .ok key := if_pos hlt
  have hbytes : key < bytesBuffer.length := (Slab.vacantKey_lt hlt).trans_eq h.bytes.symm
  unfold TransactionViewStateContainer.tryInsertMapOnlyWithData
  simp only [hentry]
  cases hf : f data with
  | none =>
    refine .inl ⟨⟨inner, bytesBuffer.set key data⟩, bind_eq_ok.mpr ⟨_, rfl, ?_⟩,
      fun stats => ⟨h.tracks, h.available, h.fits, length_set.trans h.bytes, h.capacity_eq⟩⟩
    rw [if_pos hbytes]
  | some state =>
    let c' : TransactionViewStateContainer A Tx := ⟨{ inner with
      idToTransactionState := inner.idToTransactionState.insert state }, bytesBuffer.set key data⟩
    have hget : ∀ id, c'.inner.getTransactionState id
        = if key = id then some state else inner.getTransactionState id := fun id => Slab.get_insert
    -- the vacant key was no transaction's
    have hkeep : ∀ id, inner.Available id → c'.inner.Available id := by
      rintro id ⟨state', tx, hstate', htx⟩
      refine ⟨state', tx, ?_, htx⟩
      have hne : key ≠ id := by
        rintro rfl
        cases (Slab.get_vacantKey (s := inner.idToTransactionState)).symm.trans hstate'
      rw [hget, if_neg hne]
      exact hstate'
    refine .inr ⟨key, state, c', bind_eq_ok.mpr ⟨_, rfl, ?_⟩, rfl, ?_, fun hsome stats => ?_⟩
    · rw [if_pos hbytes]
    · rw [hget, if_pos rfl]
    have hids : c'.inner.priorityIds.Perm (⟨state.priority, key⟩ :: inner.priorityIds) :=
      Slab.toList_insert.map fun e : ℕ × TransactionState Tx =>
        (⟨e.2.priority, e.1⟩ : TransactionPriorityId)
    refine ⟨⟨?_, fun p hp => hkeep p.id (h.tracks.available p hp), ?_⟩, fun p hp => ?_, h.fits, ?_,
      h.capacity_eq⟩
    · refine perm_of_count_eq fun q => ?_
      have hcount := h.tracks.count_eq q
      have hids' := hids.count_eq q
      rw [count_append] at hcount
      rw [count_cons] at hids'
      dsimp only at hcount ⊢
      rw [count_append, count_append, count_singleton, hids']
      change _ = inner.priorityQueue.elems.count q + (inner.heldTransactions.count q + _)
      omega
    · exact hslab.trans_eq (Slab.capacity_insert hlt).symm
    · rcases mem_append.mp hp with hp | hp
      · exact hkeep p.id (h.available p hp)
      · obtain ⟨tx, htx⟩ := Option.isSome_iff_exists.mp hsome
        rw [mem_singleton.mp hp]
        exact ⟨state, tx, by rw [hget, if_pos rfl], htx⟩
    · exact length_set.trans (h.bytes.trans (Slab.capacity_insert hlt).symm)

/-- A packet with data. -/
lemma Receiving.Fits.handlePacketData
    (hshort : r.transactionPriorityIds.length < extraCapacity) (data : List UInt8) :
    ∃ r', BankingStage.handlePacketData bank data r = .ok r' ∧ r'.Fits capacity outstanding
      ∧ r'.transactionPriorityIds.length < extraCapacity := by
  unfold BankingStage.handlePacketData
  rcases h.tryInsertMapOnlyWithData hshort data fun bytes =>
    (bank.tryHandlePacket bytes).toOption with
    ⟨c', hinsert, hfits⟩ | ⟨id, state, c', hinsert, hstate, hget, hfits⟩
  · exact ⟨_, bind_eq_ok.mpr ⟨_, hinsert, rfl⟩, hfits _, hshort⟩
  have hsome : state.transaction.isSome = true := by
    unfold Bank.tryHandlePacket at hstate
    cases htranslate : bank.translate data with
    | error err =>
      rw [htranslate] at hstate
      cases hstate
    | ok parts =>
      rw [htranslate] at hstate
      cases hstate
      rfl
  have hfits' := hfits hsome
  by_cases hfull : (r.transactionPriorityIds
      ++ [(⟨state.priority, id⟩ : TransactionPriorityId)]).length = extraCapacity
  · obtain ⟨r', hcheck, hr', hnil⟩ := (hfits' _).checkAndPushToQueue bank
    refine ⟨r', bind_eq_ok.mpr ⟨_, hinsert, ?_⟩, hr', by simp [hnil, extraCapacity]⟩
    simp only [hget]
    rw [if_pos hfull]
    exact hcheck
  refine ⟨_, bind_eq_ok.mpr ⟨_, hinsert, ?_⟩, hfits' (bank.countTranslated r.stats data), ?_⟩
  · simp only [hget]
    rw [if_neg hfull]
  · rw [length_append, length_singleton] at hfull ⊢
    omega

end

/-- Receiving a message returns; afterwards all transactions fit, and those that were outstanding
still are. -/
theorem handlePacketBatchMessage_returns (shouldParse : Bool)
    {c : TransactionViewStateContainer A Tx} (h : c.inner.Tracks outstanding)
    (hsize : c.inner.bufferSize ≤ c.inner.capacity)
    (hbytes : c.bytesBuffer.length = c.inner.idToTransactionState.capacity)
    (packets : List (Option (List UInt8))) :
    ∃ stats c', handlePacketBatchMessage bank shouldParse c packets = .ok (stats, c')
      ∧ c'.inner.Tracks outstanding ∧ c'.inner.bufferSize ≤ c'.inner.capacity
      ∧ c'.inner.capacity = c.inner.capacity
      ∧ c'.bytesBuffer.length = c'.inner.idToTransactionState.capacity := by
  have hstep : ∀ r : Receiving A Tx, r.Fits c.inner.capacity outstanding
      ∧ r.transactionPriorityIds.length < extraCapacity → ∀ packet ∈ packets,
      ∃ r', handlePacket bank shouldParse r packet = .ok r' ∧ r'.Fits c.inner.capacity outstanding
        ∧ r'.transactionPriorityIds.length < extraCapacity := by
    rintro r ⟨hr, hshort⟩ packet -
    cases packet with
    | none => exact ⟨r, rfl, hr, hshort⟩
    | some data =>
      cases shouldParse with
      | false => exact ⟨_, rfl, ⟨hr.tracks, hr.available, hr.fits, hr.bytes, hr.capacity_eq⟩,
          hshort⟩
      | true =>
        have hr' : Receiving.Fits { r with stats :=
            { r.stats with numReceived := r.stats.numReceived + 1 } }
            c.inner.capacity outstanding :=
          ⟨hr.tracks, hr.available, hr.fits, hr.bytes, hr.capacity_eq⟩
        exact hr'.handlePacketData bank hshort data
  have hstart : Receiving.Fits (⟨c, [], {}⟩ : Receiving A Tx) c.inner.capacity outstanding := by
    refine ⟨h, by simp, ?_, hbytes, rfl⟩
    rw [h.bufferSize] at hsize
    exact hsize
  obtain ⟨r₁, hrun, hr₁, -⟩ := foldlM_returns _ hstep ⟨hstart, by simp [extraCapacity]⟩
  obtain ⟨r', hcheck, hr', hnil⟩ := hr₁.checkAndPushToQueue bank
  have htracks := hr'.tracks
  rw [hnil] at htracks
  refine ⟨_, _, bind_eq_ok.mpr ⟨r₁, hrun, bind_eq_ok.mpr ⟨r', hcheck, rfl⟩⟩, htracks, ?_,
    hr'.capacity_eq, hr'.bytes⟩
  rw [htracks.bufferSize, hr'.capacity_eq]
  exact hr'.fits

/-! ## Runs -/

/-- The container, and the ids that were popped and not put back, retried or removed since. -/
structure Buffer (A : SlabAllocator) (Tx : Type) where
  container : TransactionViewStateContainer A Tx
  outstanding : List TransactionPriorityId

/-- What is done with the container. -/
inductive Event (Tx : Type) where
  /-- Packets are received. -/
  | receive (bank : Bank Tx) (shouldParse : Bool) (packets : List (Option (List UInt8)))
  /-- The id with the highest priority is popped. -/
  | pop
  /-- The transaction of a popped id is taken out. -/
  | take (p : TransactionPriorityId)
  /-- Popped ids are pushed back. -/
  | pushBack (ps : List TransactionPriorityId)
  /-- A popped transaction is retried, immediately or in the next slot. -/
  | retry (p : TransactionPriorityId) (transaction : Tx) (immediatelyRetryable : Bool)
  /-- A popped transaction is removed. -/
  | remove (p : TransactionPriorityId)
  /-- The held transactions are pushed into the queue. -/
  | flush

namespace Buffer

/-- The buffer with its container changed. -/
def withInner (b : Buffer A Tx) (inner : TransactionStateContainer A Tx)
    (outstanding : List TransactionPriorityId) : Buffer A Tx :=
  ⟨{ b.container with inner := inner }, outstanding⟩

/-- Takes the transaction of an id out of its state. -/
def take (b : Buffer A Tx) (p : TransactionPriorityId) : Except Panic (Buffer A Tx) :=
  match b.container.inner.getTransactionState p.id with
  | none => .error .transactionMustExist
  | some state => state.takeTransactionForScheduling.map fun (_, state) =>
    b.withInner (b.container.inner.setTransactionState p.id state) b.outstanding

/-- One event. -/
def step (b : Buffer A Tx) : Event Tx → Except Panic (Buffer A Tx)
  | .receive bank shouldParse packets =>
    (handlePacketBatchMessage bank shouldParse b.container packets).map fun (_, container) =>
      { b with container := container }
  | .pop =>
    match b.container.inner.pop with
    | none => .ok b
    | some (p, inner) => .ok (b.withInner inner (p :: b.outstanding))
  | .take p => b.take p
  | .pushBack ps => (b.container.inner.pushIdsIntoQueue ps).map fun (_, inner) =>
    b.withInner inner (b.outstanding.diff ps)
  | .retry p transaction immediatelyRetryable =>
    (b.container.inner.retryTransaction p.id transaction immediatelyRetryable).map fun inner =>
      b.withInner inner (b.outstanding.erase p)
  | .remove p => (b.container.inner.removeById p.id).map fun inner =>
    b.withInner inner (b.outstanding.erase p)
  | .flush => b.container.inner.flushHeldTransactions.map fun inner =>
    b.withInner inner b.outstanding

/-- Only popped ids are taken, put back, retried and removed; what is retried was taken out before,
and what is taken or put back was not. -/
def Legal (b : Buffer A Tx) : Event Tx → Prop
  | .receive _ _ _ | .pop | .flush => True
  | .take p => p ∈ b.outstanding ∧ b.container.inner.Available p.id
  | .pushBack ps => ps.Subperm b.outstanding ∧ ∀ p ∈ ps, b.container.inner.Available p.id
  | .retry p _ _ => p ∈ b.outstanding
      ∧ ∃ state, b.container.inner.getTransactionState p.id = some state ∧ state.transaction = none
  | .remove p => p ∈ b.outstanding

/-- Everything fits, and is in one place. -/
structure Conserved (capacity : ℕ) (b : Buffer A Tx) : Prop where
  tracks : b.container.inner.Tracks b.outstanding
  size : b.container.inner.bufferSize ≤ b.container.inner.capacity
  bytes : b.container.bytesBuffer.length = b.container.inner.idToTransactionState.capacity
  capacity_eq : b.container.inner.capacity = capacity

lemma withCapacity_conserved (capacity : ℕ) :
    Conserved capacity (⟨.withCapacity capacity, []⟩ : Buffer A Tx) where
  tracks := withCapacity_tracks capacity
  size := Nat.zero_le _
  bytes := length_replicate
  capacity_eq := rfl

/-- Every legal event returns and conserves the transactions. -/
theorem Conserved.step {b : Buffer A Tx} (h : b.Conserved capacity) {e : Event Tx}
    (he : b.Legal e) : ∃ b', b.step e = .ok b' ∧ b'.Conserved capacity := by
  have hcap := h.capacity_eq
  cases e with
  | receive bank shouldParse packets =>
    obtain ⟨stats, c', hreceive, htracks, hsize, hcap', hbytes⟩ :=
      handlePacketBatchMessage_returns bank shouldParse h.tracks h.size h.bytes packets
    exact ⟨_, map_eq_ok.mpr ⟨_, hreceive, rfl⟩, ⟨htracks, hsize, hbytes, hcap'.trans hcap⟩⟩
  | pop =>
    cases hpop : b.container.inner.pop with
    | none =>
      refine ⟨b, ?_, h⟩
      simp [Buffer.step, hpop]
    | some popped =>
      obtain ⟨p, inner⟩ := popped
      obtain ⟨htracks, -, hsize, hcap', hslab⟩ := h.tracks.pop hpop
      refine ⟨b.withInner inner (p :: b.outstanding), ?_, ⟨htracks, ?_, ?_, hcap'.trans hcap⟩⟩
      · simp [Buffer.step, hpop]
      · rw [Buffer.withInner, hsize, hcap']
        exact h.size
      · rw [Buffer.withInner, hslab]
        exact h.bytes
  | take p =>
    obtain ⟨hp, state, tx, hstate, htx⟩ := he
    obtain ⟨state', hstate', hpriority⟩ := h.tracks.exists_state hp
    obtain rfl : state' = state := Option.some.inj (hstate'.symm.trans hstate)
    have htake : state'.takeTransactionForScheduling
        = .ok (tx, { state' with transaction := none }) := by
      rw [TransactionState.takeTransactionForScheduling, htx]
    obtain ⟨htracks, hsize, -⟩ :=
      h.tracks.setTransactionState { state' with transaction := none } hp hpriority
    refine ⟨b.withInner (b.container.inner.setTransactionState p.id
      { state' with transaction := none }) b.outstanding, ?_,
      ⟨htracks, hsize.trans_le h.size, ?_, hcap⟩⟩
    · simp only [Buffer.step, Buffer.take, hstate]
      exact map_eq_ok.mpr ⟨_, htake, rfl⟩
    · exact h.bytes.trans Slab.capacity_set.symm
  | pushBack ps =>
    obtain ⟨hps, havailable⟩ := he
    have htracks : b.container.inner.Tracks (ps ++ b.outstanding.diff ps) :=
      h.tracks.perm_others (subperm_append_diff_self_of_count_le fun p _ => hps.count_le p).symm
    have hbuffer := htracks.bufferSize
    have hsize := h.size
    rw [length_append] at hbuffer
    obtain ⟨n, inner, hpush, h', hsize', hcap', -, hslab⟩ :=
      TransactionStateContainer.Tracks.pushIdsIntoQueue ps htracks havailable (by omega)
    exact ⟨_, map_eq_ok.mpr ⟨_, hpush, rfl⟩,
      ⟨h', hsize', h.bytes.trans hslab.symm, hcap'.trans hcap⟩⟩
  | retry p tx immediately =>
    obtain ⟨hp, htaken⟩ := he
    obtain ⟨inner, hretry, h', hsize', hcap', hslab⟩ :=
      (h.tracks.perm_others (perm_cons_erase hp)).retryTransaction h.size htaken tx immediately
    exact ⟨_, map_eq_ok.mpr ⟨_, hretry, rfl⟩,
      ⟨h', hsize', h.bytes.trans hslab.symm, hcap'.trans hcap⟩⟩
  | remove p =>
    obtain ⟨inner, hremove, h', hsize', hcap', -, -, hslab, -⟩ :=
      (h.tracks.perm_others (perm_cons_erase he)).removeById
    refine ⟨_, map_eq_ok.mpr ⟨_, hremove, rfl⟩, ⟨h', ?_, h.bytes.trans hslab.symm,
      hcap'.trans hcap⟩⟩
    have hsize := h.size
    rw [Buffer.withInner]
    dsimp only
    omega
  | flush =>
    obtain ⟨inner, hflush, h', hsize', hcap', hslab⟩ := h.tracks.flushHeldTransactions h.size
    exact ⟨_, map_eq_ok.mpr ⟨_, hflush, rfl⟩,
      ⟨h', hsize', h.bytes.trans hslab.symm, hcap'.trans hcap⟩⟩

end Buffer

/-- The buffers that legal events lead to. -/
inductive Reachable (capacity : ℕ) : Buffer A Tx → Prop
  | withCapacity : Reachable capacity ⟨.withCapacity capacity, []⟩
  | step {b b' : Buffer A Tx} {e : Event Tx} (h : Reachable capacity b) (he : b.Legal e)
      (hstep : b.step e = .ok b') : Reachable capacity b'

lemma Reachable.conserved {b : Buffer A Tx} (h : Reachable capacity b) : b.Conserved capacity := by
  induction h with
  | withCapacity => exact Buffer.withCapacity_conserved capacity
  | step _ he hstep ih =>
    obtain ⟨b', hstep', h'⟩ := ih.step he
    rw [hstep] at hstep'
    cases hstep'
    exact h'

/-- In every reachable state the ids in the map are those in the queue, those that are held and
those that are outstanding, each once, and there are no more than the capacity; every legal event
returns; and whenever a push returns, no more than the capacity are left, and what it dropped from
the map is what was lowest in the queue. -/
theorem reachable_conserves {b : Buffer A Tx} (h : Reachable capacity b) :
    (∀ id, (∃ state, b.container.inner.getTransactionState id = some state)
      ↔ id ∈ (b.container.inner.priorityQueue.elems
        ++ (b.container.inner.heldTransactions ++ b.outstanding)).map TransactionPriorityId.id)
    ∧ ((b.container.inner.priorityQueue.elems
        ++ (b.container.inner.heldTransactions ++ b.outstanding)).map
        TransactionPriorityId.id).Nodup
    ∧ b.container.inner.bufferSize ≤ capacity
    ∧ (∀ e, b.Legal e → ∃ b', b.step e = .ok b')
    ∧ ∀ (c c' : TransactionStateContainer A Tx) (ids : List TransactionPriorityId) (n : ℕ),
      c.pushIdsIntoQueue ids = .ok (n, c') →
      n = c.bufferSize - c.capacity ∧ c'.bufferSize ≤ c'.capacity ∧ ∃ dropped, dropped.length = n
        ∧ (dropped ++ c'.priorityQueue.elems).Perm (ids ++ c.priorityQueue.elems)
        ∧ (∀ d ∈ dropped, ∀ q ∈ c'.priorityQueue.elems, d ≤ q)
        ∧ (∀ id, c'.getTransactionState id
          = if id ∈ dropped.map TransactionPriorityId.id then none else c.getTransactionState id)
        ∧ c'.heldTransactions = c.heldTransactions := by
  have hconserved := h.conserved
  refine ⟨fun id => ?_, hconserved.tracks.nodup, ?_, fun e he => ?_, fun c c' ids n hpush => ?_⟩
  · have hperm := (hconserved.tracks.perm.map TransactionPriorityId.id).mem_iff (a := id)
    rw [← hperm, map_id_priorityIds, Std.TreeMap.mem_keys,
      Std.TreeMap.mem_iff_isSome_getElem?, Option.isSome_iff_exists]
    rfl
  · rw [← hconserved.capacity_eq]
    exact hconserved.size
  · obtain ⟨b', hstep, -⟩ := hconserved.step he
    exact ⟨b', hstep⟩
  · exact pushIdsIntoQueue_drops hpush

/-- A bank where the length of a packet is its priority and all checks pass. -/
def lengthBank : Bank Unit where
  translate bytes := .ok ((), bytes.length, 1)
  checkTransactions txs := txs.map fun _ => .ok ()
  length_checkTransactions _ := length_map _
  checkFeePayerUnlocked _ := .ok ()

/-- Of two packets only the one with the higher priority has space. -/
theorem reachable_conserves_twoPackets : ∃ b : Buffer .freeList Unit, Reachable 1 b
    ∧ b.container.inner.bufferSize ≤ 1 ∧ b.container.inner.priorityQueue.elems = [⟨2, 1⟩] := by
  have hstart : Reachable 1 (⟨.withCapacity 1, []⟩ : Buffer .freeList Unit) := .withCapacity
  obtain ⟨-, -, -, hlegal, -⟩ := reachable_conserves hstart
  have hevent : Buffer.Legal (⟨.withCapacity 1, []⟩ : Buffer .freeList Unit)
      (.receive lengthBank true [some [0], some [0, 0]]) := trivial
  obtain ⟨b, hstep⟩ := hlegal _ hevent
  have hb : Reachable 1 b := hstart.step hevent hstep
  refine ⟨b, hb, (reachable_conserves hb).2.2.1, ?_⟩
  have hqueue : ((Buffer.step ⟨.withCapacity 1, []⟩
      (.receive lengthBank true [some [0], some [0, 0]]) : Except Panic (Buffer .freeList Unit)).map
        fun b => b.container.inner.priorityQueue.elems) = .ok [⟨2, 1⟩] := by
    decide +kernel
  rw [hstep] at hqueue
  exact Except.ok.inj hqueue

end Trezoa.BankingStage
