import Trezoa.UnifiedScheduler.Unlock

/-!
# The scheduling state machine refines a lock table

`ofTable` is the machine whose usage queues and blocked usage counts represent a lock table.

* `tryLockUsageQueues_ofTable`: `try_lock_usage_queues` is `Table.acquireAll`, and it returns the
  task exactly when none of its requests waits.
* `unlockUsageQueues_ofTable`: `unlock_usage_queues` is `Table.releaseAll`, and it appends the
  clients that can run then to the queue of unblocked tasks.

Neither of the two panics.
-/

namespace Trezoa.UnifiedScheduler

open Lib.LockTable SchedulingStateMachine List Function Table

variable {Q : Type} [DecidableEq Q] {capability : Capability} {rank : Task Q → ℕ}
  {firm : Task Q → Prop} {reg : Task Q → List (LockContext Q)}
  {tbl : Table Q RequestedUsage (Task Q)} {live : List (Task Q)} {task : Task Q} {q : LockContext Q}

/-- The machine `m` with the usage queues and counts that represent a lock table. -/
def SchedulingStateMachine.ofTable (m : SchedulingStateMachine Q) (capability : Capability)
    (tbl : Table Q RequestedUsage (Task Q)) : SchedulingStateMachine Q :=
  { m with
    blockedUsageCounts := tbl.pending
    usageQueues := fun q => ofCell capability (tbl.cell q) }

section ofTable
variable (m : SchedulingStateMachine Q) (capability : Capability)
  (tbl : Table Q RequestedUsage (Task Q))
omit [DecidableEq Q]

@[simp] lemma ofTable_unblockedTaskQueue :
    (m.ofTable capability tbl).unblockedTaskQueue = m.unblockedTaskQueue := rfl

@[simp] lemma ofTable_activeTaskCount :
    (m.ofTable capability tbl).activeTaskCount = m.activeTaskCount := rfl

@[simp] lemma ofTable_runningTaskCount :
    (m.ofTable capability tbl).runningTaskCount = m.runningTaskCount := rfl

@[simp] lemma ofTable_handledTaskCount :
    (m.ofTable capability tbl).handledTaskCount = m.handledTaskCount := rfl

@[simp] lemma ofTable_unblockedTaskCount :
    (m.ofTable capability tbl).unblockedTaskCount = m.unblockedTaskCount := rfl

@[simp] lemma ofTable_totalTaskCount :
    (m.ofTable capability tbl).totalTaskCount = m.totalTaskCount := rfl

@[simp] lemma ofTable_isTaskRunnable :
    (m.ofTable capability tbl).isTaskRunnable = m.isTaskRunnable := rfl

end ofTable

/-- A cell has no more requests than there are clients. -/
lemma length_cell_le (hI : tbl.Inv shared rank reg firm) {q : Q}
    (hlive : ∀ y ∈ (tbl.cell q).holders ++ (tbl.cell q).waiters, y.2 ∈ live) :
    (tbl.cell q).holders.length + (tbl.cell q).waiters.length ≤ live.length := by
  have hsub : ((tbl.cell q).holders ++ (tbl.cell q).waiters).map Prod.snd ⊆ live := by
    intro t ht
    obtain ⟨y, hy, rfl⟩ := mem_map.mp ht
    exact hlive y hy
  have hle := (subperm_of_subset (hI.cell q).nodup hsub).length_le
  rwa [length_map, length_append] at hle

/-! ## Locking -/

/-- The table while the client `task` asks for its resources; `live` are the other clients. -/
structure Locking (capability : Capability) (rank : Task Q → ℕ) (firm : Task Q → Prop)
    (live : List (Task Q)) (task : Task Q) (reg : Task Q → List (LockContext Q))
    (tbl : Table Q RequestedUsage (Task Q)) : Prop where
  /-- The invariant of the table. -/
  inv : tbl.Inv shared rank reg firm
  /-- The other clients run when they wait for nothing. -/
  firm_iff : ∀ u, u ≠ task → reg u ≠ [] → (firm u ↔ tbl.pending u = 0)
  /-- The rank of the client is new. -/
  rank_ne : ∀ u, u ≠ task → reg u ≠ [] → rank u ≠ rank task
  /-- With fifo queues the client is the last one. -/
  last : capability = .fifoQueueing → ∀ u, u ≠ task → reg u ≠ [] → rank u < rank task
  /-- With priority queues clients are ranked by task id. -/
  taskId : capability = .priorityQueueing → rank = Task.taskId
  /-- Whoever asked for something is known. -/
  mem_live : ∀ u, u ≠ task → reg u ≠ [] → u ∈ live
  /-- The clients can be counted. -/
  length_live : live.length < counterInnerMax
  /-- The requests of a client can be counted. -/
  length_reg : ∀ u, (reg u).length ≤ counterInnerMax

namespace Locking

section
variable (h : Locking capability rank firm live task reg tbl)
include h

/-- One request later. -/
lemma acquire (hq : q.1 ∉ (reg task).map Prod.fst) (hlen : (reg task).length < counterInnerMax) :
    Locking capability rank firm live task (update reg task (reg task ++ [q]))
      (tbl.acquire shared rank task q) where
  inv := h.inv.acquire hq h.firm_iff h.rank_ne
  firm_iff u hu hr := by
    rw [update_of_ne hu] at hr
    rw [pending_acquire_eq_zero hu]
    exact h.firm_iff u hu hr
  rank_ne u hu hr := h.rank_ne u hu (by rwa [update_of_ne hu] at hr)
  last hc u hu hr := h.last hc u hu (by rwa [update_of_ne hu] at hr)
  taskId := h.taskId
  mem_live u hu hr := h.mem_live u hu (by rwa [update_of_ne hu] at hr)
  length_live := h.length_live
  length_reg u := by
    by_cases hu : u = task
    · subst hu
      rw [update_self, length_append]
      exact hlen
    · rw [update_of_ne hu]
      exact h.length_reg u

/-- A client that holds something does not wait for all it asked for. -/
lemma pending_lt {r : Q} {x : UsageFromTask Q} (hx : x ∈ (tbl.cell r).holders) :
    tbl.pending x.2 < counterInnerMax := by
  have hreg : (r, x.1) ∈ reg x.2 := (h.inv.placed r x.1 x.2).mp (mem_append_left _ hx)
  have hnot := h.inv.not_waits_of_held hx
  refine lt_of_lt_of_le ?_ (h.length_reg x.2)
  rw [h.inv.pending]
  refine lt_of_le_of_ne countP_le_length fun heq => ?_
  cases hnot.symm.trans (countP_eq_length.mp heq _ hreg)

/-- **One queue**: the paths through the loop body of `try_lock_usage_queues`. The counter of the
task itself is not written yet. -/
lemma locks (hq : q.1 ∉ (reg task).map Prod.fst) :
    Locks (ofCell capability (tbl.cell q.1)) (update tbl.pending task 0) task q.2
      ((tbl.cell q.1).admits shared rank tbl.pending (q.2, task))
      (ofCell capability ((tbl.acquire shared rank task q).cell q.1))
      (update (tbl.acquire shared rank task q).pending task 0) := by
  have hne : ∀ y ∈ (tbl.cell q.1).holders ++ (tbl.cell q.1).waiters, y.2 ≠ task := by
    rintro ⟨m, u⟩ hy rfl
    exact h.inv.not_mem_of_not_asked hq hy
  have hreg : ∀ y ∈ (tbl.cell q.1).holders ++ (tbl.cell q.1).waiters, reg y.2 ≠ [] :=
    fun y hy => h.inv.reg_ne_nil hy
  have hsame : ∀ y ∈ (tbl.cell q.1).holders,
      update tbl.pending task 0 y.2 = tbl.pending y.2 := fun y hy =>
    update_of_ne (hne y (mem_append_left _ hy)) _ _
  obtain ⟨htaken, hadmits, hacquire⟩ := Cell.acquire_congr shared rank (q.2, task) hsame
  have hlocks : Locks (ofCell capability (tbl.cell q.1)) (update tbl.pending task 0) task
      q.2 _ _ _ := locks_ofCell (h.inv.cell q.1)
    ⟨fun hc y hy => h.last hc y.2 (hne y hy) (hreg y hy), h.taskId⟩
    (fun y hy => by
      have hy' := mem_append_left (tbl.cell q.1).waiters hy
      rw [hsame y hy]
      exact h.firm_iff y.2 (hne y hy') (hreg y hy'))
    (fun y hy => h.rank_ne y.2 (hne y hy) (hreg y hy))
    (by
      have := length_cell_le h.inv (q := q.1) fun y hy => h.mem_live y.2 (hne y hy) (hreg y hy)
      have := h.length_live
      omega)
    (fun y hy => by
      rw [hsame y hy]
      exact h.pending_lt hy)
  have hcell : (tbl.acquire shared rank task q).cell q.1 =
      (tbl.cell q.1).acquire shared rank tbl.pending (q.2, task) := by
    simp [Table.acquire]
  have hcounts : reblocked (update tbl.pending task 0)
      (((tbl.cell q.1).taken shared rank tbl.pending (q.2, task)).map Prod.snd) =
      update (tbl.acquire shared rank task q).pending task 0 := by
    funext u
    by_cases hu : u = task
    · subst hu
      have hnot : u ∉ ((tbl.cell q.1).taken shared rank tbl.pending (q.2, u)).map Prod.snd := by
        intro hm
        obtain ⟨y, hy, hyu⟩ := mem_map.mp hm
        exact hne y (mem_append_left _ (Cell.mem_taken.mp hy).1) hyu
      simp [reblocked, hnot]
    have hmem : u ∈ ((tbl.cell q.1).taken shared rank tbl.pending (q.2, task)).map Prod.snd ↔
        tbl.loses shared rank q.1 (q.2, task) u = true := by
      rw [loses_iff]
      simp
    simp [reblocked, hmem, acquire_pending, hu]
  rw [htaken, hadmits, hacquire, hcounts] at hlocks
  rw [hcell]
  exact hlocks

end
end Locking

/-- The loop body of `try_lock_usage_queues` along a path through its queue. -/
lemma lockUsageQueue_of_locks {m : SchedulingStateMachine Q} {n : ℕ} {granted : Bool}
    {usageQueue : UsageQueueInner Q} {counts : BlockedUsageCounts Q}
    (h : Locks (m.usageQueues q.1) m.blockedUsageCounts task q.2 granted usageQueue counts)
    (hn : granted = false → n < counterInnerMax) :
    lockUsageQueue task (n, m) q =
      .ok (if granted then n else n + 1,
        { m with
          blockedUsageCounts := counts
          usageQueues := update m.usageQueues q.1 usageQueue }) := by
  cases h with
  | granted hprep hlock => simp [lockUsageQueue, bind, Except.bind, hprep, hlock]
  | refused hprep hlock hpush =>
    simp [lockUsageQueue, bind, Except.bind, hprep, hlock, hpush, ShortCounter.increment, hn rfl]
  | blocked hprep hpush =>
    simp [lockUsageQueue, bind, Except.bind, hprep, hpush, ShortCounter.increment, hn rfl]

/-- The machine in the middle of `try_lock_usage_queues`: the counter of the task is still a local
variable. -/
def lockingMachine (m : SchedulingStateMachine Q) (capability : Capability) (task : Task Q)
    (tbl : Table Q RequestedUsage (Task Q)) : ℕ × SchedulingStateMachine Q :=
  (tbl.pending task,
    { m.ofTable capability tbl with blockedUsageCounts := update tbl.pending task 0 })

/-- One round of the loop of `try_lock_usage_queues` is `Table.acquire`. -/
lemma lockUsageQueue_lockingMachine (m : SchedulingStateMachine Q)
    (h : Locking capability rank firm live task reg tbl)
    (hq : q.1 ∉ (reg task).map Prod.fst) (hlen : (reg task).length < counterInnerMax) :
    lockUsageQueue task (lockingMachine m capability task tbl) q =
      .ok (lockingMachine m capability task (tbl.acquire shared rank task q)) := by
  have hpending : tbl.pending task < counterInnerMax := by
    rw [h.inv.pending]
    exact lt_of_le_of_lt countP_le_length hlen
  have hloses : tbl.loses shared rank q.1 (q.2, task) task = false := by
    rw [Bool.eq_false_iff]
    intro hl
    obtain ⟨u, hu⟩ := loses_iff.mp hl
    exact h.inv.not_mem_of_not_asked hq (mem_append_left _ (Cell.mem_taken.mp hu).1)
  have hself : (tbl.acquire shared rank task q).pending task =
      if (tbl.cell q.1).admits shared rank tbl.pending (q.2, task) then tbl.pending task
      else tbl.pending task + 1 := by
    rw [acquire_pending, hloses]
    cases (tbl.cell q.1).admits shared rank tbl.pending (q.2, task) <;> simp
  have hqueues : update (fun r => ofCell capability (tbl.cell r)) q.1
      (ofCell capability ((tbl.acquire shared rank task q).cell q.1)) =
      fun r => ofCell capability ((tbl.acquire shared rank task q).cell r) := by
    funext r
    by_cases hr : r = q.1
    · subst hr
      rw [update_self]
    · rw [update_of_ne hr]
      simp [acquire, hr]
  rw [lockingMachine, lockUsageQueue_of_locks (h.locks hq) fun _ => hpending, lockingMachine, hself]
  simp [SchedulingStateMachine.ofTable, hqueues]

/-- The loop of `try_lock_usage_queues` is `Table.acquireAll`. -/
lemma foldlM_lockUsageQueue (m : SchedulingStateMachine Q)
    (qs : List (LockContext Q)) : ∀ {reg : Task Q → List (LockContext Q)}
    {tbl : Table Q RequestedUsage (Task Q)}, Locking capability rank firm live task reg tbl →
    ((reg task ++ qs).map Prod.fst).Nodup → (reg task ++ qs).length ≤ counterInnerMax →
    qs.foldlM (lockUsageQueue task) (lockingMachine m capability task tbl) =
      .ok (lockingMachine m capability task (tbl.acquireAll shared rank task qs)) := by
  induction qs with
  | nil => exact fun _ _ _ => rfl
  | cons q qs ih =>
    intro reg tbl h hnd hlen
    have hq : q.1 ∉ (reg task).map Prod.fst := by
      rw [map_append, map_cons, nodup_append] at hnd
      exact fun hm => hnd.2.2 q.1 hm q.1 (.head _) rfl
    have hlt : (reg task).length < counterInnerMax := by
      rw [length_append, length_cons] at hlen
      omega
    rw [foldlM_cons, lockUsageQueue_lockingMachine m h hq hlt]
    refine ih (h.acquire hq hlt) ?_ ?_
    · simpa using hnd
    · simpa using hlen

/-- **`try_lock_usage_queues` is `Table.acquireAll`.** -/
theorem tryLockUsageQueues_ofTable (m : SchedulingStateMachine Q)
    (h : Locking capability rank firm live task reg tbl) (hreg : reg task = []) :
    (m.ofTable capability tbl).tryLockUsageQueues task =
      .ok (if (tbl.acquireAll shared rank task task.lockContexts).pending task = 0 then some task
          else none,
        m.ofTable capability (tbl.acquireAll shared rank task task.lockContexts)) := by
  have h0 : tbl.pending task = 0 := by rw [h.inv.pending, hreg, countP_nil]
  have hstart : lockingMachine m capability task tbl = (0, m.ofTable capability tbl) := by
    simp only [lockingMachine, h0]
    rw [← h0, update_eq_self]
    rfl
  have hloop := foldlM_lockUsageQueue m task.lockContexts h
    (by rw [hreg]; exact task.distinct) (by rw [hreg]; exact task.countable)
  rw [hstart] at hloop
  simp only [tryLockUsageQueues, hloop, bind, Except.bind, lockingMachine]
  split_ifs with hz
  · rw [← hz, update_eq_self]
    rfl
  · simp [Task.setBlockedUsageCount, SchedulingStateMachine.ofTable]

/-! ## Unlocking -/

/-- The counters after a release. -/
lemma lessBlocked_granted (t : Task Q) (q : Q) :
    lessBlocked tbl.pending (((tbl.cell q).granted shared t).map Prod.snd) =
      (tbl.release shared t q).pending := by
  funext u
  have hmem : u ∈ ((tbl.cell q).granted shared t).map Prod.snd ↔ tbl.gains shared t q u = true := by
    rw [gains_iff]
    simp
  simp [lessBlocked, hmem, release_pending]

section
variable (hrank : capability = .priorityQueueing → rank = Task.taskId)
include hrank

/-- One round of the loop of `unlock_usage_queues` is `Table.release`. -/
lemma unlockUsageQueue_ofTable (m : SchedulingStateMachine Q) (hI : tbl.Inv shared rank reg firm)
    {qs : List (LockContext Q)} (hreg : reg task = q :: qs)
    (h0 : tbl.pending task = 0) (hlive : ∀ u, reg u ≠ [] → u ∈ live)
    (hlen : live.length ≤ counterInnerMax) :
    unlockUsageQueue task (m.ofTable capability tbl) q =
      .ok (({ m with
        unblockedTaskQueue := m.unblockedTaskQueue ++ tbl.unblocked shared task q.1 } :
          SchedulingStateMachine Q).ofTable capability (tbl.release shared task q.1)) := by
  have hheld : (q.2, task) ∈ (tbl.cell q.1).holders :=
    hI.held_of_pending h0 (by rw [hreg]; exact .head _)
  have hwaiters : (tbl.cell q.1).waiters.length ≤ counterInnerMax := by
    have := length_cell_le hI (q := q.1) fun y hy => hlive y.2 (hI.reg_ne_nil hy)
    omega
  have hpos : ∀ w ∈ (tbl.cell q.1).waiters, 0 < tbl.pending w.2 := by
    intro w hw
    rw [hI.pending]
    refine countP_pos_iff.mpr ⟨(q.1, w.1), ?_, waits_iff.mpr ⟨w.1, hw⟩⟩
    exact (hI.placed q.1 w.1 w.2).mp (mem_append_right _ hw)
  obtain ⟨newlyLockable, usageQueue, hunlock, hloop⟩ :=
    unlocks_ofCell hrank (hI.cell q.1) hheld m.unblockedTaskQueue hwaiters hpos
  have hqueues : update (fun r => ofCell capability (tbl.cell r)) q.1
      (ofCell capability ((tbl.cell q.1).release shared task)) =
      fun r => ofCell capability ((tbl.release shared task q.1).cell r) := by
    funext r
    by_cases hr : r = q.1
    · subst hr
      simp [release]
    · simp [release, hr]
  simp only [unlockUsageQueue, SchedulingStateMachine.ofTable, bind, Except.bind, hunlock, hloop,
    hqueues, lessBlocked_granted]
  rfl

/-- The loop of `unlock_usage_queues` is `Table.releaseAll`. -/
lemma foldlM_unlockUsageQueue (hlen : live.length ≤ counterInnerMax)
    (qs : List (LockContext Q)) : ∀ {reg : Task Q → List (LockContext Q)}
    {tbl : Table Q RequestedUsage (Task Q)} (m : SchedulingStateMachine Q),
    tbl.Inv shared rank reg firm → reg task = qs → tbl.pending task = 0 →
    (∀ u, reg u ≠ [] → u ∈ live) →
    qs.foldlM (unlockUsageQueue task) (m.ofTable capability tbl) =
      .ok (({ m with
        unblockedTaskQueue :=
          m.unblockedTaskQueue ++ (releaseAll shared task qs tbl).2 } :
          SchedulingStateMachine Q).ofTable capability (releaseAll shared task qs tbl).1) := by
  induction qs with
  | nil =>
    intro reg tbl m _ _ _ _
    simp only [releaseAll, append_nil]
    rfl
  | cons q qs ih =>
    intro reg tbl m hI hreg h0 hlive
    have h0' : (tbl.release shared task q.1).pending task = 0 := by
      have := release_pending_le shared tbl task task q.1
      omega
    have hlive' : ∀ u, update reg task qs u ≠ [] → u ∈ live := by
      intro u hu
      by_cases hut : u = task
      · subst hut
        exact hlive u (by rw [hreg]; exact cons_ne_nil _ _)
      · rw [update_of_ne hut] at hu
        exact hlive u hu
    rw [foldlM_cons, unlockUsageQueue_ofTable hrank m hI hreg h0 hlive hlen]
    refine (ih _ (hI.release hreg h0) (update_self _ _ _) h0' hlive').trans ?_
    simp [releaseAll]

/-- **`unlock_usage_queues` is `Table.releaseAll`.** -/
theorem unlockUsageQueues_ofTable (m : SchedulingStateMachine Q)
    (hI : tbl.Inv shared rank reg firm) (hreg : reg task = task.lockContexts)
    (h0 : tbl.pending task = 0) (hlive : ∀ u, reg u ≠ [] → u ∈ live)
    (hlen : live.length ≤ counterInnerMax) :
    (m.ofTable capability tbl).unlockUsageQueues task =
      .ok (({ m with
        unblockedTaskQueue :=
          m.unblockedTaskQueue ++ (releaseAll shared task task.lockContexts tbl).2 } :
          SchedulingStateMachine Q).ofTable capability
            (releaseAll shared task task.lockContexts tbl).1) :=
  foldlM_unlockUsageQueue hrank hlen task.lockContexts m hI hreg h0 hlive

end
end Trezoa.UnifiedScheduler
