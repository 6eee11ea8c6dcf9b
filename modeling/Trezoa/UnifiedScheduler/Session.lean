import Trezoa.Lib.Fallible
import Trezoa.UnifiedScheduler.Refinement

/-!
# Sessions of the scheduler as sessions over a lock table

`Session.callTable` is a call on an abstract scheduler: counters, a queue of unblocked tasks and a
lock table, the same for both capabilities. A call on the machine is that call
(`call_ofTable`), so what holds of a run is what the abstract scheduler keeps.
-/

namespace Trezoa.UnifiedScheduler

open Lib Trezoa.Lib.LockTable SchedulingStateMachine ShortCounter Session List Table
    UnifiedScheduler.Task Except

variable {Q : Type} [DecidableEq Q] {capability : Capability} {rank : Task Q → ℕ}

/-! ## Counters -/

lemma increment_ok {c n : ℕ} : increment c = .ok n ↔ c < counterInnerMax ∧ n = c + 1 := by
  unfold increment
  split_ifs with h
  · simp [h, eq_comm]
  · simp [h]

lemma decrement_ok {c n : ℕ} : decrement c = .ok n ↔ 0 < c ∧ n = c - 1 := by
  unfold decrement
  split_ifs with h
  · simp [h]
  · simp [Nat.pos_of_ne_zero h, eq_comm]

lemma increment_of_lt {c : ℕ} (h : c < counterInnerMax) : increment c = .ok (c + 1) :=
  increment_ok.mpr ⟨h, rfl⟩

lemma increment_of_not_lt {c : ℕ} (h : ¬ c < counterInnerMax) :
    increment c = .error .counterOverflow :=
  if_neg h

lemma decrement_of_pos {c : ℕ} (h : 0 < c) : decrement c = .ok (c - 1) := decrement_ok.mpr ⟨h, rfl⟩

/-! ## The abstract scheduler -/

namespace SchedulingStateMachine

/-- `schedule_or_buffer_task` around the lock table; `locked` says that nothing waits. -/
def enter (m : SchedulingStateMachine Q) (task : Task Q) (locked forceBuffering : Bool) :
    Except Panic (Option (Task Q) × SchedulingStateMachine Q) := do
  let totalTaskCount ← ShortCounter.increment m.totalTaskCount
  let activeTaskCount ← ShortCounter.increment m.activeTaskCount
  let m := { m with totalTaskCount := totalTaskCount, activeTaskCount := activeTaskCount }
  if locked then m.runOrBufferTask task forceBuffering else .ok (none, m)

/-- `deschedule_task` around the lock table; `unblocked` are the tasks that wait for nothing any
more. -/
def retire (m : SchedulingStateMachine Q) (unblocked : List (Task Q)) :
    Except Panic (SchedulingStateMachine Q) := do
  let runningTaskCount ← ShortCounter.decrement m.runningTaskCount
  let activeTaskCount ← ShortCounter.decrement m.activeTaskCount
  let handledTaskCount ← ShortCounter.increment m.handledTaskCount
  .ok { m with
    runningTaskCount := runningTaskCount
    activeTaskCount := activeTaskCount
    handledTaskCount := handledTaskCount
    unblockedTaskQueue := m.unblockedTaskQueue ++ unblocked }

end SchedulingStateMachine

namespace Session

/-- The session whose machine represents a lock table. -/
def ofTable (σ : Session Q) (capability : Capability) (tbl : Table Q RequestedUsage (Task Q)) :
    Session Q :=
  { σ with machine := σ.machine.ofTable capability tbl }

/-- A call on the abstract scheduler. -/
def callTable (rank : Task Q → ℕ) (tbl : Table Q RequestedUsage (Task Q)) (σ : Session Q) :
    Call Q → Except Panic (Option (Task Q) × Session Q × Table Q RequestedUsage (Task Q))
  | .scheduleOrBufferTask task forceBuffering => do
    let tbl := tbl.acquireAll shared rank task task.lockContexts
    let (result, machine) ← σ.machine.enter task (decide (tbl.pending task = 0)) forceBuffering
    .ok (result,
      { σ with
        machine := machine
        scheduled := σ.scheduled ++ [task]
        returned := σ.returned ++ result.toList }, tbl)
  | .scheduleNextUnblockedTask => do
    let (result, machine) ← σ.machine.scheduleNextUnblockedTask
    .ok (result, { σ with machine := machine, returned := σ.returned ++ result.toList }, tbl)
  | .descheduleTask task => do
    let (tbl, unblocked) := releaseAll shared task task.lockContexts tbl
    let machine ← σ.machine.retire unblocked
    .ok (none, { σ with machine := machine, descheduled := σ.descheduled ++ [task] }, tbl)

/-- The requests of the tasks that were passed in and not descheduled. -/
def requests (σ : Session Q) (t : Task Q) : List (LockContext Q) :=
  if t ∈ σ.scheduled ∧ t ∉ σ.descheduled then t.lockContexts else []

/-- The task was returned or is queued as unblocked. -/
def Started (σ : Session Q) (t : Task Q) : Prop :=
  t ∈ σ.returned ∨ t ∈ σ.machine.unblockedTaskQueue

/-- The tasks of a session and the lock table it represents. -/
structure TaskInv (rank : Task Q → ℕ) (σ : Session Q) (tbl : Table Q RequestedUsage (Task Q)) :
    Prop where
  /-- The lock table is in order; a task that was handed out or queued as unblocked is firm. -/
  table : tbl.Inv shared rank σ.requests σ.Started
  /-- A task is handed out or queued as unblocked exactly when it waits for nothing. -/
  started_iff : ∀ t, t ∈ σ.scheduled → t ∉ σ.descheduled → (σ.Started t ↔ tbl.pending t = 0)
  /-- Task ids are not used twice. -/
  distinct : (σ.scheduled.map taskId).Nodup
  /-- No task is handed out or queued twice. -/
  nodup : (σ.returned ++ σ.machine.unblockedTaskQueue).Nodup
  /-- Only tasks that were passed in are handed out or queued. -/
  mem_scheduled : ∀ t, σ.Started t → t ∈ σ.scheduled
  /-- Only returned tasks are descheduled. -/
  mem_returned : ∀ t ∈ σ.descheduled, t ∈ σ.returned
  /-- No task is descheduled twice. -/
  nodup_descheduled : σ.descheduled.Nodup

/-- The counters of a session. -/
structure CountInv (maxRunningTaskCount : ℕ) (σ : Session Q) : Prop where
  /-- `total_task_count`. -/
  total : σ.machine.totalTaskCount = σ.scheduled.length
  /-- `total_task_count` is a `u32`. -/
  total_le : σ.scheduled.length ≤ counterInnerMax
  /-- `active_task_count`. -/
  active : σ.machine.activeTaskCount + σ.descheduled.length = σ.scheduled.length
  /-- `handled_task_count`. -/
  handled : σ.machine.handledTaskCount = σ.descheduled.length
  /-- `running_task_count`. -/
  running : σ.machine.runningTaskCount + σ.descheduled.length = σ.returned.length
  /-- `max_running_task_count`. -/
  max : σ.machine.maxRunningTaskCount = maxRunningTaskCount
  /-- The limit on the running tasks is kept. -/
  running_le : σ.machine.runningTaskCount ≤ maxRunningTaskCount
  /-- A task counts at most twice as unblocked. -/
  unblocked_le : σ.machine.unblockedTaskCount ≤ σ.scheduled.length + σ.returned.length

/-- The invariant of a session with the lock table it represents. -/
structure Inv (rank : Task Q → ℕ) (maxRunningTaskCount : ℕ) (σ : Session Q)
    (tbl : Table Q RequestedUsage (Task Q)) : Prop where
  /-- The tasks. -/
  tasks : σ.TaskInv rank tbl
  /-- The counters. -/
  counts : σ.CountInv maxRunningTaskCount

end Session

/-- How the tasks of a session are ranked: by arrival with fifo queues, by id with priority
queues. -/
structure Ranked (capability : Capability) (rank : Task Q → ℕ) (scheduled : List (Task Q)) :
    Prop where
  /-- Fifo queues rank by arrival. -/
  arrival : capability = .fifoQueueing → scheduled.Pairwise fun a b => rank a < rank b
  /-- Priority queues rank by task id. -/
  taskId : capability = .priorityQueueing → rank = taskId

omit [DecidableEq Q] in
/-- A task with a new id has a new rank. -/
lemma Ranked.rank_ne {scheduled : List (Task Q)} {task u : Task Q}
    (hr : Ranked capability rank (scheduled ++ [task]))
    (hid : task.taskId ∉ scheduled.map Task.taskId) (hu : u ∈ scheduled) : rank u ≠ rank task := by
  cases capability with
  | fifoQueueing =>
    have hlt := (pairwise_append.mp (hr.arrival rfl)).2.2 u hu task (mem_singleton_self _)
    exact hlt.ne
  | priorityQueueing =>
    rw [hr.taskId rfl]
    exact fun h => hid (h ▸ mem_map_of_mem hu)

/-- The tasks that a call passes in. -/
def Call.arrivals : Call Q → List (Task Q)
  | .scheduleOrBufferTask task _ => [task]
  | .scheduleNextUnblockedTask => []
  | .descheduleTask _ => []

/-! ## Calls on the machine are calls on the table -/

section machine
variable {firm : Task Q → Prop} {reg : Task Q → List (LockContext Q)}
  {tbl : Table Q RequestedUsage (Task Q)} {live : List (Task Q)} {task : Task Q}

omit [DecidableEq Q] in
lemma runOrBufferTask_ofTable (m : SchedulingStateMachine Q) (task : Task Q)
    (forceBuffering : Bool) :
    (m.ofTable capability tbl).runOrBufferTask task forceBuffering =
      (m.runOrBufferTask task forceBuffering).map fun r => (r.1, r.2.ofTable capability tbl) := by
  unfold runOrBufferTask
  rw [ofTable_isTaskRunnable, ofTable_unblockedTaskCount, ofTable_runningTaskCount]
  by_cases hbuffer : (!m.isTaskRunnable || forceBuffering) = true
  · rw [if_pos hbuffer, if_pos hbuffer]
    cases increment m.unblockedTaskCount <;> rfl
  · rw [if_neg hbuffer, if_neg hbuffer]
    cases increment m.runningTaskCount <;> rfl

lemma scheduleOrBufferTask_ofTable (m : SchedulingStateMachine Q) (forceBuffering : Bool)
    (h : m.activeTaskCount < counterInnerMax → Locking capability rank firm live task reg tbl)
    (hreg : reg task = []) :
    (m.ofTable capability tbl).scheduleOrBufferTask task forceBuffering =
      (m.enter task (decide ((tbl.acquireAll shared rank task task.lockContexts).pending task = 0))
        forceBuffering).map fun r =>
          (r.1, r.2.ofTable capability (tbl.acquireAll shared rank task task.lockContexts)) := by
  unfold scheduleOrBufferTask enter
  cases ht : increment m.totalTaskCount with
  | error e =>
    simp only [ofTable_totalTaskCount, ht]
    rfl
  | ok total =>
    cases ha : increment m.activeTaskCount with
    | error e =>
      simp only [ofTable_totalTaskCount, ofTable_activeTaskCount, ht, ha]
      rfl
    | ok active =>
      have hlock : tryLockUsageQueues
          { m.ofTable capability tbl with
            totalTaskCount := total, activeTaskCount := active } task = _ :=
        tryLockUsageQueues_ofTable
          { m with totalTaskCount := total, activeTaskCount := active }
          (h (increment_ok.mp ha).1) hreg
      set tbl' := tbl.acquireAll shared rank task task.lockContexts with htbl'
      simp only [ofTable_totalTaskCount, ofTable_activeTaskCount, ht, ha, bind, Except.bind, hlock]
      by_cases hp : tbl'.pending task = 0
      · simp only [hp, if_true, decide_true]
        exact runOrBufferTask_ofTable _ task forceBuffering
      · simp [hp, Except.map]

omit [DecidableEq Q] in
lemma scheduleNextUnblockedTask_ofTable (m : SchedulingStateMachine Q) :
    (m.ofTable capability tbl).scheduleNextUnblockedTask =
      m.scheduleNextUnblockedTask.map fun r => (r.1, r.2.ofTable capability tbl) := by
  unfold scheduleNextUnblockedTask
  rw [ofTable_isTaskRunnable, ofTable_unblockedTaskQueue, ofTable_runningTaskCount,
    ofTable_unblockedTaskCount]
  by_cases hrun : (!m.isTaskRunnable) = true
  · rw [if_pos hrun, if_pos hrun]
    rfl
  rw [if_neg hrun, if_neg hrun]
  cases m.unblockedTaskQueue with
  | nil => rfl
  | cons t ts =>
    cases increment m.runningTaskCount with
    | error e => rfl
    | ok running => cases increment m.unblockedTaskCount <;> rfl

lemma descheduleTask_ofTable (hrank : capability = .priorityQueueing → rank = taskId)
    (m : SchedulingStateMachine Q) (hI : tbl.Inv shared rank reg firm)
    (hreg : reg task = task.lockContexts) (h0 : tbl.pending task = 0)
    (hlive : ∀ u, reg u ≠ [] → u ∈ live) (hlen : live.length ≤ counterInnerMax) :
    (m.ofTable capability tbl).descheduleTask task =
      (m.retire (releaseAll shared task task.lockContexts tbl).2).map fun m =>
        m.ofTable capability (releaseAll shared task task.lockContexts tbl).1 := by
  unfold descheduleTask retire
  rw [ofTable_runningTaskCount, ofTable_activeTaskCount, ofTable_handledTaskCount]
  cases hr : decrement m.runningTaskCount with
  | error e => rfl
  | ok running =>
    cases ha : decrement m.activeTaskCount with
    | error e => rfl
    | ok active =>
      cases hh : increment m.handledTaskCount with
      | error e => rfl
      | ok handled =>
        have hunlock := unlockUsageQueues_ofTable hrank
          { m with
            runningTaskCount := running
            activeTaskCount := active
            handledTaskCount := handled } hI hreg h0 hlive hlen
        exact hunlock

end machine

/-! ## What a call does to the counters -/

section inversion
variable {m m' : SchedulingStateMachine Q} {task : Task Q} {result : Option (Task Q)}

omit [DecidableEq Q] in
/-- The three outcomes of `schedule_or_buffer_task`: the task is blocked, buffered or handed out. -/
lemma enter_ok {locked forceBuffering : Bool}
    (h : m.enter task locked forceBuffering = .ok (result, m')) :
    m.totalTaskCount < counterInnerMax ∧ m.activeTaskCount < counterInnerMax ∧
      ((locked = false ∧ result = none ∧ m' = { m with
          totalTaskCount := m.totalTaskCount + 1, activeTaskCount := m.activeTaskCount + 1 }) ∨
        (locked = true ∧ result = none ∧ m' = { m with
          totalTaskCount := m.totalTaskCount + 1
          activeTaskCount := m.activeTaskCount + 1
          unblockedTaskCount := m.unblockedTaskCount + 1
          unblockedTaskQueue := m.unblockedTaskQueue ++ [task] }) ∨
        (locked = true ∧ m.runningTaskCount < m.maxRunningTaskCount ∧ result = some task ∧
          m' = { m with
            totalTaskCount := m.totalTaskCount + 1
            activeTaskCount := m.activeTaskCount + 1
            runningTaskCount := m.runningTaskCount + 1 })) := by
  unfold enter at h
  obtain ⟨total, ht, h⟩ := bind_eq_ok.mp h
  obtain ⟨active, ha, h⟩ := bind_eq_ok.mp h
  obtain ⟨htotal, rfl⟩ := increment_ok.mp ht
  obtain ⟨hactive, rfl⟩ := increment_ok.mp ha
  refine ⟨htotal, hactive, ?_⟩
  cases locked with
  | false =>
    cases h
    exact .inl ⟨rfl, rfl, rfl⟩
  | true =>
    simp only [if_true, runOrBufferTask] at h
    split_ifs at h with hbuffer
    · obtain ⟨unblocked, hu, h⟩ := bind_eq_ok.mp h
      obtain ⟨-, rfl⟩ := increment_ok.mp hu
      cases h
      exact .inr (.inl ⟨rfl, rfl, rfl⟩)
    obtain ⟨running, hr, h⟩ := bind_eq_ok.mp h
    obtain ⟨-, rfl⟩ := increment_ok.mp hr
    cases h
    have hrun : m.runningTaskCount < m.maxRunningTaskCount := by
      simp only [isTaskRunnable, Bool.or_eq_true, not_or] at hbuffer
      simpa using hbuffer.1
    exact .inr (.inr ⟨rfl, hrun, rfl, rfl⟩)

omit [DecidableEq Q] in
/-- `schedule_next_unblocked_task` hands out the first unblocked task, or nothing. -/
lemma scheduleNextUnblockedTask_ok (h : m.scheduleNextUnblockedTask = .ok (result, m')) :
    (result = none ∧ m' = m) ∨
      ∃ t ts, m.unblockedTaskQueue = t :: ts ∧ m.runningTaskCount < m.maxRunningTaskCount ∧
        result = some t ∧ m' = { m with
          unblockedTaskQueue := ts
          runningTaskCount := m.runningTaskCount + 1
          unblockedTaskCount := m.unblockedTaskCount + 1 } := by
  unfold scheduleNextUnblockedTask at h
  split_ifs at h with hrun
  · cases h
    exact .inl ⟨rfl, rfl⟩
  cases hq : m.unblockedTaskQueue with
  | nil =>
    rw [hq] at h
    cases h
    exact .inl ⟨rfl, rfl⟩
  | cons t ts =>
    simp only [hq] at h
    obtain ⟨running, hr, h⟩ := bind_eq_ok.mp h
    obtain ⟨unblocked, hu, h⟩ := bind_eq_ok.mp h
    obtain ⟨-, rfl⟩ := increment_ok.mp hr
    obtain ⟨-, rfl⟩ := increment_ok.mp hu
    cases h
    refine .inr ⟨t, ts, rfl, ?_, rfl, rfl⟩
    simpa [isTaskRunnable] using hrun

omit [DecidableEq Q] in
lemma retire_ok {unblocked : List (Task Q)} (h : m.retire unblocked = .ok m') :
    0 < m.runningTaskCount ∧ 0 < m.activeTaskCount ∧ m' = { m with
      runningTaskCount := m.runningTaskCount - 1
      activeTaskCount := m.activeTaskCount - 1
      handledTaskCount := m.handledTaskCount + 1
      unblockedTaskQueue := m.unblockedTaskQueue ++ unblocked } := by
  unfold retire at h
  obtain ⟨running, hr, h⟩ := bind_eq_ok.mp h
  obtain ⟨active, ha, h⟩ := bind_eq_ok.mp h
  obtain ⟨handled, hh, h⟩ := bind_eq_ok.mp h
  obtain ⟨hrunning, rfl⟩ := decrement_ok.mp hr
  obtain ⟨hactive, rfl⟩ := decrement_ok.mp ha
  obtain ⟨-, rfl⟩ := increment_ok.mp hh
  exact ⟨hrunning, hactive, (ok.inj h).symm⟩

end inversion

/-! ## The invariant is kept -/

namespace Session

variable {σ σ' : Session Q} {tbl : Table Q RequestedUsage (Task Q)} {task : Task Q}
  {maxRunningTaskCount : ℕ}

omit [DecidableEq Q] in
lemma started_iff_mem {t : Task Q} :
    σ.Started t ↔ t ∈ σ.returned ++ σ.machine.unblockedTaskQueue := by
  simp [Started]

lemma requests_of_live {t : Task Q} (hs : t ∈ σ.scheduled) (hd : t ∉ σ.descheduled) :
    σ.requests t = t.lockContexts := by
  simp [requests, hs, hd]

lemma live_of_requests {t : Task Q} (h : σ.requests t ≠ []) :
    t ∈ σ.scheduled ∧ t ∉ σ.descheduled := by
  by_contra hn
  exact h (if_neg hn)

/-- Tasks among others, and the rest of those. -/
lemma length_filter_notMem {l l' : List (Task Q)} (hl : l.Nodup) (hl' : l'.Nodup) (hsub : l' ⊆ l) :
    l'.length + (l.filter fun t => t ∉ l').length = l.length := by
  have hperm : (l.filter fun t => t ∈ l').Perm l' := by
    rw [perm_ext_iff_of_nodup (hl.filter _) hl']
    intro t
    simp only [mem_filter, decide_eq_true_eq]
    exact ⟨fun h => h.2, fun h => ⟨hsub h, h⟩⟩
  have hsplit := @length_eq_countP_add_countP _ (fun t => decide (t ∈ l')) l
  rw [countP_eq_length_filter, countP_eq_length_filter, hperm.length_eq] at hsplit
  rw [hsplit]
  simp

/-- The tasks that were passed in and not descheduled. -/
def live (σ : Session Q) : List (Task Q) :=
  σ.scheduled.filter fun t => t ∉ σ.descheduled

lemma mem_live {t : Task Q} : t ∈ σ.live ↔ t ∈ σ.scheduled ∧ t ∉ σ.descheduled := by
  simp [live]

namespace TaskInv

lemma scheduled_nodup (hI : σ.TaskInv rank tbl) : σ.scheduled.Nodup := hI.distinct.of_map

lemma descheduled_scheduled (hI : σ.TaskInv rank tbl) {t : Task Q} (ht : t ∈ σ.descheduled) :
    t ∈ σ.scheduled :=
  hI.mem_scheduled t (.inl (hI.mem_returned t ht))

lemma length_live (hI : σ.TaskInv rank tbl) :
    σ.live.length + σ.descheduled.length = σ.scheduled.length := by
  rw [Nat.add_comm]
  exact length_filter_notMem hI.scheduled_nodup hI.nodup_descheduled
    fun _ => hI.descheduled_scheduled

omit [DecidableEq Q] in
/-- A task of a valid `schedule_or_buffer_task` call is new. -/
lemma not_mem_of_valid {forceBuffering : Bool}
    (hv : σ.Valid (.scheduleOrBufferTask task forceBuffering)) : task ∉ σ.scheduled :=
  fun h => hv (mem_map_of_mem h)

section
variable (hI : σ.TaskInv rank tbl)
include hI

/-- A new task meets a table in which it can ask for its queues. -/
lemma locking (hr : Ranked capability rank (σ.scheduled ++ [task]))
    (hid : task.taskId ∉ σ.scheduled.map taskId) (hlen : σ.live.length < counterInnerMax) :
    Locking capability rank σ.Started σ.live task σ.requests tbl where
  inv := hI.table
  firm_iff u _ hu := by
    obtain ⟨hs, hd⟩ := live_of_requests hu
    exact hI.started_iff u hs hd
  rank_ne u _ hu := hr.rank_ne hid (live_of_requests hu).1
  last hc u _ hu := (pairwise_append.mp (hr.arrival hc)).2.2 u (live_of_requests hu).1 task
    (mem_singleton_self _)
  taskId := hr.taskId
  mem_live u _ hu := mem_live.mpr (live_of_requests hu)
  length_live := hlen
  length_reg u := by
    by_cases hu : σ.requests u = []
    · rw [hu]
      exact Nat.zero_le _
    · obtain ⟨hs, hd⟩ := live_of_requests hu
      rw [requests_of_live hs hd]
      exact u.countable

/-- A task waits for something exactly when it is live and has not started. -/
lemma pending_pos_iff {t : Task Q} : 0 < tbl.pending t ↔ t ∈ σ.live ∧ ¬ σ.Started t := by
  constructor
  · intro hpos
    have hne : σ.requests t ≠ [] := by
      intro hnil
      rw [hI.table.pending t, hnil, countP_nil] at hpos
      exact absurd hpos (Nat.lt_irrefl 0)
    obtain ⟨hs, hd⟩ := live_of_requests hne
    refine ⟨mem_live.mpr ⟨hs, hd⟩, fun hst => ?_⟩
    rw [hI.started_iff t hs hd] at hst
    omega
  · rintro ⟨hl, hst⟩
    obtain ⟨hs, hd⟩ := mem_live.mp hl
    rw [hI.started_iff t hs hd] at hst
    omega

/-- The lock table after the requests of a new task, with whoever had started before as firm. -/
lemma arrive_table (hnew : task ∉ σ.scheduled) (hrank : ∀ u ∈ σ.scheduled, rank u ≠ rank task)
    (hscheduled : σ'.scheduled = σ.scheduled ++ [task])
    (hdescheduled : σ'.descheduled = σ.descheduled) :
    (tbl.acquireAll shared rank task task.lockContexts).Inv shared rank σ'.requests σ.Started := by
  have hreg : σ.requests task = [] := if_neg fun h => hnew h.1
  have hreq : σ'.requests =
      Function.update σ.requests task (σ.requests task ++ task.lockContexts) := by
    funext u
    by_cases hu : u = task
    · subst hu
      rw [Function.update_self, hreg, nil_append]
      refine requests_of_live (by simp [hscheduled]) ?_
      rw [hdescheduled]
      exact fun h => hnew (hI.descheduled_scheduled h)
    · simp [requests, hscheduled, hdescheduled, hu]
  rw [hreq]
  refine hI.table.acquireAll task.lockContexts (by rw [hreg]; exact task.distinct) ?_ ?_
  · intro u _ hu
    obtain ⟨hs, hd⟩ := live_of_requests hu
    exact hI.started_iff u hs hd
  · exact fun u _ hu => hrank u (live_of_requests hu).1

/-- A new task asks for its queues, and starts if nothing waits. -/
lemma arrive (hid : task.taskId ∉ σ.scheduled.map taskId)
    (hrank : ∀ u ∈ σ.scheduled, rank u ≠ rank task)
    (hscheduled : σ'.scheduled = σ.scheduled ++ [task])
    (hdescheduled : σ'.descheduled = σ.descheduled) (hreturned : ∀ t ∈ σ.returned, t ∈ σ'.returned)
    (hstarted : (σ'.returned ++ σ'.machine.unblockedTaskQueue).Perm
      (σ.returned ++ σ.machine.unblockedTaskQueue ++
        if (tbl.acquireAll shared rank task task.lockContexts).pending task = 0 then [task]
        else [])) :
    σ'.TaskInv rank (tbl.acquireAll shared rank task task.lockContexts) := by
  set tbl' := tbl.acquireAll shared rank task task.lockContexts with htbl'
  have hnew : task ∉ σ.scheduled := fun h => hid (mem_map_of_mem h)
  have hmem : ∀ t, σ'.Started t ↔ σ.Started t ∨ (t = task ∧ tbl'.pending task = 0) := by
    intro t
    rw [started_iff_mem, hstarted.mem_iff, mem_append, ← started_iff_mem]
    split_ifs with hp <;> simp [hp]
  refine ⟨?_, ?_, ?_, ?_, ?_, ?_, ?_⟩
  · exact (hI.arrive_table hnew hrank hscheduled hdescheduled).mono
      fun t ht => (hmem t).mpr (.inl ht)
  · intro t ht hd
    rw [hmem]
    by_cases htt : t = task
    · subst htt
      constructor
      · rintro (h | h)
        · exact absurd (hI.mem_scheduled t h) hnew
        · exact h.2
      · exact fun h => .inr ⟨rfl, h⟩
    · rw [hscheduled, mem_append, mem_singleton] at ht
      rw [hdescheduled] at hd
      rw [htbl', pending_acquireAll_eq_zero htt, ← hI.started_iff t (ht.resolve_right htt) hd]
      simp [htt]
  · rw [hscheduled, map_append]
    exact hI.distinct.append (nodup_singleton _) (by simpa using hid)
  · rw [hstarted.nodup_iff]
    refine hI.nodup.append (by split_ifs <;> simp) fun t ht ht' => ?_
    have htt : t = task := by
      split_ifs at ht' with hp
      · simpa using ht'
      · cases ht'
    exact hnew (htt ▸ hI.mem_scheduled t (started_iff_mem.mpr ht))
  · intro t ht
    rw [hscheduled, mem_append]
    rcases (hmem t).mp ht with h | h
    · exact .inl (hI.mem_scheduled t h)
    · exact .inr (by simp [h.1])
  · rw [hdescheduled]
    exact fun t ht => hreturned t (hI.mem_returned t ht)
  · rw [hdescheduled]
    exact hI.nodup_descheduled

/-- The lock table after a task gave its queues back, with whoever had started before as firm. -/
lemma leave_table (hret : task ∈ σ.returned) (hd : task ∉ σ.descheduled)
    (hscheduled : σ'.scheduled = σ.scheduled)
    (hdescheduled : σ'.descheduled = σ.descheduled ++ [task]) :
    (releaseAll shared task task.lockContexts tbl).1.Inv shared rank σ'.requests σ.Started := by
  have hsched : task ∈ σ.scheduled := hI.mem_scheduled task (.inl hret)
  have hreq : σ'.requests = Function.update σ.requests task [] := by
    funext u
    by_cases hu : u = task
    · subst hu
      rw [Function.update_self]
      exact if_neg fun h => h.2 (by simp [hdescheduled])
    · simp [requests, hscheduled, hdescheduled, hu]
  rw [hreq]
  exact hI.table.releaseAll task.lockContexts (requests_of_live hsched hd)
    ((hI.started_iff task hsched hd).mp (.inl hret))

/-- A task that was returned gives its queues back, and the tasks that wait for nothing any more
start. -/
lemma leave (hret : task ∈ σ.returned) (hd : task ∉ σ.descheduled)
    (hscheduled : σ'.scheduled = σ.scheduled) (hreturned : σ'.returned = σ.returned)
    (hdescheduled : σ'.descheduled = σ.descheduled ++ [task])
    (hqueue : σ'.machine.unblockedTaskQueue = σ.machine.unblockedTaskQueue ++
      (releaseAll shared task task.lockContexts tbl).2) :
    σ'.TaskInv rank (releaseAll shared task task.lockContexts tbl).1 := by
  have hsched : task ∈ σ.scheduled := hI.mem_scheduled task (.inl hret)
  have h0 : tbl.pending task = 0 := (hI.started_iff task hsched hd).mp (.inl hret)
  have hreg : σ.requests task = task.lockContexts := requests_of_live hsched hd
  obtain ⟨hnd, hunblocked⟩ := hI.table.unblocked_releaseAll task.lockContexts hreg h0
  have hle := fun u => releaseAll_pending_le shared task u task.lockContexts tbl
  have htable := hI.leave_table hret hd hscheduled hdescheduled
  set tbl' := (releaseAll shared task task.lockContexts tbl).1
  set unblocked := (releaseAll shared task task.lockContexts tbl).2
  have hmem : ∀ t, σ'.Started t ↔ σ.Started t ∨ t ∈ unblocked := by
    intro t
    simp [Started, hreturned, hqueue, or_assoc]
  -- whoever is unblocked was waiting, so it is live and had not started
  have hwaiting : ∀ t ∈ unblocked, t ∈ σ.live ∧ ¬ σ.Started t :=
    fun t ht => hI.pending_pos_iff.mp ((hunblocked t).mp ht).1
  refine ⟨?_, ?_, ?_, ?_, ?_, ?_, ?_⟩
  · exact htable.mono fun t ht => (hmem t).mpr (.inl ht)
  · intro t ht hdt
    rw [hscheduled] at ht
    rw [hdescheduled, mem_append, not_or] at hdt
    rw [hmem, hI.started_iff t ht hdt.1, hunblocked]
    have := hle t
    omega
  · rw [hscheduled]
    exact hI.distinct
  · rw [hreturned, hqueue, ← append_assoc]
    refine hI.nodup.append hnd fun t ht ht' => ?_
    exact (hwaiting t ht').2 (started_iff_mem.mpr ht)
  · intro t ht
    rw [hscheduled]
    rcases (hmem t).mp ht with h | h
    · exact hI.mem_scheduled t h
    · exact (mem_live.mp (hwaiting t h).1).1
  · intro t ht
    rw [hdescheduled, mem_append, mem_singleton] at ht
    rw [hreturned]
    rcases ht with ht | rfl
    · exact hI.mem_returned t ht
    · exact hret
  · rw [hdescheduled]
    exact hI.nodup_descheduled.append (nodup_singleton _) (by simpa using hd)

/-- The first unblocked task is handed out. -/
lemma handOut {t : Task Q} {ts : List (Task Q)}
    (hq : σ.machine.unblockedTaskQueue = t :: ts) (hscheduled : σ'.scheduled = σ.scheduled)
    (hreturned : σ'.returned = σ.returned ++ [t]) (hdescheduled : σ'.descheduled = σ.descheduled)
    (hqueue : σ'.machine.unblockedTaskQueue = ts) : σ'.TaskInv rank tbl := by
  have happend : σ'.returned ++ σ'.machine.unblockedTaskQueue =
      σ.returned ++ σ.machine.unblockedTaskQueue := by
    rw [hreturned, hqueue, hq, append_assoc, singleton_append]
  have hmem : σ'.Started = σ.Started := by
    funext u
    rw [eq_iff_iff, started_iff_mem, started_iff_mem, happend]
  have hreq : σ'.requests = σ.requests := by
    funext u
    simp [requests, hscheduled, hdescheduled]
  refine ⟨?_, ?_, ?_, ?_, ?_, ?_, ?_⟩
  · rw [hreq, hmem]
    exact hI.table
  · rw [hscheduled, hdescheduled, hmem]
    exact hI.started_iff
  · rw [hscheduled]
    exact hI.distinct
  · rw [happend]
    exact hI.nodup
  · rw [hscheduled, hmem]
    exact hI.mem_scheduled
  · rw [hdescheduled, hreturned]
    exact fun u hu => mem_append_left _ (hI.mem_returned u hu)
  · rw [hdescheduled]
    exact hI.nodup_descheduled

end
end TaskInv

variable {c : Call Q} {result : Option (Task Q)} {tbl' : Table Q RequestedUsage (Task Q)}

omit [DecidableEq Q] in
/-- A new task has a new rank. -/
lemma rank_ne_of_valid (hv : σ.Valid c) (hr : Ranked capability rank (σ.scheduled ++ c.arrivals))
    {t : Task Q} (ht : t ∈ c.arrivals) {u : Task Q} (hu : u ∈ σ.scheduled) : rank u ≠ rank t := by
  cases c with
  | scheduleOrBufferTask task forceBuffering =>
    rw [Call.arrivals, mem_singleton] at ht
    subst ht
    exact hr.rank_ne hv hu
  | scheduleNextUnblockedTask => cases ht
  | descheduleTask task => cases ht

section
variable (hI : σ.Inv rank maxRunningTaskCount tbl)
include hI

section
variable (hv : σ.Valid c) (hrank : ∀ t ∈ c.arrivals, ∀ u ∈ σ.scheduled, rank u ≠ rank t)
  (h : σ.callTable rank tbl c = .ok (result, σ', tbl'))
include hv hrank h

/-- **Every call within the contract keeps the invariant.** -/
theorem Inv.callTable : σ'.Inv rank maxRunningTaskCount tbl' := by
  obtain ⟨htasks, hcounts⟩ := hI
  obtain ⟨total, total_le, active, handled, running, hmax, running_le, unblocked_le⟩ := hcounts
  cases c with
  | scheduleOrBufferTask task forceBuffering =>
    have hrank' : ∀ u ∈ σ.scheduled, rank u ≠ rank task := hrank task (mem_singleton_self _)
    obtain ⟨⟨r, m⟩, henter, h⟩ := bind_eq_ok.mp h
    cases h
    obtain ⟨hlt, -, hcase⟩ := enter_ok henter
    rcases hcase with ⟨hp, rfl, rfl⟩ | ⟨hp, rfl, rfl⟩ | ⟨hp, hrun, rfl, rfl⟩
    · refine ⟨htasks.arrive hv hrank' rfl rfl (by simp) ?_, ?_⟩
      · rw [if_neg (of_decide_eq_false hp)]
        simp
      · constructor <;> simp <;> omega
    · refine ⟨htasks.arrive hv hrank' rfl rfl (by simp) ?_, ?_⟩
      · rw [if_pos (of_decide_eq_true hp)]
        simp
      · constructor <;> simp <;> omega
    refine ⟨htasks.arrive hv hrank' rfl rfl (by simp; tauto) ?_, ?_⟩
    · rw [if_pos (of_decide_eq_true hp)]
      simp only [Option.toList_some, append_assoc]
      exact perm_append_comm.append_left _
    · constructor <;> simp <;> omega
  | scheduleNextUnblockedTask =>
    obtain ⟨⟨r, m⟩, hnext, h⟩ := bind_eq_ok.mp h
    cases h
    rcases scheduleNextUnblockedTask_ok hnext with ⟨rfl, rfl⟩ | ⟨t, ts, hq, hrun, rfl, rfl⟩
    · simp only [Option.toList_none, append_nil]
      exact ⟨htasks, total, total_le, active, handled, running, hmax, running_le, unblocked_le⟩
    · refine ⟨htasks.handOut hq rfl rfl rfl rfl, ?_⟩
      constructor <;> simp <;> omega
  | descheduleTask task =>
    obtain ⟨m, hretire, h⟩ := bind_eq_ok.mp h
    cases h
    obtain ⟨hrun, hact, rfl⟩ := retire_ok hretire
    refine ⟨htasks.leave hv.1 hv.2 rfl rfl rfl rfl, ?_⟩
    constructor <;> simp <;> omega

/-- The lock table after a call, with only those firm who had started before the call. -/
lemma Inv.table_callTable : tbl'.Inv shared rank σ'.requests σ.Started := by
  cases c with
  | scheduleOrBufferTask task forceBuffering =>
    obtain ⟨_, -, h⟩ := bind_eq_ok.mp h
    cases h
    exact hI.tasks.arrive_table (TaskInv.not_mem_of_valid hv)
      (hrank task (mem_singleton_self _)) rfl rfl
  | scheduleNextUnblockedTask =>
    obtain ⟨_, -, h⟩ := bind_eq_ok.mp h
    cases h
    exact hI.tasks.table
  | descheduleTask task =>
    obtain ⟨_, -, h⟩ := bind_eq_ok.mp h
    cases h
    exact hI.tasks.leave_table hv.1 hv.2 rfl rfl

end

/-- **A call on the machine is a call on the abstract scheduler.** -/
theorem call_ofTable (hv : σ.Valid c) (hr : Ranked capability rank (σ.scheduled ++ c.arrivals)) :
    (σ.ofTable capability tbl).call c =
      (σ.callTable rank tbl c).map fun r => (r.1, r.2.1.ofTable capability r.2.2) := by
  have hlive := hI.tasks.length_live
  have hactive := hI.counts.active
  cases c with
  | scheduleOrBufferTask task forceBuffering =>
    have hreg : σ.requests task = [] := if_neg fun h => TaskInv.not_mem_of_valid hv h.1
    have hcall := scheduleOrBufferTask_ofTable σ.machine forceBuffering
      (fun ha => hI.tasks.locking hr hv (by omega)) hreg
    simp only [call, ofTable, hcall, callTable]
    cases σ.machine.enter task _ forceBuffering <;> rfl
  | scheduleNextUnblockedTask =>
    simp only [call, ofTable, scheduleNextUnblockedTask_ofTable, callTable]
    cases σ.machine.scheduleNextUnblockedTask <;> rfl
  | descheduleTask task =>
    have hsched : task ∈ σ.scheduled := hI.tasks.mem_scheduled task (.inl hv.1)
    have hcall := descheduleTask_ofTable hr.taskId σ.machine
      hI.tasks.table (requests_of_live hsched hv.2)
      ((hI.tasks.started_iff task hsched hv.2).mp (.inl hv.1))
      (fun u hu => mem_live.mpr (live_of_requests hu))
      (by have := hI.counts.total_le; omega)
    simp only [call, ofTable, hcall, callTable]
    cases σ.machine.retire (releaseAll shared task task.lockContexts tbl).2 <;> rfl

lemma Inv.ofTable (capability : Capability) :
    (σ.ofTable capability tbl).Inv rank maxRunningTaskCount tbl :=
  ⟨{ hI.tasks with }, { hI.counts with }⟩

end

/-- What a call adds to the tasks that were passed in. -/
lemma call_scheduled (h : σ.call c = .ok (result, σ')) :
    σ'.scheduled = σ.scheduled ++ c.arrivals := by
  cases c <;>
  · obtain ⟨_, -, h⟩ := bind_eq_ok.mp h
    cases h
    simp [Call.arrivals]

/-- The session of a fresh machine. -/
lemma inv_new (rank : Task Q → ℕ) (capability : Capability) (maxRunningTaskCount : ℕ) :
    (new capability maxRunningTaskCount : Session Q).Inv rank maxRunningTaskCount empty := by
  refine ⟨⟨?_, ?_, ?_, ?_, ?_, ?_, ?_⟩, ?_⟩
  · have hreq : (new capability maxRunningTaskCount : Session Q).requests = fun _ => [] := by
      funext t
      simp [requests, new]
    rw [hreq]
    exact inv_empty _
  all_goals first
    | constructor <;> simp [new, SchedulingStateMachine.new]
    | simp [new, SchedulingStateMachine.new, Started]

omit [DecidableEq Q] in
lemma new_ofTable (capability : Capability) (maxRunningTaskCount : ℕ) :
    (new capability maxRunningTaskCount : Session Q).ofTable capability empty =
      new capability maxRunningTaskCount := by
  have hqueue : ofCell capability (⟨[], []⟩ : Cell RequestedUsage (Task Q)) =
      UsageQueueInner.new capability := ofCell_eq_new.mpr rfl
  simp [new, ofTable, SchedulingStateMachine.ofTable, SchedulingStateMachine.new, empty, hqueue]

end Session

/-! ## Runs -/

section run
variable {maxRunningTaskCount : ℕ} {trace : List (Call Q × Option (Task Q))} {σ : Session Q}

omit [DecidableEq Q] in
lemma Ranked.of_append {l l' : List (Task Q)} (h : Ranked capability rank (l ++ l')) :
    Ranked capability rank l where
  arrival hc := (pairwise_append.mp (h.arrival hc)).1
  taskId := h.taskId

/-- A step of the machine from a session that represents a table is a step of the abstract
scheduler. -/
lemma Session.Inv.call_eq_ok {σ' : Session Q} {tbl : Table Q RequestedUsage (Task Q)} {c : Call Q}
    {result : Option (Task Q)} (hσ : σ = σ.ofTable capability tbl)
    (hI : σ.Inv rank maxRunningTaskCount tbl) (valid : σ.Valid c)
    (hr : Ranked capability rank (σ.scheduled ++ c.arrivals))
    (step : σ.call c = .ok (result, σ')) :
    ∃ σ₁ tbl', σ.callTable rank tbl c = .ok (result, σ₁, tbl') ∧
      σ' = σ₁.ofTable capability tbl' := by
  have hcall := call_ofTable hI valid hr
  rw [← hσ, step] at hcall
  cases htable : σ.callTable rank tbl c with
  | error e =>
    rw [htable] at hcall
    cases hcall
  | ok r =>
    obtain ⟨result', σ₁, tbl'⟩ := r
    rw [htable] at hcall
    cases hcall
    exact ⟨σ₁, tbl', rfl, rfl⟩

/-- **Every reachable session represents a lock table with which it satisfies the invariant.** -/
theorem Run.inv (h : Run capability maxRunningTaskCount trace σ)
    (hr : Ranked capability rank σ.scheduled) :
    ∃ tbl, σ = σ.ofTable capability tbl ∧ σ.Inv rank maxRunningTaskCount tbl := by
  induction h with
  | nil => exact ⟨empty, (new_ofTable _ _).symm, inv_new _ _ _⟩
  | @snoc trace σ σ' c result run valid step ih =>
    rw [call_scheduled step] at hr
    obtain ⟨tbl, hσ, hI⟩ := ih hr.of_append
    obtain ⟨σ₁, tbl', htable, rfl⟩ := hI.call_eq_ok hσ valid hr step
    have hI' := hI.callTable valid (fun t ht u hu => rank_ne_of_valid valid hr ht hu) htable
    exact ⟨tbl', rfl, hI'.ofTable capability⟩

omit [DecidableEq Q] in
/-- The ids stay distinct when a valid call passes in a task. -/
lemma Session.nodup_append_arrivals {c : Call Q} (hv : σ.Valid c)
    (hnd : (σ.scheduled.map taskId).Nodup) :
    ((σ.scheduled ++ c.arrivals).map taskId).Nodup := by
  cases c with
  | scheduleOrBufferTask task forceBuffering =>
    rw [map_append]
    exact hnd.append (nodup_singleton _) (disjoint_singleton.mpr hv)
  | scheduleNextUnblockedTask => simpa [Call.arrivals] using hnd
  | descheduleTask task => simpa [Call.arrivals] using hnd

/-- Task ids are distinct along a run. -/
lemma Run.nodup_taskId (h : Run capability maxRunningTaskCount trace σ) :
    (σ.scheduled.map taskId).Nodup := by
  induction h with
  | nil => exact nodup_nil
  | @snoc trace σ σ' c result run valid step ih =>
    rw [call_scheduled step]
    exact nodup_append_arrivals valid ih

/-- The rank of the tasks of a session: their place in the order of arrival, or their id. -/
def arrivalRank (capability : Capability) (scheduled : List (Task Q)) : Task Q → ℕ :=
  match capability with
  | .fifoQueueing => fun t => scheduled.idxOf t
  | .priorityQueueing => taskId

lemma ranked_arrivalRank (capability : Capability) {scheduled : List (Task Q)}
    (hnd : scheduled.Nodup) : Ranked capability (arrivalRank capability scheduled) scheduled where
  arrival hc := by
    subst hc
    rw [pairwise_iff_getElem]
    intro i j hi hj hij
    simp only [arrivalRank, hnd.idxOf_getElem]
    exact hij
  taskId hc := by
    subst hc
    rfl

/-- The invariant of a run, ranked by arrival or by id. -/
theorem Run.inv_arrivalRank (h : Run capability maxRunningTaskCount trace σ) :
    ∃ tbl, σ = σ.ofTable capability tbl ∧
      σ.Inv (arrivalRank capability σ.scheduled) maxRunningTaskCount tbl :=
  h.inv (ranked_arrivalRank capability h.nodup_taskId.of_map)

end run
end Trezoa.UnifiedScheduler
