import Trezoa.UnifiedScheduler.UsageQueue

/-!
# The scheduling state machine of the unified scheduler

`unified-scheduler-logic/src/lib.rs`: `SchedulingStateMachine` with its public operations, and the
sessions in which they are called.

* `scheduleOrBufferTask`, `scheduleNextUnblockedTask`, `descheduleTask`: the operations of a run;
  `tryLockUsageQueues` and `unlockUsageQueues` are their loops over the lock contexts of a task.
-/

namespace Trezoa.UnifiedScheduler

open ShortCounter

variable {Q : Type} [DecidableEq Q]

/-- `SchedulingStateMachine`. The cells behind its two tokens are fields. -/
structure SchedulingStateMachine (Q : Type) where
  unblockedTaskQueue : List (Task Q)
  activeTaskCount : ℕ
  runningTaskCount : ℕ
  maxRunningTaskCount : ℕ
  handledTaskCount : ℕ
  unblockedTaskCount : ℕ
  totalTaskCount : ℕ
  /-- The cells of `count_token`. -/
  blockedUsageCounts : BlockedUsageCounts Q
  /-- The cells of `usage_queue_token`. -/
  usageQueues : Q → UsageQueueInner Q

namespace SchedulingStateMachine

/-- `exclusively_initialize_current_thread_for_scheduling`, with fresh usage queues and tasks. -/
def new (capability : Capability) (maxRunningTaskCount : ℕ) : SchedulingStateMachine Q where
  unblockedTaskQueue := []
  activeTaskCount := 0
  runningTaskCount := 0
  maxRunningTaskCount := maxRunningTaskCount
  handledTaskCount := 0
  unblockedTaskCount := 0
  totalTaskCount := 0
  blockedUsageCounts := fun _ => 0
  usageQueues := fun _ => UsageQueueInner.new capability

def isTaskRunnable (self : SchedulingStateMachine Q) : Bool :=
  decide (self.runningTaskCount < self.maxRunningTaskCount)

/-- The body of the loop of `try_lock_usage_queues`: `blockedUsageCount` is the local counter. -/
def lockUsageQueue (task : Task Q) (acc : ℕ × SchedulingStateMachine Q)
    (context : LockContext Q) : Except Panic (ℕ × SchedulingStateMachine Q) := do
  let (blockedUsageCount, self) := acc
  let (lockResult, usageQueue, counts) ←
    (self.usageQueues context.1).prepareLock self.blockedUsageCounts task context.2
  let (lockResult, usageQueue) ←
    match lockResult with
    | .ok => usageQueue.tryLock task context.2
    | .err => .ok (.err, usageQueue)
  match lockResult with
  | .ok =>
    .ok (blockedUsageCount,
      { self with
        blockedUsageCounts := counts
        usageQueues := Function.update self.usageQueues context.1 usageQueue })
  | .err => do
    let blockedUsageCount ← increment blockedUsageCount
    let usageQueue ← usageQueue.pushBlocked (context.2, task)
    .ok (blockedUsageCount,
      { self with
        blockedUsageCounts := counts
        usageQueues := Function.update self.usageQueues context.1 usageQueue })

def tryLockUsageQueues (self : SchedulingStateMachine Q) (task : Task Q) :
    Except Panic (Option (Task Q) × SchedulingStateMachine Q) := do
  let (blockedUsageCount, self) ← task.lockContexts.foldlM (lockUsageQueue task) (0, self)
  if blockedUsageCount = 0 then
    .ok (some task, self)
  else
    .ok (none,
      { self with
        blockedUsageCounts := task.setBlockedUsageCount self.blockedUsageCounts blockedUsageCount })

/-- The `while let` loop of `unlock_usage_queues` on one usage queue. -/
def lockNewlyLockable : ℕ → Option (UsageFromTask Q) → UsageQueueInner Q → BlockedUsageCounts Q →
    List (Task Q) → Except Panic (UsageQueueInner Q × BlockedUsageCounts Q × List (Task Q))
  | _, none, usageQueue, counts, unblockedTaskQueue => .ok (usageQueue, counts, unblockedTaskQueue)
  | 0, some _, _, _, _ => .error .outOfFuel
  | fuel + 1, some (lockableUsage, lockableTask), usageQueue, counts, unblockedTaskQueue => do
    let (lockResult, usageQueue) ← usageQueue.tryLock lockableTask lockableUsage
    match lockResult with
    | .err => .error .unwrap
    | .ok => do
      let (unblockedTask, counts) ← lockableTask.tryUnblock counts
      let unblockedTaskQueue := unblockedTaskQueue ++ unblockedTask.toList
      let (newlyLockable, usageQueue) ←
        match lockableUsage with
        | .readonly => usageQueue.popLockableReadonly
        | .writable => .ok (none, usageQueue)
      lockNewlyLockable fuel newlyLockable usageQueue counts unblockedTaskQueue

/-- The body of the loop of `unlock_usage_queues`. -/
def unlockUsageQueue (task : Task Q) (self : SchedulingStateMachine Q) (context : LockContext Q) :
    Except Panic (SchedulingStateMachine Q) := do
  let (newlyLockable, usageQueue) ← (self.usageQueues context.1).unlock task context.2
  let (usageQueue, counts, unblockedTaskQueue) ←
    lockNewlyLockable (usageQueue.blockedUsagesFromTasks.length + 1) newlyLockable usageQueue
      self.blockedUsageCounts self.unblockedTaskQueue
  .ok { self with
    unblockedTaskQueue := unblockedTaskQueue
    blockedUsageCounts := counts
    usageQueues := Function.update self.usageQueues context.1 usageQueue }

def unlockUsageQueues (self : SchedulingStateMachine Q) (task : Task Q) :
    Except Panic (SchedulingStateMachine Q) :=
  task.lockContexts.foldlM (unlockUsageQueue task) self

/-- The closure of `schedule_or_buffer_task` that runs on a task with all its locks. -/
def runOrBufferTask (self : SchedulingStateMachine Q) (task : Task Q) (forceBuffering : Bool) :
    Except Panic (Option (Task Q) × SchedulingStateMachine Q) :=
  if !self.isTaskRunnable || forceBuffering then do
    let unblockedTaskCount ← increment self.unblockedTaskCount
    .ok (none,
      { self with
        unblockedTaskCount := unblockedTaskCount
        unblockedTaskQueue := self.unblockedTaskQueue ++ [task] })
  else do
    let runningTaskCount ← increment self.runningTaskCount
    .ok (some task, { self with runningTaskCount := runningTaskCount })

def scheduleOrBufferTask (self : SchedulingStateMachine Q) (task : Task Q)
    (forceBuffering : Bool) : Except Panic (Option (Task Q) × SchedulingStateMachine Q) := do
  let totalTaskCount ← increment self.totalTaskCount
  let activeTaskCount ← increment self.activeTaskCount
  let (locked, self) ← tryLockUsageQueues
    { self with totalTaskCount := totalTaskCount, activeTaskCount := activeTaskCount } task
  match locked with
  | none => .ok (none, self)
  | some task => self.runOrBufferTask task forceBuffering

def scheduleNextUnblockedTask (self : SchedulingStateMachine Q) :
    Except Panic (Option (Task Q) × SchedulingStateMachine Q) :=
  if !self.isTaskRunnable then .ok (none, self)
  else
    match self.unblockedTaskQueue with
    | [] => .ok (none, self)
    | task :: unblockedTaskQueue => do
      let runningTaskCount ← increment self.runningTaskCount
      let unblockedTaskCount ← increment self.unblockedTaskCount
      .ok (some task,
        { self with
          unblockedTaskQueue := unblockedTaskQueue
          runningTaskCount := runningTaskCount
          unblockedTaskCount := unblockedTaskCount })

def descheduleTask (self : SchedulingStateMachine Q) (task : Task Q) :
    Except Panic (SchedulingStateMachine Q) := do
  let runningTaskCount ← decrement self.runningTaskCount
  let activeTaskCount ← decrement self.activeTaskCount
  let handledTaskCount ← increment self.handledTaskCount
  unlockUsageQueues
    { self with
      runningTaskCount := runningTaskCount
      activeTaskCount := activeTaskCount
      handledTaskCount := handledTaskCount } task

def reinitialize (self : SchedulingStateMachine Q) : Except Panic (SchedulingStateMachine Q) :=
  if self.activeTaskCount ≠ 0 then .error .assertion
  else if self.runningTaskCount ≠ 0 then .error .assertion
  else if self.unblockedTaskQueue.length ≠ 0 then .error .assertion
  else .ok { self with
    activeTaskCount := 0
    handledTaskCount := 0
    unblockedTaskCount := 0
    totalTaskCount := 0 }

/-- The `while let` loop of `clear_and_reinitialize`. -/
def clearTasks : ℕ → ℕ → SchedulingStateMachine Q →
    Except Panic (ℕ × SchedulingStateMachine Q)
  | 0, _, _ => .error .outOfFuel
  | fuel + 1, count, self => do
    let (next, self) ← self.scheduleNextUnblockedTask
    match next with
    | none => .ok (count, self)
    | some task => do
      let self ← self.descheduleTask task
      let count ← increment count
      clearTasks fuel count self

/-- `clear_and_reinitialize`, its loop going round at most `fuel` times. -/
def clearAndReinitialize (fuel : ℕ) (self : SchedulingStateMachine Q) :
    Except Panic (ℕ × SchedulingStateMachine Q) := do
  let (count, self) ← clearTasks fuel 0 self
  let self ← reinitialize self
  .ok (count, self)

end SchedulingStateMachine

/-! ## Sessions -/

/-- The calls of a run. -/
inductive Call (Q : Type)
  | scheduleOrBufferTask (task : Task Q) (forceBuffering : Bool)
  | scheduleNextUnblockedTask
  | descheduleTask (task : Task Q)

/-- A machine and what its callers have seen of it. -/
structure Session (Q : Type) where
  /-- The machine. -/
  machine : SchedulingStateMachine Q
  /-- The tasks passed to `schedule_or_buffer_task`, in order. -/
  scheduled : List (Task Q)
  /-- The tasks that were returned, in order. -/
  returned : List (Task Q)
  /-- The tasks that were descheduled, in order. -/
  descheduled : List (Task Q)

namespace Session

/-- A fresh machine on which nothing was called. -/
def new (capability : Capability) (maxRunningTaskCount : ℕ) : Session Q where
  machine := .new capability maxRunningTaskCount
  scheduled := []
  returned := []
  descheduled := []

/-- One call: what it returns and the session after it. -/
def call (σ : Session Q) : Call Q → Except Panic (Option (Task Q) × Session Q)
  | .scheduleOrBufferTask task forceBuffering => do
    let (result, machine) ← σ.machine.scheduleOrBufferTask task forceBuffering
    .ok (result,
      { σ with
        machine := machine
        scheduled := σ.scheduled ++ [task]
        returned := σ.returned ++ result.toList })
  | .scheduleNextUnblockedTask => do
    let (result, machine) ← σ.machine.scheduleNextUnblockedTask
    .ok (result, { σ with machine := machine, returned := σ.returned ++ result.toList })
  | .descheduleTask task => do
    let machine ← σ.machine.descheduleTask task
    .ok (none, { σ with machine := machine, descheduled := σ.descheduled ++ [task] })

/-- The contract of the callers: task ids are not used twice, and a task is descheduled at most
once and only after it was returned. -/
def Valid (σ : Session Q) : Call Q → Prop
  | .scheduleOrBufferTask task _ => task.taskId ∉ σ.scheduled.map Task.taskId
  | .scheduleNextUnblockedTask => True
  | .descheduleTask task => task ∈ σ.returned ∧ task ∉ σ.descheduled

instance (σ : Session Q) : (c : Call Q) → Decidable (σ.Valid c)
  | .scheduleOrBufferTask task _ =>
    inferInstanceAs (Decidable (task.taskId ∉ σ.scheduled.map Task.taskId))
  | .scheduleNextUnblockedTask => inferInstanceAs (Decidable True)
  | .descheduleTask task => inferInstanceAs (Decidable (task ∈ σ.returned ∧ task ∉ σ.descheduled))

end Session

/-- The sessions that calls within the contract reach from a fresh machine, with the trace of the
calls and of what each of them returned. -/
inductive Run (capability : Capability) (maxRunningTaskCount : ℕ) :
    List (Call Q × Option (Task Q)) → Session Q → Prop
  | nil : Run capability maxRunningTaskCount [] (.new capability maxRunningTaskCount)
  | snoc {trace : List (Call Q × Option (Task Q))} {σ σ' : Session Q} {c : Call Q}
      {result : Option (Task Q)} (run : Run capability maxRunningTaskCount trace σ)
      (valid : σ.Valid c) (step : σ.call c = .ok (result, σ')) :
      Run capability maxRunningTaskCount (trace ++ [(c, result)]) σ'

end Trezoa.UnifiedScheduler
