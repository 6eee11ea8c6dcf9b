import Trezoa.Lib.InsertBy

/-!
# Usage queues of the unified scheduler

`unified-scheduler-logic/src/lib.rs`: the per-address `UsageQueueInner` in its two variants, the
`Task`s that queue up in it, and the counters. Everything here is the code, function by function.

* **Cells.** `TaskInner::blocked_usage_count` and the contents of a `UsageQueue` are cells that
  only the owner of a token can reach. The model passes them explicitly: `BlockedUsageCounts` gives
  the counter of every task, and a usage queue is read from and written back to its address.
* **Collections.** A `VecDeque` is a list with its front first. A `BTreeMap` keyed by task id is
  the list of its values in ascending key order; the key of every value is its own task id.
* **Panics.** Every `unwrap`, `unreachable!`, `assert!` and `panic!` site returns a `Panic`.
-/

namespace Trezoa.UnifiedScheduler

open Lib

/-! ## Panics and counters -/

/-- The kinds of sites at which the scheduler panics. -/
inductive Panic
  /-- `ShortCounter::increment` past `u32::MAX`. -/
  | counterOverflow
  /-- `ShortCounter::decrement` below zero. -/
  | counterUnderflow
  /-- `TaskInner::is_higher_priority` on equal task ids. -/
  | selfComparison
  /-- `unwrap_none()` on an entry that was occupied. -/
  | unwrapNone
  /-- `unwrap()` on `None` or `Err`. -/
  | unwrap
  /-- `unreachable!()`, or the bare `panic!()` of `take_writable`. -/
  | unreachable
  /-- `assert!` and its variants. -/
  | assertion
  /-- The bound of a modelled loop; no loop of the code reaches it. -/
  | outOfFuel
  deriving DecidableEq, Repr

/-- `CounterInner::MAX`, the largest `u32`. -/
def counterInnerMax : ℕ := 2 ^ 32 - 1

/-- `ShortCounter::increment`: a `ShortCounter` is a `u32` behind checked arithmetic. -/
def ShortCounter.increment (c : ℕ) : Except Panic ℕ :=
  if c < counterInnerMax then .ok (c + 1) else .error .counterOverflow

def ShortCounter.decrement (c : ℕ) : Except Panic ℕ :=
  if c = 0 then .error .counterUnderflow else .ok (c - 1)

/-! ## Tasks -/

inductive Capability
  | fifoQueueing
  | priorityQueueing
  deriving DecidableEq, Repr

inductive RequestedUsage
  | readonly
  | writable
  deriving DecidableEq, Repr

/-- `LockContext`: the address of a usage queue and how it is to be used. -/
abbrev LockContext (Q : Type) := Q × RequestedUsage

/-- `TaskInner`, without the transaction it carries along. `do_create_task` asks for tasks that
passed `validate_account_locks()`: no address is loaded twice and there are not too many of them. -/
structure Task (Q : Type) where
  /-- `task_id`, an `OrderedTaskId`: a `u128` that is only compared. -/
  taskId : ℕ
  lockContexts : List (LockContext Q)
  /-- Not `AccountLoadedTwice`. -/
  distinct : (lockContexts.map Prod.fst).Nodup
  /-- Not `TooManyAccountLocks`: the contexts can be counted by a `u32`. -/
  countable : lockContexts.length ≤ counterInnerMax
  deriving DecidableEq

instance lawfulBEqTask {Q : Type} [DecidableEq Q] : LawfulBEq (Task Q) := inferInstance

section
variable {Q : Type} [DecidableEq Q]

/-- The `blocked_usage_count` of every task. -/
abbrev BlockedUsageCounts (Q : Type) := Task Q → ℕ

namespace Task

def isHigherPriority (self other : Task Q) : Except Panic Bool :=
  if self.taskId < other.taskId then .ok true
  else if other.taskId < self.taskId then .ok false
  else .error .selfComparison

def setBlockedUsageCount (self : Task Q) (token : BlockedUsageCounts Q) (count : ℕ) :
    BlockedUsageCounts Q :=
  Function.update token self count

/-- `TaskInner::try_unblock`: count one blocked usage less, and say whether it was the last. -/
def tryUnblock (self : Task Q) (token : BlockedUsageCounts Q) :
    Except Panic (Option (Task Q) × BlockedUsageCounts Q) := do
  let usageCount ← ShortCounter.decrement (token self)
  .ok (if usageCount = 0 then some self else none, Function.update token self usageCount)

/-- `TaskInner::try_reblock`: count one blocked usage more, unless the task may be running. -/
def tryReblock (self : Task Q) (token : BlockedUsageCounts Q) :
    Except Panic (Bool × BlockedUsageCounts Q) :=
  if token self = 0 then .ok (false, token)
  else do
    let usageCount ← ShortCounter.increment (token self)
    .ok (true, Function.update token self usageCount)

end Task

/-! ## Usages -/

/-- `Usage<R, W>`. -/
inductive Usage (R W : Type)
  | readonly (r : R)
  | writable (w : W)
  deriving DecidableEq

def Usage.requestedUsage {R W : Type} : Usage R W → RequestedUsage
  | .readonly _ => .readonly
  | .writable _ => .writable

/-- `FifoUsage`: only how many tasks read. -/
abbrev FifoUsage := Usage ℕ Unit

/-- `PriorityUsage`: which tasks use the address, the readers in a `BTreeMap`. -/
abbrev PriorityUsage (Q : Type) := Usage (List (Task Q)) (Task Q)

def FifoUsage.from : RequestedUsage → FifoUsage
  | .readonly => .readonly 1
  | .writable => .writable ()

def PriorityUsage.from (task : Task Q) : RequestedUsage → PriorityUsage Q
  | .readonly => .readonly [task]
  | .writable => .writable task

abbrev UsageFromTask (Q : Type) := RequestedUsage × Task Q

/-- `BTreeMap::insert(task_id, task).unwrap_none()` on the current readers. -/
def insertTask (tasks : List (Task Q)) (task : Task Q) : Except Panic (List (Task Q)) :=
  if tasks.any fun t => t.taskId = task.taskId then .error .unwrapNone
  else .ok (insertBy Task.taskId task tasks)

/-- `BTreeMap::remove(&task_id).unwrap()` on the current readers. -/
def removeTask (tasks : List (Task Q)) (taskId : ℕ) :
    Except Panic (Task Q × List (Task Q)) :=
  match tasks.find? fun t => t.taskId = taskId with
  | none => .error .unwrap
  | some task => .ok (task, tasks.filter fun t => t.taskId ≠ taskId)

def insertUsageFromTask (usages : List (UsageFromTask Q)) (usage : UsageFromTask Q) :
    Except Panic (List (UsageFromTask Q)) :=
  if usages.any fun u => u.2.taskId = usage.2.taskId then .error .unwrapNone
  else .ok (insertBy (fun u => u.2.taskId) usage usages)

/-! ## `UsageQueueInner` -/

inductive LockResult
  | ok
  | err
  deriving DecidableEq, Repr

inductive UsageQueueInner (Q : Type)
  | fifo (currentUsage : Option FifoUsage) (blockedUsagesFromTasks : List (UsageFromTask Q))
  | priority (currentUsage : Option (PriorityUsage Q))
      (blockedUsagesFromTasks : List (UsageFromTask Q))
  deriving DecidableEq

namespace UsageQueueInner

def new : Capability → UsageQueueInner Q
  | .fifoQueueing => .fifo none []
  | .priorityQueueing => .priority none []

/-- The field `blocked_usages_from_tasks` of either variant. -/
def blockedUsagesFromTasks : UsageQueueInner Q → List (UsageFromTask Q)
  | .fifo _ blocked => blocked
  | .priority _ blocked => blocked

def currentUsage : UsageQueueInner Q → Option RequestedUsage
  | .fifo current _ => current.map Usage.requestedUsage
  | .priority current _ => current.map Usage.requestedUsage

def tryLock (self : UsageQueueInner Q) (newTask : Task Q) (requestedUsage : RequestedUsage) :
    Except Panic (LockResult × UsageQueueInner Q) :=
  match self with
  | .fifo current blocked =>
    match current, requestedUsage with
    | none, _ => .ok (.ok, .fifo (some (FifoUsage.from requestedUsage)) blocked)
    | some (.readonly count), .readonly => do
      let count ← ShortCounter.increment count
      .ok (.ok, .fifo (some (.readonly count)) blocked)
    | some (.readonly _), .writable => .ok (.err, self)
    | some (.writable ()), _ => .ok (.err, self)
  | .priority current blocked =>
    match current, requestedUsage with
    | some (.readonly tasks), .readonly => do
      let tasks ← insertTask tasks newTask
      .ok (.ok, .priority (some (.readonly tasks)) blocked)
    | some (.readonly _), .writable => .ok (.err, self)
    | some (.writable _), _ => .ok (.err, self)
    | none, _ => .ok (.ok, .priority (some (PriorityUsage.from newTask requestedUsage)) blocked)

def pop : UsageQueueInner Q → Option (UsageFromTask Q) × UsageQueueInner Q
  | .fifo current blocked => (blocked.head?, .fifo current blocked.tail)
  | .priority current blocked => (blocked.head?, .priority current blocked.tail)

def push (self : UsageQueueInner Q) (usageFromTask : UsageFromTask Q) :
    Except Panic (UsageQueueInner Q) :=
  match self with
  | .fifo current blocked => .ok (.fifo current (blocked ++ [usageFromTask]))
  | .priority current blocked => do
    let blocked ← insertUsageFromTask blocked usageFromTask
    .ok (.priority current blocked)

def peekBlocked : UsageQueueInner Q → Option (UsageFromTask Q)
  | .fifo _ blocked => blocked.head?
  | .priority _ blocked => blocked.head?

def unlock (self : UsageQueueInner Q) (task : Task Q) (requestedUsage : RequestedUsage) :
    Except Panic (Option (UsageFromTask Q) × UsageQueueInner Q) :=
  match self with
  | .fifo current blocked =>
    match current, requestedUsage with
    | some (.readonly count), .readonly =>
      if count = 1 then .ok (pop (.fifo none blocked))
      else do
        let count ← ShortCounter.decrement count
        .ok (none, .fifo (some (.readonly count)) blocked)
    | some (.readonly _), .writable => .error .unreachable
    | some (.writable ()), .writable => .ok (pop (.fifo none blocked))
    | some (.writable ()), .readonly => .error .assertion
    | none, _ => .error .unreachable
  | .priority current blocked =>
    match current, requestedUsage with
    | some (.readonly tasks), .readonly => do
      let (_, tasks) ← removeTask tasks task.taskId
      if tasks.isEmpty then .ok (pop (.priority none blocked))
      else .ok (none, .priority (some (.readonly tasks)) blocked)
    | some (.readonly _), .writable => .error .unreachable
    | some (.writable _), .writable => .ok (pop (.priority none blocked))
    | some (.writable _), .readonly => .error .assertion
    | none, _ => .error .unreachable

def pushBlocked (self : UsageQueueInner Q) (usageFromTask : UsageFromTask Q) :
    Except Panic (UsageQueueInner Q) :=
  match self.currentUsage with
  | none => .error .assertion
  | some _ => self.push usageFromTask

def popLockableReadonly (self : UsageQueueInner Q) :
    Except Panic (Option (UsageFromTask Q) × UsageQueueInner Q) :=
  match self.peekBlocked with
  | some (.readonly, _) =>
    match self.currentUsage with
    | some .readonly => .ok self.pop
    | _ => .error .assertion
  | _ => .ok (none, self)

/-- The readers a write-requesting task reblocks:
`range(..).filter_map(|(&task_id, task)| task.try_reblock(token).then_some(task_id)).collect()`. -/
def reblockTasks (token : BlockedUsageCounts Q) :
    List (Task Q) → Except Panic (List ℕ × BlockedUsageCounts Q)
  | [] => .ok ([], token)
  | task :: tasks => do
    let (reblocked, token) ← task.tryReblock token
    let (taskIndexes, token) ← reblockTasks token tasks
    .ok (if reblocked then task.taskId :: taskIndexes else taskIndexes, token)

/-- The loop that moves the reblocked readers to `blocked_usages_from_tasks`. -/
def moveReblocked : List ℕ → List (Task Q) → List (UsageFromTask Q) →
    Except Panic (List (Task Q) × List (UsageFromTask Q))
  | [], tasks, blocked => .ok (tasks, blocked)
  | taskId :: taskIndexes, tasks, blocked => do
    let (reblockedTask, tasks) ← removeTask tasks taskId
    let blocked ← insertUsageFromTask blocked (.readonly, reblockedTask)
    moveReblocked taskIndexes tasks blocked

/-- `UsageQueueInner::prepare_lock`, where the reblocking of the priority variant happens. -/
def prepareLock (self : UsageQueueInner Q) (token : BlockedUsageCounts Q) (newTask : Task Q)
    (requestedUsage : RequestedUsage) :
    Except Panic (LockResult × UsageQueueInner Q × BlockedUsageCounts Q) :=
  match self with
  | .fifo _ blocked => if blocked.isEmpty then .ok (.ok, self, token) else .ok (.err, self, token)
  | .priority current blocked =>
    match current, requestedUsage with
    | none, _ => if blocked.isEmpty then .ok (.ok, self, token) else .error .assertion
    | some (.writable currentTask), _ => do
      if !(← newTask.isHigherPriority currentTask) then
        .ok (.err, self, token)
      else
        let (reblocked, token) ← currentTask.tryReblock token
        if !reblocked then
          .ok (.err, self, token)
        else
          let blocked ← insertUsageFromTask blocked (.writable, currentTask)
          .ok (.ok, .priority none blocked, token)
    | some (.readonly _), .readonly =>
      match self.peekBlocked with
      | none => .ok (.ok, self, token)
      | some (.readonly, _) => .error .assertion
      | some (.writable, peekedTask) => do
        if !(← newTask.isHigherPriority peekedTask) then
          .ok (.err, self, token)
        else
          .ok (.ok, self, token)
    | some (.readonly currentTasks), .writable => do
      let (taskIndexes, token) ←
        reblockTasks token (currentTasks.filter fun t => newTask.taskId ≤ t.taskId)
      let (currentTasks, blocked) ← moveReblocked taskIndexes currentTasks blocked
      if currentTasks.isEmpty then
        .ok (.ok, .priority none blocked, token)
      else
        .ok (.err, .priority (some (.readonly currentTasks)) blocked, token)

end UsageQueueInner
end
end Trezoa.UnifiedScheduler
