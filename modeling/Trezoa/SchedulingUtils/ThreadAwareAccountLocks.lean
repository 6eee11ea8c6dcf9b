import Trezoa.Lib.Fallible
import Trezoa.Lib.OrdMap

/-!
# Thread-aware account locks

`scheduling-utils/src/thread_aware_account_locks.rs`: locks on accounts that remember which threads
hold them, so that transactions can be queued on a thread behind conflicting ones.

The number of threads is positive and at most 64, as `new` asserts.
-/

namespace Trezoa.SchedulingUtils

open Lib

/-- The largest number of threads. -/
def maxThreads : ℕ := 64

/-! ## Sets of threads -/

/-- A bit set of threads. -/
structure ThreadSet where
  bits : BitVec 64
deriving DecidableEq

namespace ThreadSet

/-- The flag of a thread. -/
def asFlag (threadId : ℕ) : BitVec 64 := 1#64 <<< threadId

/-- No thread. -/
def none : ThreadSet := ⟨0⟩

/-- The first threads. -/
def any (numThreads : ℕ) : ThreadSet :=
  if numThreads = maxThreads then ⟨BitVec.allOnes 64⟩ else ⟨asFlag numThreads - 1⟩

/-- One thread. -/
def only (threadId : ℕ) : ThreadSet := ⟨asFlag threadId⟩

/-- Whether the thread is in the set. -/
def contains (s : ThreadSet) (threadId : ℕ) : Bool := s.bits &&& asFlag threadId ≠ 0

/-- The positions of the bits that are set. -/
def ones (s : ThreadSet) : List ℕ := (List.range maxThreads).filter s.bits.getLsbD

/-- The number of threads in the set. -/
def numThreads (s : ThreadSet) : ℕ := s.ones.length

/-- The number of zeros before the first bit that is set. -/
def trailingZeros (s : ThreadSet) : ℕ := s.ones.headD maxThreads

/-- The only thread in the set, if there is just one. -/
def onlyOneContained (s : ThreadSet) : Option ℕ :=
  if s.numThreads = 1 then some s.trailingZeros else Option.none

/-- Whether there is no thread in the set. -/
def isEmpty (s : ThreadSet) : Bool := s = none

/-- The set with a thread. -/
def insert (s : ThreadSet) (threadId : ℕ) : ThreadSet := ⟨s.bits ||| asFlag threadId⟩

/-- The set without a thread. -/
def remove (s : ThreadSet) (threadId : ℕ) : ThreadSet := ⟨s.bits &&& ~~~ asFlag threadId⟩

/-- The threads in both sets. -/
def bitand (s t : ThreadSet) : ThreadSet := ⟨s.bits &&& t.bits⟩

end ThreadSet

/-! ## Locks -/

/-- How a call can panic. -/
inductive Panic where
  /-- An assertion, or `panic!` where a lock must exist. -/
  | assertion
  /-- `unreachable!` -/
  | unreachable
deriving DecidableEq

/-- The number of values of a lock count. -/
def lockCountSize : ℕ := 2 ^ 32

/-- The write locks of an account: how many its only thread holds. -/
structure AccountWriteLocks where
  threadId : ℕ
  lockCount : ℕ

/-- The read locks of an account: how many each thread holds. -/
structure AccountReadLocks where
  threadSet : ThreadSet
  lockCounts : ℕ → ℕ

/-- The locks of an account. -/
structure AccountLocks where
  writeLocks : Option AccountWriteLocks
  readLocks : Option AccountReadLocks

/-- No locks. -/
def AccountLocks.default : AccountLocks := ⟨none, none⟩

/-- The locks of an account with one more write lock of a thread. -/
def AccountLocks.writeLock (entry : AccountLocks) (threadId : ℕ) : Except Panic AccountLocks :=
  if entry.readLocks.any fun readLocks => readLocks.threadSet.onlyOneContained ≠ some threadId then
    .error .assertion
  else match entry.writeLocks with
    | none => .ok { entry with writeLocks := some ⟨threadId, 1⟩ }
    | some writeLocks =>
      if writeLocks.threadId ≠ threadId then .error .assertion
      else .ok { entry with
        writeLocks := some ⟨threadId, (writeLocks.lockCount + 1) % lockCountSize⟩ }

/-- The locks of an account with one more read lock of a thread. -/
def AccountLocks.readLock (entry : AccountLocks) (threadId : ℕ) : Except Panic AccountLocks :=
  if entry.writeLocks.any fun writeLocks => writeLocks.threadId ≠ threadId then .error .assertion
  else match entry.readLocks with
    | some readLocks => .ok { entry with
        readLocks := some ⟨readLocks.threadSet.insert threadId,
          Function.update readLocks.lockCounts threadId
            ((readLocks.lockCounts threadId + 1) % lockCountSize)⟩ }
    | none => .ok { entry with
        readLocks := some ⟨.only threadId, Function.update (fun _ => 0) threadId 1⟩ }

/-- The locks of an account with one write lock of a thread less, or `none` without any locks. -/
def AccountLocks.writeUnlock (entry : AccountLocks) (threadId : ℕ) :
    Except Panic (Option AccountLocks) :=
  match entry.writeLocks with
  | none => .error .assertion
  | some writeLocks =>
    if writeLocks.threadId ≠ threadId then .error .assertion
    else
      let lockCount := (writeLocks.lockCount + (lockCountSize - 1)) % lockCountSize
      if lockCount = 0 then
        if entry.readLocks.isNone then .ok none else .ok (some { entry with writeLocks := none })
      else .ok (some { entry with writeLocks := some ⟨threadId, lockCount⟩ })

/-- The locks of an account with one read lock of a thread less, or `none` without any locks. -/
def AccountLocks.readUnlock (entry : AccountLocks) (threadId : ℕ) :
    Except Panic (Option AccountLocks) :=
  match entry.readLocks with
  | none => .error .assertion
  | some readLocks =>
    if !readLocks.threadSet.contains threadId then .error .assertion
    else
      let lockCount := (readLocks.lockCounts threadId + (lockCountSize - 1)) % lockCountSize
      let lockCounts := Function.update readLocks.lockCounts threadId lockCount
      if lockCount = 0 then
        let threadSet := readLocks.threadSet.remove threadId
        if threadSet.isEmpty then
          if entry.writeLocks.isNone then .ok none
          else .ok (some { entry with readLocks := none })
        else .ok (some { entry with readLocks := some ⟨threadSet, lockCounts⟩ })
      else .ok (some { entry with readLocks := some ⟨readLocks.threadSet, lockCounts⟩ })

/-- Why accounts cannot be locked. -/
inductive TryLockError where
  | multipleConflicts
  | threadNotAllowed
deriving DecidableEq

/-- The locks of all accounts; an account has an entry if there is at least one lock. -/
structure ThreadAwareAccountLocks where
  numThreads : ℕ
  locks : OrdMap ℕ AccountLocks

namespace ThreadAwareAccountLocks

/-- No locks. -/
def new (numThreads : ℕ) : Except Panic ThreadAwareAccountLocks :=
  if 0 < numThreads ∧ numThreads ≤ maxThreads then .ok ⟨numThreads, ∅⟩ else .error .assertion

/-! ### Which threads can take an account -/

/-- The threads that can take an account for writing or for reading. -/
def schedulableThreads (l : ThreadAwareAccountLocks) (write : Bool) (account : ℕ) :
    Except Panic ThreadSet :=
  match l.locks[account]? with
  | none => .ok (.any l.numThreads)
  | some ⟨none, some readLocks⟩ =>
    if write then .ok ((readLocks.threadSet.onlyOneContained.map .only).getD .none)
    else .ok (.any l.numThreads)
  | some ⟨some writeLocks, none⟩ => .ok (.only writeLocks.threadId)
  | some ⟨some writeLocks, some readLocks⟩ =>
    if readLocks.threadSet.onlyOneContained = some writeLocks.threadId then
      .ok readLocks.threadSet
    else .error .assertion
  | some ⟨none, none⟩ => .error .unreachable

/-- The threads that can take one more account; `none` once there are no such threads. -/
def narrowThreads (l : ThreadAwareAccountLocks) (write : Bool) (threads : Option ThreadSet)
    (account : ℕ) : Except Panic (Option ThreadSet) :=
  match threads with
  | none => .ok none
  | some threads => (l.schedulableThreads write account).map fun schedulable =>
    if (threads.bitand schedulable).isEmpty then none else some (threads.bitand schedulable)

/-- The threads that can take all the accounts, if there are any. -/
def accountsSchedulableThreads (l : ThreadAwareAccountLocks) (writes reads : List ℕ) :
    Except Panic (Option ThreadSet) := do
  let threads ← writes.foldlM (l.narrowThreads true) (some (.any l.numThreads))
  reads.foldlM (l.narrowThreads false) threads

/-! ### Locking -/

/-- The table with the locks of an account changed. -/
def lockAccount (lock : AccountLocks → ℕ → Except Panic AccountLocks) (threadId : ℕ)
    (l : ThreadAwareAccountLocks) (account : ℕ) : Except Panic ThreadAwareAccountLocks :=
  (lock (l.locks[account]?.getD .default) threadId).map fun entry =>
    { l with locks := l.locks.insert account entry }

/-- Locks an account for writing. -/
def writeLockAccount : ℕ → ThreadAwareAccountLocks → ℕ → Except Panic ThreadAwareAccountLocks :=
  lockAccount AccountLocks.writeLock

/-- Locks an account for reading. -/
def readLockAccount : ℕ → ThreadAwareAccountLocks → ℕ → Except Panic ThreadAwareAccountLocks :=
  lockAccount AccountLocks.readLock

/-- Locks the accounts for a thread. -/
def lockAccounts (l : ThreadAwareAccountLocks) (writes reads : List ℕ) (threadId : ℕ) :
    Except Panic ThreadAwareAccountLocks :=
  if threadId < l.numThreads then do
    let l ← writes.foldlM (writeLockAccount threadId) l
    reads.foldlM (readLockAccount threadId) l
  else .error .assertion

/-- Locks the accounts for a thread that the selector chooses among the allowed ones that can take
them. -/
def tryLockAccounts (l : ThreadAwareAccountLocks) (writes reads : List ℕ) (allowed : ThreadSet)
    (selector : ThreadSet → ℕ) : Except Panic (Except TryLockError ℕ × ThreadAwareAccountLocks) :=
    do
  match ← l.accountsSchedulableThreads writes reads with
  | none => return (.error .multipleConflicts, l)
  | some schedulable =>
    if (schedulable.bitand allowed).isEmpty then return (.error .threadNotAllowed, l)
    else
      let threadId := selector (schedulable.bitand allowed)
      return (.ok threadId, ← l.lockAccounts writes reads threadId)

/-! ### Unlocking -/

/-- The table with the locks of an account that has some changed. -/
def unlockAccount (unlock : AccountLocks → ℕ → Except Panic (Option AccountLocks)) (threadId : ℕ)
    (l : ThreadAwareAccountLocks) (account : ℕ) : Except Panic ThreadAwareAccountLocks :=
  match l.locks[account]? with
  | none => .error .assertion
  | some entry => (unlock entry threadId).map fun entry =>
    match entry with
    | none => { l with locks := l.locks.erase account }
    | some entry => { l with locks := l.locks.insert account entry }

/-- Unlocks an account for writing. -/
def writeUnlockAccount : ℕ → ThreadAwareAccountLocks → ℕ → Except Panic ThreadAwareAccountLocks :=
  unlockAccount AccountLocks.writeUnlock

/-- Unlocks an account for reading. -/
def readUnlockAccount : ℕ → ThreadAwareAccountLocks → ℕ → Except Panic ThreadAwareAccountLocks :=
  unlockAccount AccountLocks.readUnlock

/-- Unlocks the accounts for a thread. -/
def unlockAccounts (l : ThreadAwareAccountLocks) (writes reads : List ℕ) (threadId : ℕ) :
    Except Panic ThreadAwareAccountLocks := do
  let l ← writes.foldlM (writeUnlockAccount threadId) l
  reads.foldlM (readUnlockAccount threadId) l

end ThreadAwareAccountLocks
end Trezoa.SchedulingUtils
