import Trezoa.Lib.Fallible
import Trezoa.Lib.MinMaxHeap
import Trezoa.Lib.Slab

/-!
# The container of buffered transactions

Models `core/src/banking_stage/transaction_scheduler/{transaction_priority_id, transaction_state,
transaction_state_container}.rs`.

The slab that gives out the ids is a parameter. That a buffer of bytes whose entry is vacant has no
other owner is not modelled: its last transaction was dropped with the entry.
-/

namespace Trezoa.BankingStage

open Lib

/-- Where the code panics. -/
inductive Panic where
  /-- `"transaction must exist"`, `"transaction state must exist"` -/
  | transactionMustExist
  /-- `"transaction is not pending"`, `"transaction not already pending"`, `"transaction is
  pending"` -/
  | transactionPending
  /-- `"queue is not empty"` -/
  | queueIsEmpty
  /-- The assertion that the slab has space. -/
  | slabCapacity
  /-- An index past the end. -/
  | indexOutOfBounds
  /-- A key that is removed from the slab and not in it. -/
  | invalidKey
  /-- Any other assertion. -/
  | assertion
deriving DecidableEq

/-! ## Ids and states -/

/-- An id tied with the priority of its transaction. -/
structure TransactionPriorityId where
  priority : ℕ
  id : ℕ
deriving DecidableEq

namespace TransactionPriorityId

/-- The fields, in the order they are compared in. -/
def key (p : TransactionPriorityId) : ℕ ×ₗ ℕ := toLex (p.priority, p.id)

lemma key_injective : Function.Injective key := by
  rintro ⟨priority, id⟩ ⟨priority', id'⟩ h
  cases h
  rfl

/-- A higher priority is greater, then a higher id. -/
instance : LinearOrder TransactionPriorityId := LinearOrder.lift' key key_injective

end TransactionPriorityId

/-- A buffered transaction. -/
structure TransactionState (Tx : Type) where
  transaction : Option Tx
  priority : ℕ
  cost : ℕ

namespace TransactionState

variable {Tx : Type}

/-- The state of a transaction that is received. -/
def new (transaction : Tx) (priority cost : ℕ) : TransactionState Tx :=
  ⟨some transaction, priority, cost⟩

/-- Takes the transaction out of the state. -/
def takeTransactionForScheduling (state : TransactionState Tx) :
    Except Panic (Tx × TransactionState Tx) :=
  match state.transaction with
  | some tx => .ok (tx, { state with transaction := none })
  | none => .error .transactionPending

/-- Puts the transaction back into the state. -/
def retryTransaction (state : TransactionState Tx) (transaction : Tx) :
    Except Panic (TransactionState Tx) :=
  if state.transaction.isNone then .ok { state with transaction := some transaction }
  else .error .transactionPending

/-- The transaction, which must not be taken out. -/
def getTransaction (state : TransactionState Tx) : Except Panic Tx :=
  match state.transaction with
  | some tx => .ok tx
  | none => .error .transactionPending

end TransactionState

/-! ## The container -/

/-- The space for transactions that were not checked yet. -/
def extraCapacity : ℕ := 64

/-- The buffered transactions. -/
structure TransactionStateContainer (A : SlabAllocator) (Tx : Type) where
  capacity : ℕ
  priorityQueue : MinMaxHeap TransactionPriorityId
  idToTransactionState : Slab A (TransactionState Tx)
  heldTransactions : List TransactionPriorityId

namespace TransactionStateContainer

variable {A : SlabAllocator} {Tx : Type}

/-- The empty container. -/
def withCapacity (capacity : ℕ) : TransactionStateContainer A Tx where
  capacity := capacity
  priorityQueue := .empty
  idToTransactionState := .withCapacity (capacity + extraCapacity)
  heldTransactions := []

/-- The number of transactions. -/
def bufferSize (c : TransactionStateContainer A Tx) : ℕ := c.idToTransactionState.len

/-- The id with the highest priority in the queue. -/
def pop (c : TransactionStateContainer A Tx) :
    Option (TransactionPriorityId × TransactionStateContainer A Tx) :=
  c.priorityQueue.popMax.map fun (id, queue) => (id, { c with priorityQueue := queue })

/-- The state of a transaction. -/
def getTransactionState (c : TransactionStateContainer A Tx) (id : ℕ) :
    Option (TransactionState Tx) := c.idToTransactionState.get id

/-- Writes the state of a transaction through `get_mut_transaction_state`. -/
def setTransactionState (c : TransactionStateContainer A Tx) (id : ℕ)
    (state : TransactionState Tx) :
    TransactionStateContainer A Tx :=
  { c with idToTransactionState := c.idToTransactionState.set id state }

/-- The transaction, if it is buffered; it must not be taken out then. -/
def getTransaction (c : TransactionStateContainer A Tx) (id : ℕ) : Except Panic (Option Tx) :=
  match c.idToTransactionState.get id with
  | none => .ok none
  | some state => state.getTransaction.map some

/-- Drops the transaction with the lowest priority in the queue. -/
def dropLowest (c : TransactionStateContainer A Tx) :
    Except Panic (TransactionStateContainer A Tx) :=
  match c.priorityQueue.popMin with
  | none => .error .queueIsEmpty
  | some (priorityId, queue) =>
    match c.idToTransactionState.remove priorityId.id with
    | none => .error .invalidKey
    | some states => .ok { c with priorityQueue := queue, idToTransactionState := states }

/-- Pushes ids into the queue; if there are too many transactions then, those with the lowest
priorities in the queue are dropped. Also returns how many. -/
def pushIdsIntoQueue (c : TransactionStateContainer A Tx)
    (priorityIds : List TransactionPriorityId) :
    Except Panic (ℕ × TransactionStateContainer A Tx) :=
  let c := { c with priorityQueue := c.priorityQueue.pushAll priorityIds }
  let numDropped := c.bufferSize - c.capacity
  ((List.range numDropped).foldlM (fun c _ => dropLowest c) c).map fun c => (numDropped, c)

/-- Holds a transaction until the next flush. -/
def holdTransaction (c : TransactionStateContainer A Tx) (priorityId : TransactionPriorityId) :
    TransactionStateContainer A Tx :=
  { c with heldTransactions := c.heldTransactions ++ [priorityId] }

/-- Removes a transaction. -/
def removeById (c : TransactionStateContainer A Tx) (id : ℕ) :
    Except Panic (TransactionStateContainer A Tx) :=
  match c.idToTransactionState.remove id with
  | none => .error .invalidKey
  | some states => .ok { c with idToTransactionState := states }

/-- Pushes all held transactions into the queue. -/
def flushHeldTransactions (c : TransactionStateContainer A Tx) :
    Except Panic (TransactionStateContainer A Tx) :=
  (({ c with heldTransactions := [] } : TransactionStateContainer A Tx).pushIdsIntoQueue
    c.heldTransactions).map Prod.snd

/-- Puts a transaction back that was taken out, into the queue or among the held ones. -/
def retryTransaction (c : TransactionStateContainer A Tx) (transactionId : ℕ) (transaction : Tx)
    (immediatelyRetryable : Bool) : Except Panic (TransactionStateContainer A Tx) :=
  match c.getTransactionState transactionId with
  | none => .error .transactionMustExist
  | some state => do
    let priorityId : TransactionPriorityId := ⟨state.priority, transactionId⟩
    let c := c.setTransactionState transactionId (← state.retryTransaction transaction)
    if immediatelyRetryable then (c.pushIdsIntoQueue [priorityId]).map Prod.snd
    else .ok (c.holdTransaction priorityId)

/-- The key of a transaction that is inserted. -/
def getVacantMapEntry (c : TransactionStateContainer A Tx) : Except Panic ℕ :=
  if c.idToTransactionState.len < c.idToTransactionState.capacity then
    .ok c.idToTransactionState.vacantKey
  else .error .slabCapacity

end TransactionStateContainer

/-- The container with a buffer of bytes for each id. -/
structure TransactionViewStateContainer (A : SlabAllocator) (Tx : Type) where
  inner : TransactionStateContainer A Tx
  bytesBuffer : List (List UInt8)

namespace TransactionViewStateContainer

variable {A : SlabAllocator} {Tx : Type}

/-- The empty container. -/
def withCapacity (capacity : ℕ) : TransactionViewStateContainer A Tx :=
  let inner : TransactionStateContainer A Tx := .withCapacity capacity
  ⟨inner, List.replicate inner.idToTransactionState.capacity []⟩

/-- Copies the data into the buffer of a vacant id, and inserts the transaction that is read from it
into the map only. -/
def tryInsertMapOnlyWithData (c : TransactionViewStateContainer A Tx) (data : List UInt8)
    (f : List UInt8 → Option (TransactionState Tx)) :
    Except Panic (Option ℕ × TransactionViewStateContainer A Tx) := do
  let transactionId ← c.inner.getVacantMapEntry
  if transactionId < c.bytesBuffer.length then
    let c := { c with bytesBuffer := c.bytesBuffer.set transactionId data }
    match f data with
    | some state => .ok (some transactionId, { c with inner := { c.inner with
        idToTransactionState := c.inner.idToTransactionState.insert state } })
    | none => .ok (none, c)
  else .error .indexOutOfBounds

end TransactionViewStateContainer
end Trezoa.BankingStage
