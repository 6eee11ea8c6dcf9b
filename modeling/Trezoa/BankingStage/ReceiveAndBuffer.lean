import Trezoa.BankingStage.TransactionStateContainer

/-!
# Receiving packets

Models `handle_packet_batch_message` of
`core/src/banking_stage/transaction_scheduler/receive_and_buffer.rs`: packets are inserted into the
map of the container, and whenever there are `EXTRA_CAPACITY` of them, and at the end, those that
pass the checks of the bank are pushed into the queue and the others removed.
-/

namespace Trezoa.BankingStage

open Lib

/-- Why a packet is not buffered. -/
inductive PacketHandlingError where
  | sanitization
  | lockValidation
  | computeBudget
  | altResolution
deriving DecidableEq

/-- Why a transaction fails the checks of the bank. -/
inductive TransactionError where
  | blockhashNotFound
  | alreadyProcessed
  | other
deriving DecidableEq

/-- The root bank and the working bank: how packets are translated, and the checks of
transactions, which give one result for each transaction. -/
structure Bank (Tx : Type) where
  translate : List UInt8 → Except PacketHandlingError (Tx × ℕ × ℕ)
  checkTransactions : List Tx → List (Except TransactionError Unit)
  length_checkTransactions : ∀ txs, (checkTransactions txs).length = txs.length
  checkFeePayerUnlocked : Tx → Except TransactionError Unit

/-- What happened to the packets, without the times. -/
structure ReceivingStats where
  numReceived : ℕ := 0
  numDroppedWithoutParsing : ℕ := 0
  numDroppedOnParsingAndSanitization : ℕ := 0
  numDroppedOnLockValidation : ℕ := 0
  numDroppedOnComputeBudget : ℕ := 0
  numDroppedOnAge : ℕ := 0
  numDroppedOnAlreadyProcessed : ℕ := 0
  numDroppedOnFeePayer : ℕ := 0
  numDroppedOnCapacity : ℕ := 0
  numBuffered : ℕ := 0
deriving DecidableEq

/-- Counts a transaction that fails the checks of the bank. -/
def ReceivingStats.dropOnCheck (stats : ReceivingStats) : TransactionError → ReceivingStats
  | .blockhashNotFound => { stats with numDroppedOnAge := stats.numDroppedOnAge + 1 }
  | .alreadyProcessed =>
    { stats with numDroppedOnAlreadyProcessed := stats.numDroppedOnAlreadyProcessed + 1 }
  | .other => stats

/-- Counts a packet that cannot be translated. -/
def ReceivingStats.dropOnTranslate (stats : ReceivingStats) : PacketHandlingError → ReceivingStats
  | .sanitization | .altResolution => { stats with
      numDroppedOnParsingAndSanitization := stats.numDroppedOnParsingAndSanitization + 1 }
  | .lockValidation =>
    { stats with numDroppedOnLockValidation := stats.numDroppedOnLockValidation + 1 }
  | .computeBudget =>
    { stats with numDroppedOnComputeBudget := stats.numDroppedOnComputeBudget + 1 }

variable {A : SlabAllocator} {Tx : Type}

/-- The state of the transaction in a packet. -/
def Bank.tryHandlePacket (bank : Bank Tx) (bytes : List UInt8) :
    Except PacketHandlingError (TransactionState Tx) :=
  (bank.translate bytes).map fun (transaction, priority, cost) => .new transaction priority cost

/-- The counts after a packet is translated. -/
def Bank.countTranslated (bank : Bank Tx) (stats : ReceivingStats) (data : List UInt8) :
    ReceivingStats :=
  match bank.tryHandlePacket data with
  | .ok _ => stats
  | .error err => stats.dropOnTranslate err

/-- The loop that receives packets. -/
structure Receiving (A : SlabAllocator) (Tx : Type) where
  container : TransactionViewStateContainer A Tx
  transactionPriorityIds : List TransactionPriorityId
  stats : ReceivingStats

/-- The transaction under an id, which must be there. -/
def expectTransaction (container : TransactionStateContainer A Tx) (id : ℕ) : Except Panic Tx := do
  match ← container.getTransaction id with
  | some tx => .ok tx
  | none => .error .transactionMustExist

/-- The loop over the results of the checks; it gathers the ids that pass. -/
structure Checking (A : SlabAllocator) (Tx : Type) where
  container : TransactionStateContainer A Tx
  passed : List TransactionPriorityId
  stats : ReceivingStats

/-- Removes a transaction that fails one of the checks. -/
def checkResult (bank : Bank Tx) (r : Checking A Tx)
    (check : Except TransactionError Unit × TransactionPriorityId) : Except Panic (Checking A Tx) :=
  match check.1 with
  | .error err => (r.container.removeById check.2.id).map fun container =>
    { r with container := container, stats := r.stats.dropOnCheck err }
  | .ok () => do
    let transaction ← expectTransaction r.container check.2.id
    match bank.checkFeePayerUnlocked transaction with
    | .error _ => (r.container.removeById check.2.id).map fun container =>
      { r with container := container, stats :=
        { r.stats with numDroppedOnFeePayer := r.stats.numDroppedOnFeePayer + 1 } }
    | .ok () => .ok { r with passed := r.passed ++ [check.2], stats :=
        { r.stats with numBuffered := r.stats.numBuffered + 1 } }

/-- Checks the inserted transactions, and pushes those that pass into the queue. -/
def checkAndPushToQueue (bank : Bank Tx) (r : Receiving A Tx) : Except Panic (Receiving A Tx) := do
  let transactions ← r.transactionPriorityIds.mapM fun priorityId =>
    expectTransaction r.container.inner priorityId.id
  let checkResults := (bank.checkTransactions transactions).zip r.transactionPriorityIds
  let checked ← checkResults.foldlM (checkResult bank) ⟨r.container.inner, [], r.stats⟩
  let (numDropped, container) ← checked.container.pushIdsIntoQueue checked.passed
  return ⟨{ r.container with inner := container }, [],
    { checked.stats with numDroppedOnCapacity := checked.stats.numDroppedOnCapacity + numDropped }⟩

/-- Inserts the transaction of a packet, and runs the checks once there are as many as there is
extra space for. -/
def handlePacketData (bank : Bank Tx) (data : List UInt8) (r : Receiving A Tx) :
    Except Panic (Receiving A Tx) := do
  let stats := bank.countTranslated r.stats data
  match ← r.container.tryInsertMapOnlyWithData data fun bytes =>
      (bank.tryHandlePacket bytes).toOption with
  | (none, container) => .ok { r with container := container, stats := stats }
  | (some transactionId, container) =>
    match container.inner.getTransactionState transactionId with
    | none => .error .transactionMustExist
    | some state =>
      let r : Receiving A Tx := ⟨container, r.transactionPriorityIds
        ++ [⟨state.priority, transactionId⟩], stats⟩
      if r.transactionPriorityIds.length = extraCapacity then checkAndPushToQueue bank r
      else .ok r

/-- One packet; one without data is skipped, and without parsing every packet is dropped. -/
def handlePacket (bank : Bank Tx) (shouldParse : Bool) (r : Receiving A Tx)
    (packet : Option (List UInt8)) : Except Panic (Receiving A Tx) :=
  match packet with
  | none => .ok r
  | some data =>
    let r := { r with stats := { r.stats with numReceived := r.stats.numReceived + 1 } }
    if shouldParse then handlePacketData bank data r
    else .ok { r with stats :=
      { r.stats with numDroppedWithoutParsing := r.stats.numDroppedWithoutParsing + 1 } }

/-- The packets of a message. -/
def handlePacketBatchMessage (bank : Bank Tx) (shouldParse : Bool)
    (container : TransactionViewStateContainer A Tx) (packets : List (Option (List UInt8))) :
    Except Panic (ReceivingStats × TransactionViewStateContainer A Tx) := do
  let r ← packets.foldlM (handlePacket bank shouldParse) ⟨container, [], {}⟩
  let r ← checkAndPushToQueue bank r
  return (r.stats, r.container)

end Trezoa.BankingStage
