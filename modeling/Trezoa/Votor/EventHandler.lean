import Trezoa.Lib.InsertBy
import Trezoa.Votor.Ballot
import Trezoa.Votor.Event

/-!
# The event handler

`votor/src/event_handler.rs` with the parts of `voting_utils.rs`, `commitment.rs` and
`root_utils.rs` it calls: the loop that receives the events of a node and casts its votes.

* `State`: the vote history, the local context and the root of bank forks. Its field `ballot` is
  for the specification only: it lists all votes that were added to the vote history and all blocks
  that were seen notarized, and no code reads it.
* `handleEvent`, `eventLoop`: one event, and a run over a sequence of events.

Logging, statistics and the contents of the metrics events are left out.
-/

namespace Trezoa.Votor

open Lib

/-! ## Errors -/

/-- `GenerateVoteTxResult`, without the contents of the generated message. -/
inductive GenerateVoteTxResult where
  | nonVoting
  | hotSpare
  | waitForStartupVerification
  | waitToVoteSlot (slot : ℕ)
  | noRankFound
  | noAuthorizedVoter
  | voteAccountNotFound
  | consensusMessage

def GenerateVoteTxResult.isTransientError : GenerateVoteTxResult → Bool
  | noAuthorizedVoter | voteAccountNotFound | consensusMessage => false
  | nonVoting | hotSpare | waitForStartupVerification | waitToVoteSlot _ | noRankFound => true

inductive VoteError where
  | transientError (result : GenerateVoteTxResult)
  | invalidConfig (result : GenerateVoteTxResult)
  | consensusPoolError
  | commitmentSenderError
  | savedVoteHistoryError

inductive SetRootError where
  | blockstore
  | sendNotification

inductive EventLoopError where
  | senderDisconnected
  | votingError (error : VoteError)
  | setIdentityError
  | setRoot (error : SetRootError)

/-- Why the event loop stops: it panics or returns an error. -/
inductive Stop where
  | panic (panic : Panic)
  | error (error : EventLoopError)

/-! ## The state and its environment -/

/-- `BLSOp::PushVote`, with the vote for the signed message. -/
structure BLSOp where
  vote : Vote
  slot : ℕ
  savedVoteHistory : VoteHistory

/-- The contexts of the event loop. -/
structure State where
  /-- `vctx.vote_history`. -/
  voteHistory : VoteHistory
  /-- The root of `ctx.bank_forks` and of `vctx.sharable_banks`. -/
  bankRoot : ℕ
  myPubkey : Pubkey
  /-- `pending_blocks`: the blocks with their parents, in the order of the map from slots to
  blocks. -/
  pendingBlocks : List (Block × Block)
  finalizedBlocks : List Block
  receivedShred : List ℕ
  /-- `votes`: what `handle_event` has produced so far for the current event. -/
  votes : List BLSOp
  /-- The slots passed to `TimerManager::set_timeouts`. -/
  timeouts : List ℕ
  /-- `leader_window_notifier.highest_parent_ready`. -/
  highestParentReady : ℕ × Block
  /-- The number of questions asked to the environment. -/
  clock : ℕ
  /-- Not read by the code: the votes added to the vote history and the blocks seen notarized. -/
  ballot : Ballot

/-- The answers of the other components to the questions of the handler, by number. -/
structure Environment where
  /-- `generate_vote_tx`; `none` when it panics. -/
  generateVoteTx : ℕ → Vote → Option GenerateVoteTxResult
  /-- `own_vote_sender.send` succeeds. -/
  ownVoteSender : ℕ → Bool
  /-- `SavedVoteHistory::new` succeeds. -/
  savedVoteHistory : ℕ → Bool
  /-- `commitment_sender` is connected. -/
  commitmentSender : ℕ → Bool
  /-- `consensus_metrics_sender` is connected. -/
  consensusMetricsSender : ℕ → Bool
  /-- `bls_sender.send` succeeds. -/
  blsSender : ℕ → Bool
  /-- `bank_forks.get`. -/
  bankForks : ℕ → ℕ → Option Bank
  /-- `blockstore.set_roots` succeeds. -/
  setRoots : ℕ → Bool
  /-- `blockstore.insert_optimistic_slot` succeeds. -/
  insertOptimisticSlot : ℕ → Bool
  /-- The optimistic confirmation is not sent to a closed channel. -/
  bankNotificationSender : ℕ → Bool
  /-- `cluster_info.keypair().pubkey()`. -/
  clusterPubkey : ℕ → Pubkey
  restore : ℕ → Pubkey → Option VoteHistory

/-- Programs of the event handler. -/
abbrev Handler := ExceptT Stop (StateM State)

/-- The number of the next question to the environment. -/
def tick : Handler ℕ :=
  modifyGet fun s => (s.clock, { s with clock := s.clock + 1 })

/-- The result of a vote history function; its panic stops the handler. -/
def liftHistory {α : Type} (f : VoteHistory → Except Panic α) : Handler α := do
  match f (← get).voteHistory with
  | .ok a => return a
  | .error panic => throw (.panic panic)

/-- `vctx.vote_history.add_vote`. -/
def addVote (vote : Vote) : Handler Unit := do
  let voteHistory ← liftHistory (·.addVote vote)
  modify fun s => { s with voteHistory := voteHistory, ballot := s.ballot.castVote vote }

/-- `vctx.vote_history.add_block_notarized`. -/
def addBlockNotarized (block : Block) : Handler Unit :=
  modify fun s =>
    { s with
      voteHistory := s.voteHistory.addBlockNotarized block
      ballot := s.ballot.seeNotarized block }

/-- `vctx.vote_history.add_parent_ready`. -/
def addParentReady (slot : ℕ) (parentBlock : Block) : Handler Bool :=
  modifyGet fun s =>
    let (first, voteHistory) := s.voteHistory.addParentReady slot parentBlock
    (first, { s with voteHistory := voteHistory })

/-- `pending_blocks.remove(&slot)`. -/
def removePending (slot : ℕ) : Handler Unit :=
  modify fun s => { s with pendingBlocks := s.pendingBlocks.filter (·.1.1 ≠ slot) }

/-- `pending_blocks.entry(slot).or_default().push((block, parent_block))`. -/
def pushPending (block parentBlock : Block) : Handler Unit :=
  modify fun s => { s with pendingBlocks := insertBy (·.1.1) (block, parentBlock) s.pendingBlocks }

/-! ## Casting votes -/

variable (env : Environment)

def insertVoteAndCreateBlsMessage (vote : Vote) (isRefresh : Bool) :
    Handler (Except VoteError BLSOp) := do
  if isRefresh = false then
    addVote vote
  match env.generateVoteTx (← tick) vote with
  | none => throw (.panic .environment)
  | some .consensusMessage =>
    if env.ownVoteSender (← tick) then
      if env.savedVoteHistory (← tick) then
        return .ok ⟨vote, vote.slot, (← get).voteHistory⟩
      else
        return .error .savedVoteHistoryError
    else
      return .error .consensusPoolError
  | some result =>
    if result.isTransientError then
      return .error (.transientError result)
    else
      return .error (.invalidConfig result)

/-- `generate_vote_message`, and the push of its message to `votes` that follows at every call. -/
def generateVoteMessage (vote : Vote) (isRefresh : Bool) : Handler Unit := do
  match ← insertVoteAndCreateBlsMessage env vote isRefresh with
  | .ok blsOp => modify fun s => { s with votes := s.votes ++ [blsOp] }
  | .error (.invalidConfig _) => return ()
  | .error (.transientError _) => return ()
  | .error e => throw (.error (.votingError e))

def updateCommitmentCache : Handler Unit := do
  if env.commitmentSender (← tick) = false then
    throw (.error (.votingError .commitmentSenderError))

def sendToMetrics : Handler Unit := do
  if env.consensusMetricsSender (← tick) = false then
    throw (.error .senderDisconnected)

def tryFinal (block : Block) : Handler Bool := do
  let slot := block.1
  if (← get).voteHistory.isBlockNotarized block = false then
    return false
  else if ← liftHistory (·.itsOver slot) then
    return false
  else if ← liftHistory (·.badWindow slot) then
    return false
  else if (← liftHistory (·.votedNotar slot)) ≠ some block.2 then
    return false
  else
    generateVoteMessage env (.finalize slot) false
    return true

/-- The vote of `try_notar`, after its checks. -/
def voteNotar (block : Block) : Handler Bool := do
  generateVoteMessage env (.notarize block.1 block.2) false
  updateCommitmentCache env
  removePending block.1
  let _ ← tryFinal env block
  return true

def tryNotar (block parentBlock : Block) : Handler Bool := do
  let slot := block.1
  if ← liftHistory (·.voted slot) then
    return false
  else if leaderSlotIndex slot = 0 ∨ slot = 1 then
    if (← get).voteHistory.isParentReady slot parentBlock = false then
      return false
    else
      voteNotar env block
  else if parentBlock.1 + 1 ≠ slot then
    return false
  else if (← liftHistory (·.votedNotar parentBlock.1)) ≠ some parentBlock.2 then
    return false
  else
    voteNotar env block

/-- The loop of `check_pending_blocks`. -/
def tryNotarAll (blocksToCheck : List (Block × Block)) : Handler Unit := do
  for x in blocksToCheck do
    let _ ← tryNotar env x.1 x.2

def checkPendingBlocks : Handler Unit := do
  let blocksToCheck := (← get).pendingBlocks
  tryNotarAll env blocksToCheck

/-- The body of the loop of `try_skip_window`. -/
def trySkip (slot : ℕ) : Handler Unit := do
  if ← liftHistory (·.voted slot) then
    return ()
  else
    generateVoteMessage env (.skip slot) false

/-- The loop of `try_skip_window`. -/
def trySkipAll (slots : List ℕ) : Handler Unit := do
  for slot in slots do
    trySkip env slot

def trySkipWindow (slot : ℕ) : Handler Unit := do
  let start := max (max (firstOfConsecutiveLeaderSlots slot) (← get).bankRoot) 1
  trySkipAll env (List.range' start (lastOfConsecutiveLeaderSlots slot + 1 - start))

/-- The loop of `refresh_votes`. -/
def refreshAll (votes : List Vote) : Handler Unit := do
  for vote in votes do
    generateVoteMessage env vote true

def refreshVotes (highestFinalizedSlot : ℕ) : Handler Unit := do
  let votes := (← get).voteHistory.votesCastSince highestFinalizedSlot
  refreshAll env votes

/-! ## Rooting -/

/-- The start of `root_utils::set_root`: forget what is below the new root. -/
def pruneBelow (newRoot : ℕ) : Handler Unit :=
  modify fun s =>
    { s with
      voteHistory := s.voteHistory.setRoot newRoot
      pendingBlocks := s.pendingBlocks.filter (newRoot ≤ ·.1.1)
      finalizedBlocks := s.finalizedBlocks.filter (newRoot ≤ ·.1)
      receivedShred := s.receivedShred.filter (newRoot ≤ ·) }

def setBankForksRoot (newRoot : ℕ) : Handler Unit :=
  modify fun s => { s with bankRoot := newRoot }

/-- `root_utils::set_root`: `check_and_handle_new_root` is inlined up to its effect on bank
forks. -/
def setRoot (newRoot : ℕ) : Handler Unit := do
  pruneBelow newRoot
  if (env.bankForks (← tick) newRoot).isNone then
    throw (.panic .environment)
  if env.setRoots (← tick) = false then
    throw (.error (.setRoot .blockstore))
  setBankForksRoot newRoot
  if (env.bankForks (← tick) newRoot).isNone then
    throw (.panic .environment)
  if env.insertOptimisticSlot (← tick) = false then
    throw (.error (.setRoot .blockstore))
  if env.bankNotificationSender (← tick) = false then
    throw (.error (.setRoot .sendNotification))

/-- The conditions of `check_rootable_blocks` on one finalized block; `bankForks` is the view of
bank forks that it holds the lock of. The vote history is asked only above the old root. -/
def isRootable (bankForks : ℕ → Option Bank) (oldRoot : ℕ) (voteHistory : VoteHistory)
    (block : Block) : Except Panic Bool :=
  match bankForks block.1 with
  | none => return false
  | some bank =>
    if oldRoot < block.1 then do
      let voted ← voteHistory.voted block.1
      return voted && bank.isFrozen && decide (bank.blockId = some block.2)
    else return false

/-- The `filter_map` of `check_rootable_blocks`. -/
def rootableSlots (bankForks : ℕ → Option Bank) (oldRoot : ℕ) (voteHistory : VoteHistory) :
    List Block → Except Panic (List ℕ)
  | [] => return []
  | block :: blocks => do
    let rootable ← isRootable bankForks oldRoot voteHistory block
    let slots ← rootableSlots bankForks oldRoot voteHistory blocks
    return if rootable then block.1 :: slots else slots

def checkRootableBlocks : Handler Unit := do
  let bankForks := env.bankForks (← tick)
  let s ← get
  let slots ← liftHistory (rootableSlots bankForks s.bankRoot · s.finalizedBlocks)
  match slots.max? with
  | none => return ()
  | some newRoot => setRoot env newRoot

/-! ## The events -/

/-- `timer_manager.write().set_timeouts(slot)`. -/
def setTimeouts (slot : ℕ) : Handler Unit :=
  modify fun s => { s with timeouts := s.timeouts ++ [slot] }

/-- The update of `highest_parent_ready` at the end of `handle_parent_ready_event`. -/
def raiseHighestParentReady (slot : ℕ) (parentBlock : Block) : Handler Unit :=
  modify fun s =>
    { s with
      highestParentReady :=
        if s.highestParentReady.1 < slot then (slot, parentBlock) else s.highestParentReady }

def handleParentReadyEvent (slot : ℕ) (parentBlock : Block) : Handler Unit := do
  let shouldSetTimeouts ← addParentReady slot parentBlock
  checkPendingBlocks env
  if shouldSetTimeouts then
    setTimeouts slot
  raiseHighestParentReady slot parentBlock

/-- The parent that `add_missing_parent_ready` reads off the bank of a finalized block. -/
def missingParent (bank : Bank) (block : Block) : Option (ℕ × Block) :=
  if bank.isFrozen = false then none
  else if bank.blockId ≠ some block.2 then none
  else do
    let parentBank ← bank.parent
    let parentBlockId ← parentBank.blockId
    return (block.1, (parentBank.slot, parentBlockId))

def addMissingParentReady (finalizedBlock : Block) : Handler (Option (ℕ × Block)) := do
  let slot := finalizedBlock.1
  let firstSlotOfWindow := firstOfConsecutiveLeaderSlots slot
  let s ← get
  if firstSlotOfWindow = slot ∨ firstSlotOfWindow = 0 then
    return none
  else if s.voteHistory.highestParentReadySlot.any (firstSlotOfWindow ≤ ·) ∨
      finalizedBlock ∉ s.finalizedBlocks then
    return none
  else
    return (env.bankForks (← tick) slot).bind (missingParent · finalizedBlock)

/-- The end of the `Block` and `Finalized` branches of `handle_event`: root what can be rooted and
make up for a parent ready event that was missed. -/
def rootAndAddMissing (block : Block) : Handler Unit := do
  checkRootableBlocks env
  match ← addMissingParentReady env block with
  | some (readySlot, parentBlock) => handleParentReadyEvent env readySlot parentBlock
  | none => return ()

def getBlockParentBlock (bank : Bank) : Handler (Block × Block) :=
  match bank.blockId with
  | none => throw (.panic .environment)
  | some blockId => return ((bank.slot, blockId), (bank.parentSlot, bank.parentBlockId.getD 0))

/-- The first half of the `Block` branch of `handle_event`: vote for the block or keep it. -/
def voteOrKeep (slot : ℕ) (block parentBlock : Block) : Handler Unit := do
  if ← tryNotar env block parentBlock then
    checkPendingBlocks env
  else if ← liftHistory (·.voted slot) then
    return ()
  else
    pushPending block parentBlock

/-- The `Block` branch of `handle_event`. -/
def handleBlock (completedBlock : CompletedBlock) : Handler Unit := do
  sendToMetrics env
  let (block, parentBlock) ← getBlockParentBlock completedBlock.bank
  voteOrKeep env completedBlock.slot block parentBlock
  rootAndAddMissing env block

/-- The `BlockNotarized` branch of `handle_event`. -/
def handleBlockNotarized (block : Block) : Handler Unit := do
  addBlockNotarized block
  let _ ← tryFinal env block

/-- The `TimeoutCrashedLeader` branch of `handle_event`. -/
def handleTimeoutCrashedLeader (slot : ℕ) : Handler Unit := do
  if ← liftHistory (·.voted slot) then
    return ()
  else if slot ∈ (← get).receivedShred then
    return ()
  else
    trySkipWindow env slot

/-- The metrics of the `Timeout` branch of `handle_event`: inside a window the next slot starts. -/
def sendTimeoutToMetrics (slot : ℕ) : Handler Unit := do
  if slot ≠ lastOfConsecutiveLeaderSlots slot then
    sendToMetrics env

/-- The `Timeout` branch of `handle_event`. -/
def handleTimeout (slot : ℕ) : Handler Unit := do
  sendTimeoutToMetrics env slot
  if ← liftHistory (·.voted slot) then
    return ()
  else
    trySkipWindow env slot

/-- The `SafeToNotar` branch of `handle_event`. -/
def handleSafeToNotar (block : Block) : Handler Unit := do
  trySkipWindow env block.1
  if ← liftHistory (·.itsOver block.1) then
    return ()
  else if ← liftHistory (·.votedNotarFallback block.1 block.2) then
    return ()
  else
    generateVoteMessage env (.notarizeFallback block.1 block.2) false

/-- The `SafeToSkip` branch of `handle_event`. -/
def handleSafeToSkip (slot : ℕ) : Handler Unit := do
  trySkipWindow env slot
  if ← liftHistory (·.itsOver slot) then
    return ()
  else if ← liftHistory (·.votedSkipFallback slot) then
    return ()
  else
    generateVoteMessage env (.skipFallback slot) false

def handleSetIdentity : Handler Unit := do
  let newPubkey := env.clusterPubkey (← tick)
  let s ← get
  if s.myPubkey ≠ newPubkey ∨ s.voteHistory.nodePubkey ≠ newPubkey then
    modify fun s => { s with myPubkey := newPubkey }
    match env.restore (← tick) newPubkey with
    | none => throw (.error .setIdentityError)
    | some voteHistory => modify fun s => { s with voteHistory := voteHistory }

/-- The branches of `handle_event`. -/
def handleEventBranch : VotorEvent → Handler Unit
  | .block completedBlock => handleBlock env completedBlock
  | .blockNotarized block => handleBlockNotarized env block
  | .firstShred slot => modify fun s => { s with receivedShred := s.receivedShred.insert slot }
  | .parentReady slot parentBlock => do
    sendToMetrics env
    handleParentReadyEvent env slot parentBlock
  | .timeoutCrashedLeader slot => handleTimeoutCrashedLeader env slot
  | .timeout slot => handleTimeout env slot
  | .safeToNotar block => handleSafeToNotar env block
  | .safeToSkip slot => handleSafeToSkip env slot
  | .produceWindow => pure () -- only notifies the block producer
  | .finalized block _ => do
    modify fun s => { s with finalizedBlocks := s.finalizedBlocks.insert block }
    rootAndAddMissing env block
  | .standstill highestFinalizedSlot => refreshVotes env highestFinalizedSlot
  | .setIdentity => handleSetIdentity env

def handleEvent (event : VotorEvent) : Handler (List BLSOp) := do
  modify fun s => { s with votes := [] }
  handleEventBranch env event
  return (← get).votes

/-- `vctx.bls_sender.send` for one of the votes of an event. -/
def sendVote (_vote : BLSOp) : Handler Unit := do
  if env.blsSender (← tick) = false then
    throw (.error .senderDisconnected)

/-- The loop of `event_loop` over the votes of an event. -/
def sendVotes (votes : List BLSOp) : Handler Unit := do
  for vote in votes do
    sendVote env vote

/-- One round of `event_loop`. -/
def eventRound (event : VotorEvent) : Handler Unit := do
  if event.shouldIgnore (← get).bankRoot then
    return ()
  else
    let votes ← handleEvent env event
    sendVotes env votes

/-- `event_loop` on the sequence of events it receives. -/
def eventLoop (events : List VotorEvent) : Handler Unit := do
  for event in events do
    eventRound env event

/-- The contexts at the start of `event_loop`. -/
def State.start (myPubkey : Pubkey) (voteHistory : VoteHistory) (bankRoot : ℕ)
    (highestParentReady : ℕ × Block) (ballot : Ballot) : State where
  voteHistory := voteHistory
  bankRoot := bankRoot
  myPubkey := myPubkey
  pendingBlocks := []
  finalizedBlocks := []
  receivedShred := []
  votes := []
  timeouts := []
  highestParentReady := highestParentReady
  clock := 0
  ballot := ballot

end Trezoa.Votor
