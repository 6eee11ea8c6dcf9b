import Trezoa.Votor.CertificateBuilder
import Trezoa.Votor.ParentReadyTracker
import Trezoa.Votor.SlotStakeCounters
import Trezoa.Votor.VotePool

/-!
# The consensus pool

`votor/src/consensus_pool.rs`: received votes and certificates, the certificates that are built from
the votes, and the events that follow from new certificates.

* `addVote`, `addCertificate`, `addMessage`: a message. An error is returned together with the pool:
  what was changed before the error stays changed.

The statistics are left out. `AddMessageError` holds the error itself where the source has its text.
-/

namespace Trezoa.Votor

open Lib

variable {σ π β : Type}

inductive AddVoteError where
  | epochStakesNotFound (epoch : ℕ)
  | unrootedSlot
  | certificateBuilder (error : BuildError)
  | invalidRank (rank : ℕ)
  | votePool (error : VotePoolError)
  deriving DecidableEq

inductive AddCertError where
  | unrootedSlot
  deriving DecidableEq

inductive AddMessageError where
  | vote (error : AddVoteError)
  | certificate (error : AddCertError)
  deriving DecidableEq

/-- The epochs: `EpochSchedule::get_epoch` and `epoch_stakes_map`. -/
structure Epochs where
  getEpoch : ℕ → ℕ
  /-- `epoch_stakes_map.get`. -/
  epochStakes : ℕ → Option VersionedEpochStakes

/-- The epoch stakes of a slot. -/
def Epochs.stakesAt (epochs : Epochs) (slot : ℕ) : Option VersionedEpochStakes :=
  epochs.epochStakes (epochs.getEpoch slot)

/-- All slots in one epoch. -/
def Epochs.single (stakes : VersionedEpochStakes) : Epochs := ⟨fun _ => 0, fun _ => some stakes⟩

def getKeyAndStakes (epochs : Epochs) (slot rank : ℕ) :
    Except Panic (Except AddVoteError (Pubkey × ℕ × ℕ)) :=
  match epochs.stakesAt slot with
  | none => .ok (.error (.epochStakesNotFound (epochs.getEpoch slot)))
  | some stakes =>
    match stakes.getPubkey rank with
    | none => .ok (.error (.invalidRank rank))
    | some voteKey =>
      if stakes.voteAccountStake voteKey = 0 then .error .assertion
      else .ok (.ok (voteKey, stakes.voteAccountStake voteKey, stakes.totalStake))

structure ConsensusPool (σ β : Type) where
  votePools : OrdMap ℕ (VotePool σ)
  completedCertificates : OrdMap CertificateType (Certificate σ β)
  parentReadyTracker : ParentReadyTracker
  highestFinalizedSlot : Option ℕ
  highestFinalizedWithNotarize : Option (ℕ × Bool)
  slotStakeCountersMap : OrdMap ℕ SlotStakeCounters

namespace ConsensusPool

/-- `new_from_root_bank`, for a root bank with this slot and block id. -/
def newFromRootBank (rootBlock : Block) : ConsensusPool σ β where
  votePools := ∅
  completedCertificates := ∅
  parentReadyTracker := .new rootBlock
  highestFinalizedSlot := none
  highestFinalizedWithNotarize := none
  slotStakeCountersMap := ∅

/-! ## Building certificates -/

/-- The sum of the stake counters of a certificate. -/
def accumulatedStake (votePool : VotePool σ) (certType : CertificateType) : ℕ :=
  saturatingAdd u64Max (votePool.getStake certType.mainVote)
    (certType.fallbackVote.elim 0 votePool.getStake)

/-- The loop of `build_certs`. -/
def buildCertsLoop (backend : Backend σ π β) (self : ConsensusPool σ β) (votePool : VotePool σ)
    (totalStake : ℕ) :
    List CertificateType → Except Panic (Except AddVoteError (List (Certificate σ β)))
  | [] => .ok (.ok [])
  | certType :: certTypes => do
    if certType ∈ self.completedCertificates then
      buildCertsLoop backend self votePool totalStake certTypes
    else if 100 * accumulatedStake votePool certType < certType.limit * totalStake then
      buildCertsLoop backend self votePool totalStake certTypes
    else
      match ← buildCertificate backend certType (votePool.getVotes certType.mainVote)
        (certType.fallbackVote.elim [] votePool.getVotes) with
      | .error e => return .error (.certificateBuilder e)
      | .ok newCert =>
        return (← buildCertsLoop backend self votePool totalStake certTypes).map (newCert :: ·)

def buildCerts (backend : Backend σ π β) (self : ConsensusPool σ β) (vote : Vote)
    (totalStake : ℕ) : Except Panic (Except AddVoteError (List (Certificate σ β))) :=
  match self.votePools[vote.slot]? with
  | none => .ok (.ok [])
  | some votePool => buildCertsLoop backend self votePool totalStake (voteToCertificateIds vote)

/-! ## Inserting certificates -/

/-- A pool and the events that it has emitted. -/
abbrev WithEvents (σ β : Type) := ConsensusPool σ β × List VotorEvent

def getNotarizedBlock (self : ConsensusPool σ β) (slot : ℕ) : Option Block :=
  self.completedCertificates.keys.findSome? fun
    | .notarize s blockId => if slot = s then some (s, blockId) else none
    | _ => none

def isFinalized (self : ConsensusPool σ β) (slot : ℕ) : Bool :=
  self.completedCertificates.keys.any fun
    | .finalize s | .finalizeFast s _ => s = slot
    | _ => false

/-- `add_new_notar_fallback_or_stronger` on the tracker of the pool. -/
def addNewNotarFallbackOrStronger (self : WithEvents σ β) (block : Block) :
    Except Panic (WithEvents σ β) := do
  let (tracker, events) ←
    ParentReadyTracker.addNewNotarFallbackOrStronger (self.1.parentReadyTracker, self.2) block
  return ({ self.1 with parentReadyTracker := tracker }, events)

/-- `add_new_skip` on the tracker of the pool. -/
def addNewSkip (self : WithEvents σ β) (slot : ℕ) : Except Panic (WithEvents σ β) := do
  let (tracker, events) ← ParentReadyTracker.addNewSkip (self.1.parentReadyTracker, self.2) slot
  return ({ self.1 with parentReadyTracker := tracker }, events)

/-- Set `highest_finalized_with_notarize` to a slot without a fast finalization, if it is higher. -/
def raiseFinalizedWithNotarize (self : ConsensusPool σ β) (slot : ℕ) : ConsensusPool σ β :=
  if self.highestFinalizedWithNotarize.all (·.1 < slot) then
    { self with highestFinalizedWithNotarize := some (slot, false) }
  else self

/-- Set `highest_finalized_slot`, if it is higher. -/
def raiseFinalizedSlot (self : ConsensusPool σ β) (slot : ℕ) : ConsensusPool σ β :=
  if self.highestFinalizedSlot.all (· < slot) then { self with highestFinalizedSlot := some slot }
  else self

def insertCertificate (self : WithEvents σ β) (cert : Certificate σ β) :
    Except Panic (WithEvents σ β) := do
  let pool : ConsensusPool σ β := { self.1 with
    completedCertificates := self.1.completedCertificates.insert cert.certType cert }
  let events := self.2
  match cert.certType with
  | .notarizeFallback slot blockId => addNewNotarFallbackOrStronger (pool, events) (slot, blockId)
  | .skip slot => addNewSkip (pool, events) slot
  | .notarize slot blockId =>
    let (pool, events) ← addNewNotarFallbackOrStronger
      (pool, events ++ [.blockNotarized (slot, blockId)]) (slot, blockId)
    if pool.isFinalized slot then
      return (pool.raiseFinalizedWithNotarize slot, events ++ [.finalized (slot, blockId) false])
    else
      return (pool, events)
  | .finalize slot =>
    match pool.getNotarizedBlock slot with
    | some block =>
      return ((pool.raiseFinalizedWithNotarize slot).raiseFinalizedSlot slot,
        events ++ [.finalized block false])
    | none => return (pool.raiseFinalizedSlot slot, events)
  | .finalizeFast slot blockId =>
    let (pool, events) ← addNewNotarFallbackOrStronger
      (pool, events ++ [.finalized (slot, blockId) true]) (slot, blockId)
    let pool := pool.raiseFinalizedSlot slot
    if pool.highestFinalizedWithNotarize.all (·.1 ≤ slot) then
      return ({ pool with highestFinalizedWithNotarize := some (slot, true) }, events)
    else
      return (pool, events)
  | .genesis _ _ => return (pool, events)

/-! ## Messages -/

/-- The end of `add_vote`: insert the certificates that were built, unless there was an error. -/
def insertBuilt (self : WithEvents σ β) :
    Except AddVoteError (List (Certificate σ β)) →
      Except Panic (Except AddVoteError (List (Certificate σ β)) × WithEvents σ β)
  | .error e => return (.error e, self)
  | .ok certs => return (.ok certs, ← certs.foldlM insertCertificate self)

/-- The part of `add_vote` after the vote was stored in the vote pool of its slot: count it, then
build and insert the certificates it completes. `stake` is the total stake of the vote. -/
def countVote (backend : Backend σ π β) (isMyOwnVote : Bool) (vote : Vote)
    (totalStake stake : ℕ) (votePool : VotePool σ) (self : WithEvents σ β) :
    Except Panic (Except AddVoteError (List (Certificate σ β)) × WithEvents σ β) := do
  let (pool, events) := self
  let counters := pool.slotStakeCountersMap[vote.slot]?.getD (.new totalStake)
  let (counters, events) := counters.addVote vote stake isMyOwnVote events
  let pool := { pool with
    votePools := pool.votePools.insert vote.slot votePool
    slotStakeCountersMap := pool.slotStakeCountersMap.insert vote.slot counters }
  insertBuilt (pool, events) (← pool.buildCerts backend vote totalStake)

/-- The part of `add_vote` after the validator and its stake were looked up. -/
def addValidatorVote (backend : Backend σ π β) (rootSlot : ℕ) (myVotePubkey : Pubkey)
    (message : VoteMessage σ) (validatorVoteKey : Pubkey) (validatorStake totalStake : ℕ)
    (self : WithEvents σ β) :
    Except Panic (Except AddVoteError (List (Certificate σ β)) × WithEvents σ β) := do
  let voteSlot := message.vote.slot
  assert (validatorStake ≠ 0)
  if voteSlot < rootSlot then
    return (.error .unrootedSlot, self)
  else
    let votePool := self.1.votePools[voteSlot]?.getD (.new voteSlot)
    match votePool.addVote validatorVoteKey validatorStake message with
    | .error e =>
      let pool := { self.1 with votePools := self.1.votePools.insert voteSlot votePool }
      match e with
      | .duplicate => return (.ok [], (pool, self.2))
      | .invalid => return (.error (.votePool e), (pool, self.2))
    | .ok (stake, votePool) =>
      countVote backend (myVotePubkey = validatorVoteKey) message.vote totalStake stake votePool
        self

def addVote (backend : Backend σ π β) (epochs : Epochs) (rootSlot : ℕ) (myVotePubkey : Pubkey)
    (message : VoteMessage σ) (self : WithEvents σ β) :
    Except Panic (Except AddVoteError (List (Certificate σ β)) × WithEvents σ β) := do
  match ← getKeyAndStakes epochs message.vote.slot message.rank with
  | .error e => return (.error e, self)
  | .ok (validatorVoteKey, validatorStake, totalStake) =>
    addValidatorVote backend rootSlot myVotePubkey message validatorVoteKey validatorStake
      totalStake self

def addCertificate (rootSlot : ℕ) (cert : Certificate σ β) (self : WithEvents σ β) :
    Except Panic (Except AddCertError (List (Certificate σ β)) × WithEvents σ β) := do
  if cert.certType.slot < rootSlot then
    return (.error .unrootedSlot, self)
  else if cert.certType ∈ self.1.completedCertificates then
    return (.ok [], self)
  else
    return (.ok [cert], ← insertCertificate self cert)

/-- The new highest finalized slot that `add_message` reports: `self.highest_finalized_slot` if it
is above the one before. -/
def newFinalizedSlot (before after : Option ℕ) : Option ℕ :=
  match before, after with
  | none, after => after
  | some _, none => none
  | some before, some after => if before < after then some after else none

def addMessage (backend : Backend σ π β) (epochs : Epochs) (rootSlot : ℕ) (myVotePubkey : Pubkey)
    (message : ConsensusMessage σ β) (self : WithEvents σ β) :
    Except Panic (Except AddMessageError (Option ℕ × List (Certificate σ β)) × WithEvents σ β) := do
  let currentHighestFinalizedSlot := self.1.highestFinalizedSlot
  let (result, self) ←
    match message with
    | .vote message => do
      let (result, self) ← addVote backend epochs rootSlot myVotePubkey message self
      pure (result.mapError AddMessageError.vote, self)
    | .certificate cert => do
      let (result, self) ← addCertificate rootSlot cert self
      pure (result.mapError AddMessageError.certificate, self)
  return (result.map fun newCertificatesToSend =>
    (newFinalizedSlot currentHighestFinalizedSlot self.1.highestFinalizedSlot,
      newCertificatesToSend), self)

def pruneOldState (self : ConsensusPool σ β) (rootSlot : ℕ) : ConsensusPool σ β :=
  { self with
    completedCertificates := self.completedCertificates.filter fun certType _ =>
      rootSlot ≤ certType.slot
    votePools := self.votePools.filter fun slot _ => rootSlot ≤ slot
    slotStakeCountersMap := self.slotStakeCountersMap.filter fun slot _ => rootSlot ≤ slot
    parentReadyTracker := self.parentReadyTracker.setRoot rootSlot }

/-! ## Standstill -/

/-- The closure of `get_certs_for_standstill`. -/
def certToSend (highest : ℕ) (hasFastFinalize : Bool) (certType : CertificateType) :
    Except Panic Bool :=
  if highest < certType.slot then .ok true
  else if certType.slot = highest then
    match certType, hasFastFinalize with
    | .finalize _, false | .notarize _ _, false => .ok true
    | .finalizeFast _ _, true => .ok true
    | .finalizeFast _ _, false => .error .assertion
    | _, _ => .ok false
  else .ok false

def getCertsForStandstill (self : ConsensusPool σ β) :
    Except Panic (List (Certificate σ β)) := do
  let (highest, hasFastFinalize) := self.highestFinalizedWithNotarize.getD (0, false)
  let certs ← self.completedCertificates.toList.filterMapM fun entry => do
    if ← certToSend highest hasFastFinalize entry.1 then return some entry.2 else return none
  return certs

/-! ## Sequences of calls -/

/-- A call on the pool. -/
inductive Call (σ β : Type) where
  | addMessage (rootSlot : ℕ) (myVotePubkey : Pubkey) (message : ConsensusMessage σ β)
  | pruneOldState (rootSlot : ℕ)

/-- A pool in use, with the certificates that were built from votes. -/
structure Session (σ β : Type) where
  pool : ConsensusPool σ β
  events : List VotorEvent
  built : List (Certificate σ β)

/-- The certificates that a call has built: those that `add_message` returns for a vote. -/
def builtBy (message : ConsensusMessage σ β)
    (result : Except AddMessageError (Option ℕ × List (Certificate σ β))) :
    List (Certificate σ β) :=
  match message, result with
  | .vote _, .ok (_, certs) => certs
  | _, _ => []

/-- The effect of a call. -/
def call (backend : Backend σ π β) (epochs : Epochs) (session : Session σ β) :
    Call σ β → Except Panic (Session σ β)
  | .addMessage rootSlot myVotePubkey message => do
    let (result, pool, events) ← addMessage backend epochs rootSlot myVotePubkey message
      (session.pool, session.events)
    return ⟨pool, events, session.built ++ builtBy message result⟩
  | .pruneOldState rootSlot => .ok { session with pool := session.pool.pruneOldState rootSlot }

/-- A sequence of calls on a new pool. -/
def run (backend : Backend σ π β) (epochs : Epochs) (rootBlock : Block) (calls : List (Call σ β)) :
    Except Panic (Session σ β) :=
  calls.foldlM (call backend epochs) ⟨newFromRootBank rootBlock, [], []⟩

end ConsensusPool
end Trezoa.Votor
