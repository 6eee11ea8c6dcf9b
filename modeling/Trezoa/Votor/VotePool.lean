import Trezoa.Lib.WeightedQuorum
import Trezoa.Votor.Certificate
import Trezoa.Votor.EpochStakes

/-!
# The vote pool

`votor/src/consensus_pool/vote_pool.rs`: the votes and stakes of one slot.

* `Stakes.addStake`, `Stakes.getStake`: the stake per kind of vote, and per block where the vote
  names one. The counters saturate.

The `unwrap`s on the block id of a stored vote are safe because only votes with a block id are
stored there; a vote without one is not equal to the one that is compared.
-/

namespace Trezoa.Votor

open Lib

variable {σ : Type}

/-- A validator may fall back to so many blocks of a slot. -/
def maxNotarFallbackPerValidator : ℕ := 3

/-- `AddVoteError` of the vote pool. -/
inductive VotePoolError where
  | duplicate
  | invalid
  deriving DecidableEq

/-- A second vote of a validator is a duplicate. -/
def insertVote (map : OrdMap Pubkey (VoteMessage σ)) (voter : Pubkey) (vote : VoteMessage σ) :
    Except VotePoolError (OrdMap Pubkey (VoteMessage σ)) :=
  if voter ∈ map then .error .duplicate else .ok (map.insert voter vote)

/-- The insertion of a vote for `blockId`, of which a voter has one: a second one for the same block
is a duplicate, and for another block it is invalid. -/
def insertBlockVote (map : OrdMap Pubkey (VoteMessage σ)) (voter : Pubkey) (blockId : Hash)
    (vote : VoteMessage σ) : Except VotePoolError (OrdMap Pubkey (VoteMessage σ)) :=
  match map[voter]? with
  | some stored => if stored.vote.blockId = some blockId then .error .duplicate else .error .invalid
  | none => .ok (map.insert voter vote)

/-- The votes for a slot by kind and validator. -/
structure InternalVotePool (σ : Type) where
  slot : ℕ
  skip : OrdMap Pubkey (VoteMessage σ)
  skipFallback : OrdMap Pubkey (VoteMessage σ)
  finalize : OrdMap Pubkey (VoteMessage σ)
  notar : OrdMap Pubkey (VoteMessage σ)
  /-- `notar_fallback`: per voter, the votes by block id. -/
  notarFallback : OrdMap Pubkey (OrdMap Hash (VoteMessage σ))
  genesis : OrdMap Pubkey (VoteMessage σ)

namespace InternalVotePool

/-- A pool without votes. -/
def new (slot : ℕ) : InternalVotePool σ := ⟨slot, ∅, ∅, ∅, ∅, ∅, ∅⟩

/-- The insertion of a notarize fallback vote. -/
def insertNotarFallback (map : OrdMap Pubkey (OrdMap Hash (VoteMessage σ))) (voter : Pubkey)
    (blockId : Hash) (vote : VoteMessage σ) :
    Except VotePoolError (OrdMap Pubkey (OrdMap Hash (VoteMessage σ))) :=
  match map[voter]? with
  | none => .ok (map.insert voter ((∅ : OrdMap Hash (VoteMessage σ)).insert blockId vote))
  | some votes =>
    if blockId ∈ votes then .error .duplicate
    else if votes.size = maxNotarFallbackPerValidator then .error .invalid
    else .ok (map.insert voter (votes.insert blockId vote))

/-- Adds a vote unless it contradicts another one or repeats it. -/
def addVote (self : InternalVotePool σ) (voter : Pubkey) (vote : VoteMessage σ) :
    Except VotePoolError (InternalVotePool σ) := do
  match vote.vote with
  | .notarize _ blockId =>
    if voter ∈ self.skip then throw .invalid
    else return { self with notar := ← insertBlockVote self.notar voter blockId vote }
  | .notarizeFallback _ blockId =>
    if voter ∈ self.finalize then throw .invalid
    else
      return { self with
        notarFallback := ← insertNotarFallback self.notarFallback voter blockId vote }
  | .skip _ =>
    if voter ∈ self.notar ∨ voter ∈ self.finalize then throw .invalid
    else return { self with skip := ← insertVote self.skip voter vote }
  | .skipFallback _ =>
    if voter ∈ self.finalize then throw .invalid
    else return { self with skipFallback := ← insertVote self.skipFallback voter vote }
  | .finalize _ =>
    if voter ∈ self.skip ∨ voter ∈ self.skipFallback then throw .invalid
    else if voter ∈ self.notarFallback then throw .invalid
    else return { self with finalize := ← insertVote self.finalize voter vote }
  | .genesis _ blockId =>
    return { self with genesis := ← insertBlockVote self.genesis voter blockId vote }

/-- The messages with exactly this vote. -/
def getVotes (self : InternalVotePool σ) : Vote → List (VoteMessage σ)
  | .finalize _ => self.finalize.values
  | .notarize _ blockId => self.notar.values.filter (·.vote.blockId = some blockId)
  | .notarizeFallback _ blockId => self.notarFallback.values.filterMap (·[blockId]?)
  | .skip _ => self.skip.values
  | .skipFallback _ => self.skipFallback.values
  | .genesis _ blockId => self.genesis.values.filter (·.vote.blockId = some blockId)

end InternalVotePool

/-- The stakes behind the votes for a slot. -/
structure Stakes where
  slot : ℕ
  skip : ℕ
  skipFallback : ℕ
  finalize : ℕ
  notar : OrdMap Hash ℕ
  notarFallback : OrdMap Hash ℕ
  genesis : OrdMap Hash ℕ

namespace Stakes

/-- No stake yet. -/
def new (slot : ℕ) : Stakes := ⟨slot, 0, 0, 0, ∅, ∅, ∅⟩

/-- The stake behind a vote. -/
def getStake (self : Stakes) : Vote → ℕ
  | .notarize _ blockId => self.notar[blockId]?.getD 0
  | .notarizeFallback _ blockId => self.notarFallback[blockId]?.getD 0
  | .skip _ => self.skip
  | .skipFallback _ => self.skipFallback
  | .finalize _ => self.finalize
  | .genesis _ blockId => self.genesis[blockId]?.getD 0

/-- `*stake = (*stake).saturating_add(voter_stake)`, for the entry of `blockId`. -/
def addBlockStake (map : OrdMap Hash ℕ) (blockId : Hash) (voterStake : ℕ) : OrdMap Hash ℕ :=
  map.insert blockId (saturatingAdd u64Max (map[blockId]?.getD 0) voterStake)

/-- `Stakes::add_stake`, without the returned stake: that is `getStake` of the vote afterwards. -/
def addStake (self : Stakes) (voterStake : ℕ) : Vote → Stakes
  | .notarize _ blockId => { self with notar := addBlockStake self.notar blockId voterStake }
  | .notarizeFallback _ blockId =>
    { self with notarFallback := addBlockStake self.notarFallback blockId voterStake }
  | .skip _ => { self with skip := saturatingAdd u64Max self.skip voterStake }
  | .skipFallback _ =>
    { self with skipFallback := saturatingAdd u64Max self.skipFallback voterStake }
  | .finalize _ => { self with finalize := saturatingAdd u64Max self.finalize voterStake }
  | .genesis _ blockId => { self with genesis := addBlockStake self.genesis blockId voterStake }

end Stakes

/-- The votes for a slot with their stakes. -/
structure VotePool (σ : Type) where
  slot : ℕ
  votes : InternalVotePool σ
  stakes : Stakes

namespace VotePool

def new (slot : ℕ) : VotePool σ := ⟨slot, .new slot, .new slot⟩

/-- `VotePool::add_vote`: the total stake of the vote and the pool. -/
def addVote (self : VotePool σ) (voter : Pubkey) (voterStake : ℕ) (msg : VoteMessage σ) :
    Except VotePoolError (ℕ × VotePool σ) := do
  let votes ← self.votes.addVote voter msg
  let stakes := self.stakes.addStake voterStake msg.vote
  return (stakes.getStake msg.vote, { self with votes, stakes })

/-- The stake behind a vote. -/
def getStake (self : VotePool σ) (vote : Vote) : ℕ := self.stakes.getStake vote

/-- The messages with a vote. -/
def getVotes (self : VotePool σ) (vote : Vote) : List (VoteMessage σ) := self.votes.getVotes vote

end VotePool
end Trezoa.Votor
