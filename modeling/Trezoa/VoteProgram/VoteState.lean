import Trezoa.Consensus.TowerVoteState

/-!
# The vote state

`programs/vote/src/vote_state/handler.rs`: the part of a vote account that votes change, with the
operations that are shared by all versions of the account.

* `processNextVoteSlot`: the effect of one vote.
-/

namespace Trezoa.VoteProgram

open Consensus

/-- `VoteError`, as far as votes are concerned. -/
inductive VoteError where
  | voteTooOld
  | slotsMismatch
  | slotHashMismatch
  | emptySlots
  | timestampTooOld
  | lockoutConflict
  | newVoteStateLockoutMismatch
  | slotsNotOrdered
  | confirmationsNotOrdered
  | zeroConfirmations
  | confirmationTooLarge
  | rootRollBack
  | confirmationRollBack
  | slotSmallerThanRoot
  | tooManyVotes
  | votesTooOldAllFiltered
  | rootOnDifferentFork
  | assertionFailed
  deriving DecidableEq

/-- How an instruction can fail. `outOfFuel` belongs to the model: a loop exceeded its bound. -/
inductive Failure where
  | vote (e : VoteError)
  | panic
  | outOfFuel
  deriving DecidableEq

/-- A vote with the slots it took to land. -/
structure LandedVote where
  latency : ℕ
  lockout : Lockout
  deriving DecidableEq

namespace LandedVote

/-- The slot of the vote. -/
def slot (self : LandedVote) : ℕ := self.lockout.slot

/-- How often the vote was confirmed. -/
def confirmationCount (self : LandedVote) : ℕ := self.lockout.confirmationCount

/-- `LandedVote::from(lockout)`. -/
def ofLockout (lockout : Lockout) : LandedVote := ⟨0, lockout⟩

end LandedVote

/-- The latest timestamp and its slot. -/
structure BlockTimestamp where
  slot : ℕ
  timestamp : ℤ
  deriving DecidableEq

/-- The part of `VoteStateV3` and `VoteStateV4` that votes read and change. -/
structure VoteState where
  votes : List LandedVote
  rootSlot : Option ℕ
  /-- `epoch_credits`: epoch, credits and previous credits. -/
  epochCredits : List (ℕ × ℕ × ℕ)
  lastTimestamp : BlockTimestamp
  deriving DecidableEq

/-- Votes that land within so many slots get all credits. -/
def voteCreditsGraceSlots : ℕ := 2

/-- The credits of a vote that lands in time. -/
def voteCreditsMaximumPerSlot : ℕ := 16

/-- Credits are kept for so many epochs. -/
def maxEpochCreditsHistory : ℕ := 64

/-- The slots between a vote and its landing, a `u8`. -/
def computeVoteLatency (votedForSlot currentSlot : ℕ) : ℕ := min (currentSlot - votedForSlot) 255

namespace VoteState

/-- A vote account without votes. -/
def new : VoteState := ⟨[], none, [], ⟨0, 0⟩⟩

/-- `contains_slot`. The binary search finds a slot that is there, as the votes are ordered. -/
def containsSlot (self : VoteState) (candidateSlot : ℕ) : Bool :=
  self.votes.any (·.slot == candidateSlot)

/-- The lockout of the latest vote. -/
def lastLockout (self : VoteState) : Option Lockout := self.votes.getLast?.map (·.lockout)

/-- The slot of the latest vote. -/
def lastVotedSlot (self : VoteState) : Option ℕ := self.lastLockout.map (·.slot)

/-- A vote earns less the later it landed; without a latency, one credit. -/
def creditsForVoteAtIndex (self : VoteState) (index : ℕ) : ℕ :=
  let latency := (self.votes[index]?.map (·.latency)).getD 0
  if latency = 0 then 1
  else if latency - voteCreditsGraceSlots = 0 then voteCreditsMaximumPerSlot
  else if voteCreditsMaximumPerSlot - (latency - voteCreditsGraceSlots) = 0 then 1
  else voteCreditsMaximumPerSlot - (latency - voteCreditsGraceSlots)

/-- The entries of `increment_credits` before the credits are added: the last one is for `epoch`. -/
def creditsEntries (self : VoteState) (epoch : ℕ) : List (ℕ × ℕ × ℕ) :=
  match self.epochCredits.getLast? with
  | none => [(epoch, 0, 0)]
  | some (lastEpoch, credits, prevCredits) =>
    if epoch ≠ lastEpoch then
      let entries :=
        if credits ≠ prevCredits then self.epochCredits ++ [(epoch, credits, credits)]
        else self.epochCredits.dropLast ++ [(epoch, credits, prevCredits)]
      if maxEpochCreditsHistory < entries.length then entries.tail else entries
    else self.epochCredits

/-- Adds credits to an epoch. -/
def incrementCredits (self : VoteState) (epoch credits : ℕ) : VoteState :=
  let entries := self.creditsEntries epoch
  { self with
    epochCredits := entries.dropLast ++ entries.getLast?.toList.map fun (epoch, last, prev) =>
      (epoch, min (last + credits) u64Max, prev) }

/-- A timestamp may not go back, nor change for a slot but the first. -/
def processTimestamp (self : VoteState) (slot : ℕ) (timestamp : ℤ) : Except VoteError VoteState :=
  if (slot < self.lastTimestamp.slot ∨ timestamp < self.lastTimestamp.timestamp) ∨
      (slot = self.lastTimestamp.slot ∧ ⟨slot, timestamp⟩ ≠ self.lastTimestamp ∧
        self.lastTimestamp.slot ≠ 0) then
    .error .timestampTooOld
  else .ok { self with lastTimestamp := ⟨slot, timestamp⟩ }

/-- The votes that expire before the slot are popped. -/
def popExpiredVotes (self : VoteState) (nextVoteSlot : ℕ) : VoteState :=
  { self with votes := VoteProgram.popExpiredVotes (·.lockout) self.votes nextVoteSlot }

/-- The lockouts that got deeper are doubled. -/
def doubleLockouts (self : VoteState) : VoteState :=
  { self with
    votes := VoteProgram.doubleLockouts (·.lockout) (fun vote l => { vote with lockout := l })
      self.votes }

/-- The step of `process_next_vote_slot` for a full stack. -/
def rootOldest (self : VoteState) (epoch : ℕ) : VoteState :=
  if self.votes.length = maxLockoutHistory then
    let credits := self.creditsForVoteAtIndex 0
    match self.votes with
    | [] => self
    | landedVote :: votes =>
      { self with votes := votes, rootSlot := some landedVote.slot }.incrementCredits epoch credits
  else self

/-- A vote for a slot enters the tower. -/
def processNextVoteSlot (self : VoteState) (nextVoteSlot epoch currentSlot : ℕ) : VoteState :=
  if self.lastVotedSlot.any (nextVoteSlot ≤ ·) then self
  else
    let landedVote : LandedVote :=
      ⟨computeVoteLatency nextVoteSlot currentSlot, Lockout.new nextVoteSlot⟩
    let self := (self.popExpiredVotes nextVoteSlot).rootOldest epoch
    { self with votes := self.votes ++ [landedVote] }.doubleLockouts

/-- `TowerVoteState::from(vote_state)`. -/
def toTowerVoteState (self : VoteState) : TowerVoteState :=
  ⟨self.votes.map (·.lockout), self.rootSlot⟩

/-! ## The tower of a vote state -/

variable {self : VoteState} {slot : ℕ}

/-- The lockouts alone have the latest vote. -/
lemma lastVotedSlot_toTowerVoteState :
    self.toTowerVoteState.lastVotedSlot = self.lastVotedSlot := by
  simp [TowerVoteState.lastVotedSlot, TowerVoteState.lastLockout, toTowerVoteState, lastVotedSlot,
    lastLockout]

/-- Popping votes only looks at lockouts. -/
lemma toTowerVoteState_popExpiredVotes :
    (self.popExpiredVotes slot).toTowerVoteState = self.toTowerVoteState.popExpiredVotes slot := by
  simp [popExpiredVotes, toTowerVoteState, TowerVoteState.popExpiredVotes, map_popExpiredVotes]

/-- Doubling only looks at lockouts. -/
lemma toTowerVoteState_doubleLockouts :
    self.doubleLockouts.toTowerVoteState = self.toTowerVoteState.doubleLockouts := by
  simp [doubleLockouts, toTowerVoteState, TowerVoteState.doubleLockouts, map_doubleLockouts]

/-- The oldest vote becomes the root there as well. -/
lemma toTowerVoteState_rootOldest (epoch : ℕ) :
    (self.rootOldest epoch).toTowerVoteState = self.toTowerVoteState.rootOldest := by
  unfold rootOldest TowerVoteState.rootOldest toTowerVoteState
  simp only [List.length_map]
  split
  · cases hvotes : self.votes with
    | nil => simp [hvotes]
    | cons vote votes => rfl
  · rfl

/-- On votes and root, a vote has the effect that it has on the local tower. -/
theorem toTowerVoteState_processNextVoteSlot (epoch currentSlot : ℕ) :
    (self.processNextVoteSlot slot epoch currentSlot).toTowerVoteState =
      self.toTowerVoteState.processNextVoteSlot slot := by
  unfold processNextVoteSlot TowerVoteState.processNextVoteSlot
  rw [lastVotedSlot_toTowerVoteState]
  split
  · rfl
  · rw [toTowerVoteState_doubleLockouts, ← toTowerVoteState_popExpiredVotes,
      ← toTowerVoteState_rootOldest epoch]
    simp [toTowerVoteState]

/-- So the two agree after any votes, whatever the epochs and the current slots. -/
theorem tower_replica_agrees (self : VoteState) (votes : List (ℕ × ℕ × ℕ)) :
    (votes.foldl (fun self (slot, epoch, currentSlot) =>
        self.processNextVoteSlot slot epoch currentSlot) self).toTowerVoteState =
      (votes.map Prod.fst).foldl .processNextVoteSlot self.toTowerVoteState := by
  induction votes generalizing self with
  | nil => rfl
  | cons vote votes ih => simp [ih, toTowerVoteState_processNextVoteSlot]

/-- Credits are not part of the tower. -/
lemma toTowerVoteState_incrementCredits (epoch credits : ℕ) :
    (self.incrementCredits epoch credits).toTowerVoteState = self.toTowerVoteState := rfl

end VoteState
end Trezoa.VoteProgram
