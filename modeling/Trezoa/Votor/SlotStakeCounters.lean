import Trezoa.Lib.OrdMap
import Trezoa.Lib.WeightedQuorum
import Trezoa.Votor.EpochStakes
import Trezoa.Votor.Event

/-!
# Slot stake counters

`votor/src/consensus_pool/slot_stake_counters.rs`: from the stakes of the skip and notarize votes of
a slot to the events that allow a node to vote for a fallback.

The ratios of stakes are compared exactly.
-/

namespace Trezoa.Votor

open Lib

structure SlotStakeCounters where
  myFirstVote : Option Vote
  totalStake : ℕ
  skipTotal : ℕ
  notarizeTotal : ℕ
  notarizeEntryTotal : OrdMap Hash ℕ
  topNotarizedStake : ℕ
  safeToNotarSent : List Hash
  safeToSkipSent : Bool

namespace SlotStakeCounters

def new (totalStake : ℕ) : SlotStakeCounters := ⟨none, totalStake, 0, 0, ∅, 0, [], false⟩

/-- `SAFE_TO_NOTAR_MIN_NOTARIZE_ONLY`, in percent. -/
def safeToNotarMinNotarizeOnly : ℕ := 40

/-- `SAFE_TO_NOTAR_MIN_NOTARIZE_FOR_NOTARIZE_OR_SKIP`, in percent. -/
def safeToNotarMinNotarizeForNotarizeOrSkip : ℕ := 20

/-- `SAFE_TO_NOTAR_MIN_NOTARIZE_AND_SKIP`, in percent. -/
def safeToNotarMinNotarizeAndSkip : ℕ := 60

/-- `SAFE_TO_SKIP_THRESHOLD`, in percent. -/
def safeToSkipThreshold : ℕ := 40

/-- A ratio of stakes is at least `percent`. Zero by zero is not a number. -/
def ratioAtLeast (percent stake totalStake : ℕ) : Bool :=
  percent * totalStake ≤ 100 * stake && (stake ≠ 0 || totalStake ≠ 0)

def isSafeToNotar (self : SlotStakeCounters) (blockId : Hash) (stake : ℕ) : Bool :=
  match self.myFirstVote with
  | some (.notarize _ myBlockId) => if myBlockId = blockId then false else enough
  | _ => enough
where
  /-- The conditions on the stakes. -/
  enough : Bool :=
    ratioAtLeast safeToNotarMinNotarizeOnly stake self.totalStake ||
      (ratioAtLeast safeToNotarMinNotarizeForNotarizeOrSkip stake self.totalStake &&
        ratioAtLeast safeToNotarMinNotarizeAndSkip (stake + self.skipTotal) self.totalStake)

def isSafeToSkip (self : SlotStakeCounters) : Bool :=
  match self.myFirstVote with
  | some (.notarize _ _) =>
    ratioAtLeast safeToSkipThreshold
      (saturatingAdd u64Max self.skipTotal (self.notarizeTotal - self.topNotarizedStake))
      self.totalStake
  | _ => false

/-- The counters after a vote; `none` for a kind of vote that is not counted. -/
def count (self : SlotStakeCounters) (entryStake : ℕ) : Vote → Option SlotStakeCounters
  | .skip _ => some { self with skipTotal := entryStake }
  | .notarize _ blockId =>
    let oldEntryStake := self.notarizeEntryTotal[blockId]?.getD 0
    some { self with
      notarizeEntryTotal := self.notarizeEntryTotal.insert blockId entryStake
      notarizeTotal := saturatingAdd u64Max (self.notarizeTotal - oldEntryStake) entryStake
      topNotarizedStake := max self.topNotarizedStake entryStake }
  | _ => none

/-- The body of the loop over the notarized blocks. -/
def checkSafeToNotar (slot : ℕ) (self : SlotStakeCounters × List VotorEvent) (entry : Hash × ℕ) :
    SlotStakeCounters × List VotorEvent :=
  if entry.1 ∉ self.1.safeToNotarSent ∧ self.1.isSafeToNotar entry.1 entry.2 then
    ({ self.1 with safeToNotarSent := self.1.safeToNotarSent ++ [entry.1] },
      self.2 ++ [.safeToNotar (slot, entry.1)])
  else self

/-- The check for safe to skip. -/
def checkSafeToSkip (slot : ℕ) (self : SlotStakeCounters × List VotorEvent) :
    SlotStakeCounters × List VotorEvent :=
  if ¬ self.1.safeToSkipSent ∧ self.1.isSafeToSkip then
    ({ self.1 with safeToSkipSent := true }, self.2 ++ [.safeToSkip slot])
  else self

/-- `SlotStakeCounters::add_vote`, with the list of events it pushes to. -/
def addVote (self : SlotStakeCounters) (vote : Vote) (entryStake : ℕ) (isMyOwnVote : Bool)
    (events : List VotorEvent) : SlotStakeCounters × List VotorEvent :=
  match self.count entryStake vote with
  | none => (self, events)
  | some self =>
    let self :=
      if self.myFirstVote.isNone ∧ isMyOwnVote then { self with myFirstVote := some vote }
      else self
    if self.myFirstVote.isNone then (self, events)
    else
      checkSafeToSkip vote.slot
        (self.notarizeEntryTotal.toList.foldl (checkSafeToNotar vote.slot) (self, events))

end SlotStakeCounters
end Trezoa.Votor
