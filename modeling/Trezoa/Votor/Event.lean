import Trezoa.Votor.Messages

/-!
# The events of votor

`votor/src/event.rs`: what the consensus pool, replay and the timers tell the event handler.

* `VotorEvent`, `VotorEvent.shouldIgnore`: the events and the filter on old ones.
-/

namespace Trezoa.Votor

/-- A parent of a bank that is still in memory: its slot and block id. -/
structure ParentBank where
  slot : ℕ
  blockId : Option Hash
  deriving DecidableEq

/-- The part of `Bank` that the event handler reads. -/
structure Bank where
  slot : ℕ
  blockId : Option Hash
  parentSlot : ℕ
  /-- `parent`: absent once the parent is squashed into a root. -/
  parent : Option ParentBank
  isFrozen : Bool
  deriving DecidableEq

def Bank.parentBlockId (self : Bank) : Option Hash :=
  self.parent.bind ParentBank.blockId

/-- `CompletedBlock`: a bank that replay has frozen, under its own slot. -/
structure CompletedBlock where
  slot : ℕ
  bank : Bank
  bank_slot : bank.slot = slot
  deriving DecidableEq

inductive VotorEvent where
  | block (completedBlock : CompletedBlock)
  | blockNotarized (block : Block)
  | firstShred (slot : ℕ)
  | parentReady (slot : ℕ) (parentBlock : Block)
  | timeoutCrashedLeader (slot : ℕ)
  | timeout (slot : ℕ)
  | safeToNotar (block : Block)
  | safeToSkip (slot : ℕ)
  | produceWindow
  | finalized (block : Block) (isFastFinalization : Bool)
  | standstill (highestFinalizedSlot : ℕ)
  | setIdentity
  deriving DecidableEq

def VotorEvent.shouldIgnore (root : ℕ) : VotorEvent → Bool
  | .block completedBlock => completedBlock.slot ≤ root
  | .timeout slot | .safeToSkip slot | .timeoutCrashedLeader slot | .firstShred slot => slot ≤ root
  | .safeToNotar (slot, _) | .finalized (slot, _) _ | .blockNotarized (slot, _) => slot ≤ root
  | .parentReady slot _ => slot ≤ root
  | .produceWindow | .standstill _ | .setIdentity => false

end Trezoa.Votor
