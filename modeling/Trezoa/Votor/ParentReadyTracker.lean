import Trezoa.Lib.EntryMap
import Trezoa.Votor.Event

/-!
# The parent ready tracker

`votor/src/consensus_pool/parent_ready_tracker.rs`: which blocks a leader may build on in a slot. A
block can be the parent of a block in a later slot when it is notarized or notarized as a fallback
and every slot in between is skipped.

The hash map of the statuses is only accessed through entries with a default. The two open-ended
loops of the source walk up the slots until they meet one that is not skipped; here they get the
number of entries as a bound on their rounds.
-/

namespace Trezoa.Votor

open Lib

def maxEntriesPerPubkeyForNotarizeLite : ℕ := 3

structure ParentReadyStatus where
  /-- `skip`: the slot has a skip certificate. -/
  skip : Bool
  /-- `notar_fallbacks`: the blocks of the slot with a notarize fallback certificate. -/
  notarFallbacks : List Block
  /-- `parents_ready`: the blocks that may be the parent of a block in the slot. -/
  parentsReady : List Block

instance : Inhabited ParentReadyStatus := ⟨⟨false, [], []⟩⟩

structure ParentReadyTracker where
  slotStatuses : EntryMap ℕ ParentReadyStatus
  root : ℕ
  highestWithParentReady : ℕ

namespace ParentReadyTracker

def new (rootBlock : Block) : ParentReadyTracker where
  slotStatuses :=
    (EntryMap.empty.modify rootBlock.1 fun _ => ⟨false, [rootBlock], []⟩).modify
      (rootBlock.1 + 1) fun _ => ⟨false, [], [rootBlock]⟩
  root := rootBlock.1
  highestWithParentReady := rootBlock.1 + 1

/-- The status of a slot. -/
def status (self : ParentReadyTracker) (slot : ℕ) : ParentReadyStatus :=
  self.slotStatuses.get slot

/-- `self.slot_statuses.entry(slot).or_default()`, modified by `f`. -/
def modifyStatus (self : ParentReadyTracker) (slot : ℕ)
    (f : ParentReadyStatus → ParentReadyStatus) : ParentReadyTracker :=
  { self with slotStatuses := self.slotStatuses.modify slot f }

/-- `self.highest_with_parent_ready = s.max(self.highest_with_parent_ready)`. -/
def raiseHighest (self : ParentReadyTracker) (s : ℕ) : ParentReadyTracker :=
  { self with highestWithParentReady := max s self.highestWithParentReady }

/-- A tracker and the events that it has emitted. -/
abbrev WithEvents := ParentReadyTracker × List VotorEvent

/-- Add `block` to the parents of slot `s` that does not have it yet, and notify about the first
slot of a window. -/
def pushParent (s : ℕ) (block : Block) (self : WithEvents) : WithEvents :=
  (self.1.modifyStatus s fun status =>
      { status with parentsReady := status.parentsReady ++ [block] },
    if s % numConsecutiveLeaderSlots = 0 then self.2 ++ [.parentReady s block] else self.2)

/-- The body of the loop of `add_new_notar_fallback_or_stronger`. -/
def addParent (block : Block) (self : WithEvents) (s : ℕ) : WithEvents :=
  if block ∈ (self.1.status s).parentsReady then self
  else
    let self := pushParent s block self
    (self.1.raiseHighest s, self.2)

/-- The loop of `add_new_notar_fallback_or_stronger`. -/
def addParentFrom (block : Block) : ℕ → ℕ → WithEvents → Except Panic WithEvents
  | 0, _, _ => .error .outOfFuel
  | fuel + 1, s, self =>
    let self := addParent block self s
    if (self.1.status s).skip then addParentFrom block fuel (s + 1) self else .ok self

/-- `status.notar_fallbacks.push(block)`, for the status of the block's slot. -/
def pushNotarFallback (self : ParentReadyTracker) (block : Block) : ParentReadyTracker :=
  self.modifyStatus block.1 fun status =>
    { status with notarFallbacks := status.notarFallbacks ++ [block] }

/-- `status.skip = true`, for the status of `slot`. -/
def setSkip (self : ParentReadyTracker) (slot : ℕ) : ParentReadyTracker :=
  self.modifyStatus slot fun status => { status with skip := true }

def addNewNotarFallbackOrStronger (self : WithEvents) (block : Block) :
    Except Panic WithEvents := do
  let slot := block.1
  if slot ≤ self.1.root then
    return self
  else if block ∈ (self.1.status slot).notarFallbacks then
    return self
  else
    let tracker := self.1.pushNotarFallback block
    assert ((tracker.status slot).notarFallbacks.length ≤ maxEntriesPerPubkeyForNotarizeLite)
    addParentFrom block (tracker.slotStatuses.keys.length + 1) (slot + 1) (tracker, self.2)

/-- The first loop of `add_new_skip`: the slots from `s` on, up to the first one that is not
skipped. -/
def futureSlots (self : ParentReadyTracker) : ℕ → ℕ → Except Panic (List ℕ)
  | 0, _ => .error .outOfFuel
  | fuel + 1, s => do
    if (self.status s).skip then
      let slots ← self.futureSlots fuel (s + 1)
      return s :: slots
    else
      return [s]

/-- The blocks that `add_new_skip` passes on from the slot before the skipped one. -/
def potentialParents (status : ParentReadyStatus) : List Block :=
  status.notarFallbacks ++ if status.skip then status.parentsReady else []

/-- The body of the inner loop of `add_new_skip`. -/
def addPotentialParent (s : ℕ) (self : WithEvents) (block : Block) : WithEvents :=
  if block ∈ (self.1.status s).parentsReady then self else pushParent s block self

/-- The body of the outer loop of `add_new_skip`. -/
def addPotentialParents (potentialParents : List Block) (self : WithEvents) (s : ℕ) : WithEvents :=
  let self := potentialParents.foldl (addPotentialParent s) self
  (self.1.raiseHighest s, self.2)

def addNewSkip (self : WithEvents) (slot : ℕ) : Except Panic WithEvents := do
  if slot ≤ self.1.root then
    return self
  else
    let tracker := self.1.setSkip slot
    let futureSlots ← tracker.futureSlots (tracker.slotStatuses.keys.length + 1) (slot + 1)
    let potentialParents := potentialParents (tracker.status (slot - 1))
    if potentialParents = [] then
      return (tracker, self.2)
    else
      return futureSlots.foldl (addPotentialParents potentialParents) (tracker, self.2)

def setRoot (self : ParentReadyTracker) (root : ℕ) : ParentReadyTracker :=
  { self with
    root := root
    slotStatuses := self.slotStatuses.retain (root ≤ ·) }

/-! ## Sequences of calls -/

/-- A call of the consensus pool. -/
inductive Call where
  | addNewNotarFallbackOrStronger (block : Block)
  | addNewSkip (slot : ℕ)
  | setRoot (root : ℕ)

/-- The effect of a call. -/
def call (self : WithEvents) : Call → Except Panic WithEvents
  | .addNewNotarFallbackOrStronger block => addNewNotarFallbackOrStronger self block
  | .addNewSkip slot => addNewSkip self slot
  | .setRoot root => .ok (self.1.setRoot root, self.2)

/-- A sequence of calls on a new tracker, with all events it emits. -/
def run (rootBlock : Block) (calls : List Call) : Except Panic WithEvents :=
  calls.foldlM call (new rootBlock, [])

end ParentReadyTracker
end Trezoa.Votor
