import Trezoa.Lib.Fallible

/-!
# Slot metadata

Models the metadata of a slot of `ledger/src/blockstore_meta.rs`, and how it follows the data shreds
that are inserted (`ledger/src/blockstore.rs`).

Sets of indices that the code keeps sorted are finite sets, read in their order through `range`. The
time of the first shred, the children of the slot and whether it is connected to slot 0, the reports
of duplicates and the mark of a dead slot are left out: nothing modelled reads them.
-/

namespace Trezoa.Ledger

open Lib

/-- Where the code panics. -/
inductive Panic where
  | assertion
  | outOfBounds
deriving DecidableEq

/-! ## Metadata -/

/-- The metadata of a slot. -/
structure SlotMeta where
  slot : ℕ
  consumed : ℕ := 0
  received : ℕ := 0
  lastIndex : Option ℕ := none
  parentSlot : Option ℕ
  completedDataIndexes : Finset ℕ := ∅

namespace SlotMeta

/-- Whether all shreds up to the last one are there. -/
def isFull (m : SlotMeta) : Bool := some m.consumed = m.lastIndex.map fun ix => ix + 1

/-- Whether the parent is not known. -/
def isOrphan (m : SlotMeta) : Bool := m.parentSlot.isNone

/-- A slot without shreds. -/
def new (slot : ℕ) (parentSlot : Option ℕ) : SlotMeta := { slot := slot, parentSlot := parentSlot }

end SlotMeta

/-! ## Sets of indices -/

/-- The indices in `start..end`, in order. -/
def indexRange (s : Finset ℕ) (start stop : ℕ) : List ℕ :=
  (s.filter fun i => start ≤ i ∧ i < stop).sort (· ≤ ·)

/-- The greatest index below a given one. -/
def lastBelow (s : Finset ℕ) (index : ℕ) : Option ℕ := (indexRange s 0 index).getLast?

/-- The least index above a given one. -/
def firstAbove (s : Finset ℕ) (index : ℕ) : Option ℕ :=
  ((s.filter fun i => index + 1 ≤ i).sort (· ≤ ·)).head?

/-- The first index from a given one on that is not in the set. -/
def firstMissing (s : Finset ℕ) (index : ℕ) : ℕ :=
  if index ∈ s then firstMissing s (index + 1) else index
termination_by (s.filter fun i => index ≤ i).card
decreasing_by
  rename_i h
  refine Finset.card_lt_card ⟨fun i hi => ?_, fun hsub => ?_⟩
  · rw [Finset.mem_filter] at hi ⊢
    exact ⟨hi.1, (Nat.le_succ index).trans hi.2⟩
  · have := hsub (Finset.mem_filter.mpr ⟨h, le_rfl⟩)
    rw [Finset.mem_filter] at this
    omega

/-! ## Inserting a data shred -/

/-- The length of the bit vectors of indices. -/
def maxDataShredsPerSlot : ℕ := 32768

/-- What is read of a data shred of the slot. `sanitize` bounds the index, and the flag of the last
shred of the slot has the bit of a complete data set. -/
structure DataShred where
  index : ℕ
  lastInSlot : Bool
  dataComplete : Bool
  /-- Whether the shred has the Merkle root of the other shreds of its set. -/
  merkleRootConsistent : Bool
  index_lt : index < maxDataShredsPerSlot
  dataComplete_of_last : lastInSlot = true → dataComplete = true

/-- Adds an index to the received ones; one out of bounds is ignored. -/
def shredIndexInsert (s : Finset ℕ) (index : ℕ) : Finset ℕ :=
  if index < maxDataShredsPerSlot then insert index s else s

/-- Adds an index to the completed ones; one out of bounds is no word of the vector. -/
def completedInsert (s : Finset ℕ) (index : ℕ) : Except Panic (Finset ℕ) :=
  if index < maxDataShredsPerSlot then .ok (insert index s) else .error .outOfBounds

/-- Why a data shred is not inserted. -/
inductive InsertDataShredError where
  | exists
  | invalidShred
deriving DecidableEq

/-- Whether the parent is not below the root, and below the slot. -/
def verifyShredSlots (slot parent root : ℕ) : Bool :=
  if slot = 0 ∧ parent = 0 ∧ root = 0 then true else root ≤ parent ∧ parent < slot

/-- Whether the shred was inserted before. -/
def isDataShredPresent (shred : DataShred) (slotMeta : SlotMeta) (dataIndex : Finset ℕ) : Bool :=
  shred.index < slotMeta.consumed ∨ shred.index ∈ dataIndex

/-- Whether the shred agrees with the last index, and the slot with the root. -/
def shouldInsertDataShred (shred : DataShred) (slotMeta : SlotMeta) (maxRoot : ℕ) : Bool :=
  if (slotMeta.lastIndex.map fun ix => decide (ix ≤ shred.index)).getD false then false
  else if shred.lastInSlot && shred.index < slotMeta.received then false
  else (slotMeta.parentSlot.map fun parentSlot =>
    verifyShredSlots slotMeta.slot parentSlot maxRoot).getD false

/-- The pairs of neighbours. -/
def tupleWindows (l : List ℕ) : List (ℕ × ℕ) := l.zip l.tail

/-- The ranges of the data sets that are complete with a new shred: those that end with it or begin
after it, or that have it inside. -/
def newlyCompletedRanges (isLastInData : Bool) (newShredIndex : ℕ)
    (receivedDataShreds completed : Finset ℕ) : List (ℕ × ℕ) :=
  let bounds := [((lastBelow completed newShredIndex).map (· + 1)).or (some 0),
    if isLastInData then some (newShredIndex + 1) else none,
    (firstAbove completed newShredIndex).map (· + 1)].filterMap id
  (tupleWindows bounds).filter fun r =>
    indexRange receivedDataShreds r.1 r.2 = List.range' r.1 (r.2 - r.1)

/-- Adds an index to the completed ones if it is the last of a data set. Also the ranges of the data
sets that are complete with it. -/
def updateCompletedDataIndexes (isLastInData : Bool) (newShredIndex : ℕ)
    (receivedDataShreds completedDataIndexes : Finset ℕ) :
    Except Panic (List (ℕ × ℕ) × Finset ℕ) := do
  let completed ← if isLastInData then completedInsert completedDataIndexes newShredIndex
    else .ok completedDataIndexes
  .ok (newlyCompletedRanges isLastInData newShredIndex receivedDataShreds completed, completed)

/-- The metadata with one more shred. Also the ranges of the data sets that are complete with it. -/
def updateSlotMeta (isLastInSlot isLastInData : Bool) (slotMeta : SlotMeta) (index newConsumed : ℕ)
    (receivedDataShreds : Finset ℕ) : Except Panic (List (ℕ × ℕ) × SlotMeta) := do
  let (ranges, completed) ← updateCompletedDataIndexes (isLastInSlot || isLastInData) index
    receivedDataShreds slotMeta.completedDataIndexes
  let lastIndex := if isLastInSlot && slotMeta.lastIndex.isNone then some index
    else slotMeta.lastIndex
  .ok (ranges, { slotMeta with
    received := max (index + 1) slotMeta.received
    consumed := newConsumed
    lastIndex := lastIndex
    completedDataIndexes := completed })

/-- The metadata and the index of a slot. -/
structure SlotShreds where
  slotMeta : SlotMeta
  dataIndex : Finset ℕ

/-- The first missing index with one more shred. -/
def newConsumed (slotMeta : SlotMeta) (dataIndex : Finset ℕ) (index : ℕ) : ℕ :=
  if slotMeta.consumed = index then firstMissing dataIndex (index + 1) else slotMeta.consumed

/-- Inserts a data shred. -/
def insertDataShred (s : SlotShreds) (shred : DataShred) :
    Except Panic (List (ℕ × ℕ) × SlotShreds) :=
  if s.slotMeta.isOrphan then .error .assertion
  else do
    let dataIndex := shredIndexInsert s.dataIndex shred.index
    let (ranges, slotMeta) ← updateSlotMeta shred.lastInSlot shred.dataComplete s.slotMeta
      shred.index (newConsumed s.slotMeta s.dataIndex shred.index) dataIndex
    .ok (ranges, ⟨slotMeta, dataIndex⟩)

/-- An untrusted data shred: why it is rejected, or the ranges of the data sets complete with
it. -/
def checkInsertDataShred (maxRoot : ℕ) (s : SlotShreds) (shred : DataShred) :
    Except Panic (Except InsertDataShredError (List (ℕ × ℕ)) × SlotShreds) :=
  if isDataShredPresent shred s.slotMeta s.dataIndex then .ok (.error .exists, s)
  else if !shouldInsertDataShred shred s.slotMeta maxRoot then .ok (.error .invalidShred, s)
  else if !shred.merkleRootConsistent then .ok (.error .invalidShred, s)
  else (insertDataShred s shred).map fun (ranges, s) => (.ok ranges, s)

/-- The next range of the scan over the completed indices. -/
def scanRanges : ℕ → List ℕ → List (ℕ × ℕ)
  | _, [] => []
  | start, index :: rest => (start, index + 1) :: scanRanges (index + 1) rest

/-- The ranges of the completed data sets before the first missing shred. -/
def getCompletedDataRanges (startIndex : ℕ) (completedDataIndexes : Finset ℕ) (consumed : ℕ) :
    Except Panic (List (ℕ × ℕ)) :=
  if consumed ∈ completedDataIndexes then .error .assertion
  else .ok (scanRanges startIndex (indexRange completedDataIndexes startIndex consumed))

end Trezoa.Ledger
