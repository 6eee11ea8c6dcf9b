import Trezoa.Lib.Fallible
import Trezoa.Lib.OrdMap

/-!
# The status cache

Models `runtime/src/status_cache.rs`: which transactions were processed, by the blockhash they name
and 20 bytes of their key.

The offset is an argument of `insert`. The blockhashes and keys of a slot are cleared in the order
of the second index; those of different blockhashes are in different maps.
-/

namespace Trezoa.Runtime

open Lib

/-- The number of roots that are kept. -/
def maxCacheEntries : ℕ := 300

/-- The number of bytes of a key that are kept. -/
def cachedKeySize : ℕ := 20

/-- Where the code panics. -/
inductive Panic where
  | indexOutOfBounds
  /-- `"Map for key must exist if key exists in self.slot_deltas"` -/
  | keyMustExist
  /-- `"Blockhash must exist if it exists in self.slot_deltas"` -/
  | blockhashMustExist
deriving DecidableEq

/-- The kept bytes of a key. -/
abbrev KeySlice := List UInt8

/-- The statuses of a key on different forks. -/
abbrev ForkStatus (T : Type) := List (ℕ × T)

/-- The highest slot in which a blockhash was named, the offset of its key slices, and their
statuses. -/
structure BlockhashEntry (T : Type) where
  maxSlot : ℕ
  keyIndex : ℕ
  keyMap : OrdMap KeySlice (ForkStatus T)

/-- The statuses that were added during a slot, by blockhash. -/
abbrev Status (T : Type) := OrdMap ℕ (ℕ × List (KeySlice × T))

/-- The cache. -/
structure StatusCache (T : Type) where
  cache : OrdMap ℕ (BlockhashEntry T)
  roots : Std.TreeSet ℕ compare
  slotDeltas : OrdMap ℕ (Status T)

namespace StatusCache

variable {T : Type}

/-- The empty cache; slot 0 is always a root. -/
def default : StatusCache T := ⟨∅, (∅ : Std.TreeSet ℕ compare).insert 0, ∅⟩

/-- The greatest offset of a slice of a key. -/
def maxKeyIndex (key : List UInt8) : ℕ := key.length - (cachedKeySize + 1)

/-- The offset of the slice of a key. -/
def sliceIndex (key : List UInt8) (keyIndex : ℕ) : ℕ := min keyIndex (maxKeyIndex key)

/-- The slice of a key. -/
def keySlice (key : List UInt8) (keyIndex : ℕ) : Except Panic KeySlice :=
  if sliceIndex key keyIndex + cachedKeySize ≤ key.length then
    .ok ((key.drop (sliceIndex key keyIndex)).take cachedKeySize)
  else .error .indexOutOfBounds

/-! ### Clearing a slot -/

/-- Removes the statuses of a slot from a key. -/
def clearKey (slot : ℕ) (keyMap : OrdMap KeySlice (ForkStatus T)) (slice : KeySlice) :
    Except Panic (OrdMap KeySlice (ForkStatus T)) :=
  match keyMap[slice]? with
  | none => .error .keyMustExist
  | some forks =>
    let forks := forks.filter fun f => f.1 ≠ slot
    if forks.isEmpty then .ok (keyMap.erase slice) else .ok (keyMap.insert slice forks)

/-- Removes the statuses of a slot from a blockhash. -/
def clearBlockhash (slot : ℕ) (deltas : Status T) (cache : OrdMap ℕ (BlockhashEntry T))
    (blockhash : ℕ) : Except Panic (OrdMap ℕ (BlockhashEntry T)) :=
  match cache[blockhash]? with
  | none => .error .blockhashMustExist
  | some entry => do
    let keyList := (deltas[blockhash]?.map Prod.snd).getD []
    let keyMap ← (keyList.map Prod.fst).foldlM (clearKey slot) entry.keyMap
    if keyMap.isEmpty then .ok (cache.erase blockhash)
    else .ok (cache.insert blockhash { entry with keyMap := keyMap })

/-- Clears all entries of a slot. -/
def clearSlotEntries (c : StatusCache T) (slot : ℕ) : Except Panic (StatusCache T) :=
  match c.slotDeltas[slot]? with
  | none => .ok c
  | some deltas => (deltas.keys.foldlM (clearBlockhash slot deltas) c.cache).map fun cache =>
    { c with cache := cache, slotDeltas := c.slotDeltas.erase slot }

/-! ### Reading and writing -/

/-- The status of a key on the fork of the ancestors, or in a root. -/
def getStatus (c : StatusCache T) (key : List UInt8) (transactionBlockhash : ℕ)
    (ancestors : ℕ → Bool) : Except Panic (Option (ℕ × T)) :=
  match c.cache[transactionBlockhash]? with
  | none => .ok none
  | some entry => (keySlice key entry.keyIndex).map fun slice =>
    match entry.keyMap[slice]? with
    | none => none
    | some storedForks => storedForks.find? fun f => ancestors f.1 || c.roots.contains f.1

/-- Drops the lowest root if there are too many, with what was not seen above it. -/
def purgeRoots (c : StatusCache T) : StatusCache T :=
  if c.roots.size > maxCacheEntries then
    match c.roots.toList.min? with
    | none => c
    | some min => { cache := c.cache.filter fun _ entry => min < entry.maxSlot
                    roots := c.roots.erase min
                    slotDeltas := c.slotDeltas.filter fun slot _ => min < slot }
  else c

/-- Adds a root. -/
def addRoot (c : StatusCache T) (fork : ℕ) : StatusCache T :=
  purgeRoots { c with roots := c.roots.insert fork }

/-- Adds a key slice to those of its slot and blockhash. -/
def addToSlotDelta (c : StatusCache T) (transactionBlockhash slot keyIndex : ℕ) (slice : KeySlice)
    (res : T) : StatusCache T :=
  let forkEntry := (c.slotDeltas[slot]?).getD ∅
  let hashEntry := (forkEntry[transactionBlockhash]?).getD (keyIndex, [])
  let forkEntry := forkEntry.insert transactionBlockhash
    (hashEntry.1, hashEntry.2 ++ [(slice, res)])
  { c with slotDeltas := c.slotDeltas.insert slot forkEntry }

/-- Inserts the status of a key in a slot; `randomIndex` is the offset for a blockhash that is not
in the cache. -/
def insert (c : StatusCache T) (transactionBlockhash : ℕ) (key : List UInt8) (slot : ℕ) (res : T)
    (randomIndex : ℕ) : Except Panic (StatusCache T) :=
  let entry := (c.cache[transactionBlockhash]?).getD ⟨slot, randomIndex, ∅⟩
  (keySlice key entry.keyIndex).map fun slice =>
    let forks := (entry.keyMap[slice]?).getD []
    let entry := { entry with
      maxSlot := max slot entry.maxSlot
      keyMap := entry.keyMap.insert slice (forks ++ [(slot, res)]) }
    addToSlotDelta { c with cache := c.cache.insert transactionBlockhash entry }
      transactionBlockhash
      slot (sliceIndex key entry.keyIndex) slice res

end StatusCache
end Trezoa.Runtime
