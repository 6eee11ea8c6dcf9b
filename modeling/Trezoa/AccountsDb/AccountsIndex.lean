import Trezoa.Lib.Latest

/-!
# The accounts index

Models the slot lists of `accounts-db/src/accounts_index.rs`: where the versions of an account are,
by the slot of each, which of them a reader sees, and which of them cleaning removes.

The rolling bit field of the roots is a set with a bound, which does not go down when a root is
removed. An entry of a slot list is anything that may be cached.
-/

namespace Trezoa.AccountsDb

open Lib

/-! ## Roots -/

/-- The alive roots, and a bound on them. -/
structure RootsTracker where
  aliveRoots : Finset ℕ
  maxExclusive : ℕ
  lt_maxExclusive : ∀ root ∈ aliveRoots, root < maxExclusive

/-- The newest root; the bound stays when a root is removed. -/
def RootsTracker.maxInclusive (roots : RootsTracker) : ℕ := roots.maxExclusive - 1

lemma RootsTracker.le_maxInclusive {roots : RootsTracker} {root : ℕ} (h : root ∈ roots.aliveRoots) :
    root ≤ roots.maxInclusive := by
  have := roots.lt_maxExclusive root h
  unfold maxInclusive
  omega

/-! ## Readers -/

section
variable {T : Type}

/-- A version: its slot, and where it is. -/
abbrev SlotListItem (T : Type) := ℕ × T

/-- Takes the slot of an item if it is the greatest so far and satisfies a condition. -/
def latestStep (p : ℕ → Bool) (st : Option ℕ × ℕ) (item : SlotListItem T × ℕ) : Option ℕ × ℕ :=
  if (st.1.isNone || decide (st.2 < item.1.1)) && p item.1.1 then (some item.2, item.1.1) else st

/-- Whether a slot is a root up to the given one. -/
def isRootUpTo (roots : RootsTracker) (maxRootInclusive : Option ℕ) (slot : ℕ) : Bool :=
  maxRootInclusive.all (fun maxRoot => decide (slot ≤ maxRoot)) && decide (slot ∈ roots.aliveRoots)

/-- The latest ancestor in a slot list, by its place from the end. -/
def latestAncestor (ancestors : Option (Finset ℕ)) (slotList : List (SlotListItem T)) :
    Option ℕ × ℕ :=
  match ancestors with
  | none => (none, 0)
  | some ancestors =>
    if ancestors = ∅ then (none, 0)
    else slotList.reverse.zipIdx.foldl (latestStep fun slot => decide (slot ∈ ancestors)) (none, 0)

/-- The place of the latest version at an ancestor or a root. -/
def latestSlot (roots : RootsTracker) (ancestors : Option (Finset ℕ))
    (slotList : List (SlotListItem T)) (maxRootInclusive : Option ℕ) : Option ℕ :=
  let rv := slotList.reverse.zipIdx.foldl (latestStep (isRootUpTo roots maxRootInclusive))
    (latestAncestor ancestors slotList)
  rv.1.map fun index => slotList.length - 1 - index

/-- The version that a reader takes. -/
def latestEntry (roots : RootsTracker) (ancestors : Option (Finset ℕ))
    (slotList : List (SlotListItem T)) (maxRootInclusive : Option ℕ) : Option (SlotListItem T) :=
  (latestSlot roots ancestors slotList maxRootInclusive).bind fun index => slotList[index]?

/-! ## Cleaning -/

variable (isCached : T → Bool)

/-- The newest root in a slot list, up to the given one; zero if there is none. -/
def getNewestRootInSlotList (roots : RootsTracker) (slotList : List (SlotListItem T))
    (maxAllowedRootInclusive : Option ℕ) : ℕ :=
  ((slotList.map Prod.fst).filter (isRootUpTo roots maxAllowedRootInclusive)).max?.getD 0

/-- Whether an entry is below the bound and not the newest root. -/
def canPurgeOlderEntries (maxCleanRootExclusive newestRootInSlotList slot : ℕ) : Bool :=
  decide (slot < maxCleanRootExclusive) && decide (slot ≠ newestRootInSlotList)

/-- The root up to which is cleaned. -/
def cleanRoot (roots : RootsTracker) (maxCleanRootInclusive : Option ℕ) : ℕ :=
  maxCleanRootInclusive.getD roots.maxInclusive

/-- Whether an entry is purged. -/
def shouldPurge (roots : RootsTracker) (slotList : List (SlotListItem T))
    (maxCleanRootInclusive : Option ℕ) (item : SlotListItem T) : Bool :=
  canPurgeOlderEntries (cleanRoot roots maxCleanRootInclusive)
    (getNewestRootInSlotList roots slotList maxCleanRootInclusive) item.1 && !isCached item.2

/-- Removes the entries that are not needed. Also those, after the ones reclaimed before. -/
def purgeOlderRootEntries (roots : RootsTracker) (maxCleanRootInclusive : Option ℕ)
    (slotList reclaims : List (SlotListItem T)) :
    List (SlotListItem T) × List (SlotListItem T) :=
  (slotList.filter fun item => !shouldPurge isCached roots slotList maxCleanRootInclusive item,
    reclaims ++ slotList.filter (shouldPurge isCached roots slotList maxCleanRootInclusive))

/-- Cleans the slot list of a key, which is removed from the index with the last entry. Also whether
the key is not in the index, and what is reclaimed. -/
def cleanRootedEntries (roots : RootsTracker) (maxCleanRootInclusive : Option ℕ)
    (index : ℕ → Option (List (SlotListItem T))) (pubkey : ℕ) (reclaims : List (SlotListItem T)) :
    Bool × (ℕ → Option (List (SlotListItem T))) × List (SlotListItem T) :=
  match index pubkey with
  | none => (true, index, reclaims)
  | some slotList =>
    let purged := purgeOlderRootEntries isCached roots maxCleanRootInclusive slotList reclaims
    if purged.1 = [] then (true, Function.update index pubkey none, purged.2)
    else (false, Function.update index pubkey (some purged.1), purged.2)

end
end Trezoa.AccountsDb
