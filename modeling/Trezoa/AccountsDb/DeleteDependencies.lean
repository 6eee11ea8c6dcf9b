import Trezoa.Lib.Fallible
import Trezoa.Lib.While

/-!
# Purging accounts without lamports

Models the end of `clean_accounts` of `accounts-db/src/accounts_db.rs`: which of the candidates,
whose newest version has no lamports, can be purged with all their versions.

Hash maps and sets are visited in any order: candidates are a list in some order, and a parameter
(`Visits`) gives the order in each round of the loops. Subtractions are checked, and so are the
debug assertions that a candidate has a version.
-/

namespace Trezoa.AccountsDb

open Lib

/-! ## Candidates -/

/-- Where the code panics, or a loop does not end in time. -/
inductive CleanPanic where
  | assertion
  | debugAssertion
  | subtraction
  | unwrapNone
  | outOfFuel
deriving DecidableEq

/-- Where a version is stored, and whether it has no lamports. -/
structure AccountInfo where
  storeId : ℕ
  offset : ℕ
  isZeroLamport : Bool
  isCached : Bool
deriving DecidableEq

/-- A candidate with its `CleaningInfo`: its rooted versions with their slots, and its number of
references. -/
structure Candidate where
  pubkey : ℕ
  slotList : List (ℕ × AccountInfo)
  refCount : ℕ
deriving DecidableEq

/-- The entry with the greatest slot, the last one of them. -/
def newestEntry : List (ℕ × AccountInfo) → Option (ℕ × AccountInfo)
  | [] => none
  | item :: rest =>
    match newestEntry rest with
    | none => some item
    | some best => if best.1 < item.1 then some item else some best

/-- The slots of the versions of a candidate. -/
def Candidate.slots (c : Candidate) : Finset ℕ := (c.slotList.map Prod.fst).toFinset

/-- The order in which sets are visited, in each round. -/
structure Visits where
  pick : ℕ → Finset ℕ → ℕ
  pick_mem : ∀ round set, set.Nonempty → pick round set ∈ set
  order : ℕ → List ℕ → List ℕ
  order_perm : ∀ round keys, (order round keys).Perm keys

/-! ## Store counts -/

/-- What the pass reads: the number of accounts in a store, by slot and identifier, what the
cleaning of older versions has purged and reclaimed, and the references that are left. -/
structure CleanEnv where
  storage : ℕ → ℕ → Option ℕ
  purgedAccountSlots : ℕ → Option (Finset ℕ)
  removedAccounts : ℕ → Option (Finset ℕ)
  refCountFromStorage : ℕ → ℕ

/-- For each slot the number of accounts that are left in its store, and the candidates in it. -/
abbrev StoreCounts := ℕ → Option (ℕ × List ℕ)

/-- Whether a version is already gone, with its slot or alone. -/
def wasRemoved (env : CleanEnv) (pubkey : ℕ) (item : ℕ × AccountInfo) : Bool :=
  (env.purgedAccountSlots pubkey).any (fun slots => decide (item.1 ∈ slots)) ||
    (env.removedAccounts item.1).any fun offsets => decide (item.2.offset ∈ offsets)

/-- A candidate without the versions that are already gone. -/
def retainSlots (env : CleanEnv) (c : Candidate) : Candidate where
  pubkey := c.pubkey
  slotList := c.slotList.filter fun item => !wasRemoved env c.pubkey item
  refCount :=
    if (env.purgedAccountSlots c.pubkey).isSome then env.refCountFromStorage c.pubkey
    else c.refCount

/-- Takes one version out of its store. -/
def countEntry (env : CleanEnv) (pubkey : ℕ) (storeCounts : StoreCounts) (item : ℕ × AccountInfo) :
    Except CleanPanic StoreCounts :=
  match storeCounts item.1 with
  | some (count, keys) =>
    if 0 < count then
      .ok (Function.update storeCounts item.1 (some (count - 1, keys.insert pubkey)))
    else .error .subtraction
  | none =>
    if item.2.isCached then .error .assertion
    else
      match env.storage item.1 item.2.storeId with
      | none => .error .unwrapNone
      | some count =>
        if 0 < count then .ok (Function.update storeCounts item.1 (some (count - 1, [pubkey])))
        else .error .subtraction

/-- Takes the versions of one candidate out of their stores. -/
def countCandidate (env : CleanEnv) (storeCounts : StoreCounts) (c : Candidate) :
    Except CleanPanic StoreCounts :=
  if c.slotList = [] then .error .debugAssertion
  else (retainSlots env c).slotList.foldlM (countEntry env c.pubkey) storeCounts

/-- What is left in the stores if all candidates were purged, and the candidates without the
versions that are already gone. -/
def collectStoreCounts (env : CleanEnv) (candidates : List Candidate) :
    Except CleanPanic (StoreCounts × List Candidate) :=
  (candidates.foldlM (countCandidate env) fun _ => none).map fun storeCounts =>
    (storeCounts, candidates.map (retainSlots env))

/-! ## Dependencies -/

/-- The stores that are left, those that are taken out, those to take out, and the round. -/
structure Worklist where
  storeCounts : StoreCounts
  alreadyCounted : Finset ℕ := ∅
  pendingStores : Finset ℕ := ∅
  round : ℕ := 0

/-- Whether a candidate has all its references, in stores that are empty without the candidates. -/
def canDelete (storeCounts : StoreCounts) (c : Candidate) : Bool :=
  decide (c.slotList.length = c.refCount) &&
    c.slotList.all fun item => decide ((storeCounts item.1).map Prod.fst = some 0)

section
variable (visits : Visits) (candidates : List Candidate)

/-- Adds the stores of a candidate. -/
def updatePendingStores (alreadyCounted pendingStores : Finset ℕ) (key : ℕ) :
    Except CleanPanic (Finset ℕ) :=
  match candidates.find? fun c => decide (c.pubkey = key) with
  | none => .error .unwrapNone
  | some c => .ok (pendingStores ∪ c.slots \ alreadyCounted)

/-- Takes out a store, with those of the candidates in it to follow. -/
def takeOut (w : Worklist) : Except CleanPanic (Option Worklist) :=
  if w.pendingStores = ∅ then .ok none
  else
    let slot := visits.pick w.round w.pendingStores
    let pendingStores := w.pendingStores.erase slot
    if slot ∈ w.alreadyCounted then
      .ok (some { w with pendingStores := pendingStores, round := w.round + 1 })
    else
      let alreadyCounted := insert slot w.alreadyCounted
      match w.storeCounts slot with
      | none => .ok (some ⟨w.storeCounts, alreadyCounted, pendingStores, w.round + 1⟩)
      | some (_, keys) =>
        ((visits.order w.round keys).foldlM (updatePendingStores candidates alreadyCounted)
          pendingStores).map fun pendingStores =>
            some ⟨Function.update w.storeCounts slot none, alreadyCounted, pendingStores,
              w.round + 1⟩

/-- A candidate that cannot be deleted keeps its stores, and all that depend on them. -/
def calcDependencies (fuel : ℕ) (w : Worklist) (c : Candidate) : Except CleanPanic Worklist :=
  if canDelete w.storeCounts c then .ok w
  else whileLoop (takeOut visits candidates) .outOfFuel fuel
    { w with pendingStores := c.slots \ w.alreadyCounted }

/-- The stores that can be deleted. -/
def calcDeleteDependencies (fuel : ℕ) (storeCounts : StoreCounts) : Except CleanPanic StoreCounts :=
  (candidates.foldlM (calcDependencies visits candidates fuel) { storeCounts := storeCounts }).map
    Worklist.storeCounts

end

/-! ## The filter -/

def slotMax : ℕ := 2 ^ 64 - 1

/-- Whether there may be versions above the full snapshot. -/
def shouldFilterForIncrementalSnapshots (maxCleanRoot latestFullSnapshotSlot : Option ℕ) : Bool :=
  decide (latestFullSnapshotSlot.getD slotMax < maxCleanRoot.getD slotMax)

/-- Whether all stores of a candidate can be deleted. -/
def storesDeleted (storeCounts : StoreCounts) (c : Candidate) : Bool :=
  c.slotList.all fun item => decide ((storeCounts item.1).map Prod.fst = some 0)

/-- Keeps a candidate or not. Candidates above the full snapshot are remembered. -/
def filterCandidate (shouldFilter : Bool) (latestFullSnapshotSlot : Option ℕ)
    (storeCounts : StoreCounts) (st : List Candidate × List (ℕ × ℕ)) (c : Candidate) :
    Except CleanPanic (List Candidate × List (ℕ × ℕ)) :=
  if c.slotList = [] then .error .debugAssertion
  else if !storesDeleted storeCounts c then .ok st
  else if !shouldFilter then .ok (st.1 ++ [c], st.2)
  else
    match newestEntry c.slotList with
    | none => .error .unwrapNone
    | some (slot, info) =>
      if !info.isZeroLamport then .error .assertion
      else
        match latestFullSnapshotSlot with
        | none => .error .unwrapNone
        | some full =>
          if full < slot then .ok (st.1, st.2 ++ [(slot, c.pubkey)])
          else .ok (st.1 ++ [c], st.2)

/-- The candidates that are purged, and those that are remembered. -/
def filterZeroLamportClean (maxCleanRoot latestFullSnapshotSlot : Option ℕ)
    (storeCounts : StoreCounts) (candidates : List Candidate) :
    Except CleanPanic (List Candidate × List (ℕ × ℕ)) :=
  let shouldFilter := shouldFilterForIncrementalSnapshots maxCleanRoot latestFullSnapshotSlot
  if latestFullSnapshotSlot.isNone && shouldFilter then .error .assertion
  else candidates.foldlM (filterCandidate shouldFilter latestFullSnapshotSlot storeCounts) ([], [])

/-! ## What can be purged together -/

/-- The keys of candidates with the slots of their versions. -/
def entriesOf (candidates : List Candidate) : List (ℕ × ℕ) :=
  candidates.flatMap fun c => c.slotList.map fun item => (c.pubkey, item.1)

/-- Keys of candidates that can be purged together, where `total` is the number of accounts in the
store of a slot: all references of each are known, in stores that hold candidates only, and the
candidates in these stores are among them. -/
structure Purgeable (total : ℕ → ℕ) (candidates : List Candidate) (keys : Set ℕ) : Prop where
  candidate : ∀ key ∈ keys, ∃ c ∈ candidates, c.pubkey = key
  refCount : ∀ c ∈ candidates, c.pubkey ∈ keys → c.slotList.length = c.refCount
  empty : ∀ c ∈ candidates, c.pubkey ∈ keys → ∀ slot ∈ c.slots,
    total slot - ((entriesOf candidates).map Prod.snd).count slot = 0
  closed : ∀ c ∈ candidates, c.pubkey ∈ keys → ∀ slot ∈ c.slots, ∀ c' ∈ candidates,
    slot ∈ c'.slots → c'.pubkey ∈ keys

end Trezoa.AccountsDb
