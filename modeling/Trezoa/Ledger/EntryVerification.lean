import Trezoa.Lib.Fallible
import Trezoa.Lib.WeightedQuorum

/-!
# Verification of the entries of a slot

The entries of a block reach `confirm_slot_entries` in slices. Of each slice `verify_ticks` checks
the ticks and the hashes counted between them, and `EntrySlice::verify` the chain of hashes; the
tick height, the hash count and the last hash are carried to the next slice.

* `CutsAllow`: what the cuts add. The test at the end of a slice asks for fewer hashes than a tick
  needs, so a slice that ends just before a tick without hashes fails where the longer slice passes
  (`confirmSlices_zeroHashTick`).
* `confirmSlices_iff_full`: the slices pass exactly if the whole does and the cuts allow it.
-/

namespace Trezoa.Ledger

open Lib List Option

variable {Hash Tx : Type}

/-- `u64::MAX`; as `hashes_per_tick` of a `Poh` the low power mode. -/
def u64Max : ℕ := 2 ^ 64 - 1

/-! ## Proof of history -/

/-- The hash functions; `hashTransactions` is `hash_transactions`. -/
structure EntryHasher (Hash Tx : Type) where
  hash : Hash → Hash
  hashv : Hash → Hash → Hash
  hashTransactions : List Tx → Hash

/-- What `next_hash` reads of a `Poh`. -/
structure Poh (Hash : Type) where
  hash : Hash
  hashesPerTick : ℕ
  remainingHashesUntilTick : ℕ

/-- `Poh::new(hash, None)`. -/
def Poh.new (hash : Hash) : Poh Hash := ⟨hash, u64Max, u64Max⟩

/-- An entry of a block. -/
structure Entry (Hash Tx : Type) where
  numHashes : ℕ
  hash : Hash
  transactions : List Tx

/-- A tick has no transactions. -/
def Entry.isTick (entry : Entry Hash Tx) : Bool := entry.transactions.isEmpty

section hashing
variable (hasher : EntryHasher Hash Tx)

/-- `Poh::hash`. -/
def Poh.hashUpTo (poh : Poh Hash) (maxNumHashes : ℕ) : Poh Hash :=
  let numHashes := min (poh.remainingHashesUntilTick - 1) maxNumHashes
  { poh with
    hash := hasher.hash^[numHashes] poh.hash
    remainingHashesUntilTick := poh.remainingHashesUntilTick - numHashes }

/-- Mixes in the hash of transactions. -/
def Poh.record (poh : Poh Hash) (mixin : Hash) : Option (Poh Hash) :=
  if poh.remainingHashesUntilTick = 1 then none
  else some { poh with
    hash := hasher.hashv poh.hash mixin
    remainingHashesUntilTick := poh.remainingHashesUntilTick - 1 }

/-- A hash for a tick. -/
def Poh.tick (poh : Poh Hash) : Option (Poh Hash) :=
  if poh.hashesPerTick ≠ u64Max ∧ poh.remainingHashesUntilTick - 1 ≠ 0 then none
  else some { poh with
    hash := hasher.hash poh.hash
    remainingHashesUntilTick := poh.hashesPerTick }

/-- `next_hash`; `none` if an `unwrap` panics. -/
def nextHash (startHash : Hash) (numHashes : ℕ) (transactions : List Tx) : Option Hash :=
  if numHashes = 0 ∧ transactions.isEmpty then some startHash
  else
    let poh := (Poh.new startHash).hashUpTo hasher (numHashes - 1)
    if transactions.isEmpty then (poh.tick hasher).map Poh.hash
    else (poh.record hasher (hasher.hashTransactions transactions)).map Poh.hash

/-- `Entry::verify`; a panic is not a pass. -/
def Entry.verify [DecidableEq Hash] (entry : Entry Hash Tx) (startHash : Hash) : Bool :=
  nextHash hasher startHash entry.numHashes entry.transactions = some entry.hash

/-- `verify_cpu_generic`: each entry with the hash before it. -/
def verifyCpuGeneric [DecidableEq Hash] (startHash : Hash) (entries : List (Entry Hash Tx)) :
    Bool :=
  ((startHash :: entries.map (·.hash)).zip entries).all fun x => x.2.verify hasher x.1

end hashing

/-! ## Ticks -/

/-- One entry in the loop of `verify_tick_hash_count`; `none` is its `return false`. -/
def countEntry (hashesPerTick tickHashCount : ℕ) (entry : Entry Hash Tx) : Option ℕ :=
  let tickHashCount := saturatingAdd u64Max tickHashCount entry.numHashes
  if entry.isTick then if tickHashCount ≠ hashesPerTick then none else some 0
  else some tickHashCount

/-- `verify_tick_hash_count`: the carried count, or `none` if it returns `false`. -/
def verifyTickHashCount (entries : List (Entry Hash Tx)) (tickHashCount hashesPerTick : ℕ) :
    Option ℕ :=
  if hashesPerTick = 0 then some tickHashCount
  else (entries.foldlM (countEntry hashesPerTick) tickHashCount).bind fun tickHashCount =>
    if tickHashCount < hashesPerTick then some tickHashCount else none

def tickCount (entries : List (Entry Hash Tx)) : ℕ := (entries.filter (·.isTick)).length

/-- The errors of the tick checks. -/
inductive BlockError
  | tooManyTicks
  | tooFewTicks
  | trailingEntry
  | invalidLastTick
  | invalidTickHashCount
  | invalidEntryHash

/-- What `verify_ticks` reads of a bank; `firstAlpenglowSlot` is the slot its feature set activates
Alpenglow at. -/
structure TickBank where
  slot : ℕ
  parentSlot : ℕ
  parentSlot_le : parentSlot ≤ slot
  tickHeight : ℕ
  maxTickHeight : ℕ
  hashesPerTick : Option ℕ
  hashesPerTick_le : hashesPerTick.getD 0 ≤ u64Max
  firstAlpenglowSlot : Option ℕ

namespace TickBank

/-- The bank after the ticks of a slice. -/
def registerTicks (bank : TickBank) (entries : List (Entry Hash Tx)) : TickBank :=
  { bank with tickHeight := bank.tickHeight + tickCount entries }

/-- The entries whose hashes `verify_ticks` counts; `none` if it returns before. -/
def countedEntries (bank : TickBank) (entries : List (Entry Hash Tx)) :
    Option (List (Entry Hash Tx)) :=
  match bank.firstAlpenglowSlot with
  | none => some entries
  | some firstAlpenglowSlot =>
    if firstAlpenglowSlot ≤ bank.parentSlot then none
    else if firstAlpenglowSlot ≤ bank.slot ∧
        bank.tickHeight + tickCount entries = bank.maxTickHeight then
      if entries.isEmpty then none else some entries.dropLast
    else some entries

/-- The slot is before the first Alpenglow slot. -/
def BeforeAlpenglow (bank : TickBank) : Prop := ∀ slot ∈ bank.firstAlpenglowSlot, bank.slot < slot

end TickBank

def hasTrailingEntry (entries : List (Entry Hash Tx)) : Bool :=
  (entries.getLast?.map fun entry => !entry.isTick).getD false

/-- `verify_ticks`, with the tick hash count after the slice. -/
def verifyTicks (bank : TickBank) (entries : List (Entry Hash Tx)) (slotFull : Bool)
    (tickHashCount : ℕ) : Except BlockError ℕ :=
  let nextBankTickHeight := bank.tickHeight + tickCount entries
  if bank.maxTickHeight < nextBankTickHeight then .error .tooManyTicks
  else if nextBankTickHeight < bank.maxTickHeight ∧ slotFull then .error .tooFewTicks
  else if nextBankTickHeight = bank.maxTickHeight ∧ hasTrailingEntry entries then
    .error .trailingEntry
  else if nextBankTickHeight = bank.maxTickHeight ∧ !slotFull then .error .invalidLastTick
  else match bank.countedEntries entries with
    | none => .ok tickHashCount
    | some entries =>
      match verifyTickHashCount entries tickHashCount (bank.hashesPerTick.getD 0) with
      | none => .error .invalidTickHashCount
      | some tickHashCount => .ok tickHashCount

/-! ## Slices -/

/-- What `ConfirmationProgress` carries from slice to slice. -/
structure ConfirmationProgress (Hash : Type) where
  tickHashCount : ℕ
  lastEntry : Hash

/-- The hash after the entries. -/
def lastHash (startHash : Hash) (entries : List (Entry Hash Tx)) : Hash :=
  (entries.map (·.hash)).getLastD startHash

section confirm
variable (hasher : EntryHasher Hash Tx) [DecidableEq Hash]

/-- The verification of a slice in `confirm_slot_entries`, before its transactions run. -/
def confirmSlotEntries (bank : TickBank) (progress : ConfirmationProgress Hash)
    (entries : List (Entry Hash Tx)) (slotFull : Bool) :
    Except BlockError (ConfirmationProgress Hash) :=
  verifyTicks bank entries slotFull progress.tickHashCount >>= fun tickHashCount =>
    if verifyCpuGeneric hasher progress.lastEntry entries then
      .ok ⟨tickHashCount, lastHash progress.lastEntry entries⟩
    else .error .invalidEntryHash

/-- Slices one after another, the last one marked full. -/
def confirmSlices : TickBank → ConfirmationProgress Hash → List (List (Entry Hash Tx)) →
    Except BlockError (ConfirmationProgress Hash)
  | _, progress, [] => .ok progress
  | bank, progress, entries :: slices =>
    confirmSlotEntries hasher bank progress entries slices.isEmpty >>= fun progress =>
      confirmSlices (bank.registerTicks entries) progress slices

end confirm

/-! ## What the checks are for -/

/-- Each entry's hash is the one after the hash before it. -/
def ChainsFrom (hasher : EntryHasher Hash Tx) : Hash → List (Entry Hash Tx) → Prop
  | _, [] => True
  | startHash, entry :: entries =>
    nextHash hasher startHash entry.numHashes entry.transactions = some entry.hash ∧
      ChainsFrom hasher entry.hash entries

/-- The hashes up to each tick from the one before it, from `count` hashes on. -/
def hashesAtTicks : ℕ → List (Entry Hash Tx) → List ℕ
  | _, [] => []
  | count, entry :: entries =>
    if entry.isTick then (count + entry.numHashes) :: hashesAtTicks 0 entries
    else hashesAtTicks (count + entry.numHashes) entries

/-- The hashes since the last tick, from `count` hashes on. -/
def hashesSinceTick : ℕ → List (Entry Hash Tx) → ℕ
  | count, [] => count
  | count, entry :: entries =>
    if entry.isTick then hashesSinceTick 0 entries
    else hashesSinceTick (count + entry.numHashes) entries

/-- At each cut fewer hashes are counted than a tick needs. -/
def CutsAllow (hashesPerTick : ℕ) : ℕ → List (List (Entry Hash Tx)) → Prop
  | count, entries :: next :: slices => hashesSinceTick count entries < hashesPerTick ∧
    CutsAllow hashesPerTick (hashesSinceTick count entries) (next :: slices)
  | _, _ => True

/-- The entries are those missing in the slot of the bank; the code does not count beyond
`u64Max`. -/
structure CompleteBlock (hasher : EntryHasher Hash Tx) (bank : TickBank)
    (progress : ConfirmationProgress Hash) (entries : List (Entry Hash Tx)) : Prop where
  ticks : bank.tickHeight + tickCount entries = bank.maxTickHeight
  last : ∃ tick ∈ entries.getLast?, tick.isTick
  chain : ChainsFrom hasher progress.lastEntry entries
  hashes : bank.hashesPerTick.getD 0 ≠ 0 →
    ∀ n ∈ hashesAtTicks progress.tickHashCount entries, min n u64Max = bank.hashesPerTick.getD 0

variable {hasher : EntryHasher Hash Tx} {startHash : Hash} {l l' : List (Entry Hash Tx)}

/-! ## The hash chain -/

lemma lastHash_cons {entry : Entry Hash Tx} :
    lastHash startHash (entry :: l) = lastHash entry.hash l := getLastD_cons

lemma lastHash_append : lastHash startHash (l ++ l') = lastHash (lastHash startHash l) l' := by
  induction l generalizing startHash with
  | nil => rfl
  | cons entry l ih => rw [cons_append, lastHash_cons, lastHash_cons, ih]

lemma chainsFrom_append : ChainsFrom hasher startHash (l ++ l') ↔
    ChainsFrom hasher startHash l ∧ ChainsFrom hasher (lastHash startHash l) l' := by
  induction l generalizing startHash with
  | nil => exact (and_iff_right trivial).symm
  | cons entry l ih => rw [cons_append, ChainsFrom, ChainsFrom, ih, lastHash_cons, and_assoc]

/-- The check of the hashes is the chain. -/
lemma verifyCpuGeneric_iff [DecidableEq Hash] :
    verifyCpuGeneric hasher startHash l = true ↔ ChainsFrom hasher startHash l := by
  induction l generalizing startHash with
  | nil => exact iff_of_true rfl trivial
  | cons entry l ih =>
    rw [ChainsFrom, ← ih, ← @decide_eq_true_iff (_ = some entry.hash), ← Bool.and_eq_true]
    rfl

/-! ## The hash count -/

section count
variable {hashesPerTick count count' : ℕ}

/-- The counter of the loop is the number of hashes since the last tick, up to the bound. -/
lemma foldlM_countEntry {counter : ℕ} (hcounter : min counter u64Max = min count u64Max)
    (h : l.foldlM (countEntry hashesPerTick) counter = some count') :
    min count' u64Max = min (hashesSinceTick count l) u64Max ∧
      ∀ n ∈ hashesAtTicks count l, min n u64Max = hashesPerTick := by
  induction l generalizing count counter with
  | nil =>
    cases h
    exact ⟨hcounter, fun n hn => (not_mem_nil hn).elim⟩
  | cons entry l ih =>
    rw [foldlM_cons] at h
    obtain ⟨next, hnext, hrest⟩ := bind_eq_some_iff.mp h
    have hsum : saturatingAdd u64Max counter entry.numHashes =
        min (count + entry.numHashes) u64Max := by
      unfold saturatingAdd
      omega
    rw [countEntry, hsum] at hnext
    rw [hashesAtTicks, hashesSinceTick]
    split_ifs at hnext ⊢ with htick hcount
    · obtain rfl : 0 = next := some.inj hnext
      obtain ⟨hsince, hticks⟩ := ih rfl hrest
      exact ⟨hsince, forall_mem_cons.mpr ⟨not_ne_iff.mp hcount, hticks⟩⟩
    · cases hnext
      exact ih (by omega) hrest

/-- What passes is counted at each tick and ends below the limit. -/
lemma verifyTickHashCount_eq_some (hne : hashesPerTick ≠ 0) :
    verifyTickHashCount l count hashesPerTick = some count' ↔
      l.foldlM (countEntry hashesPerTick) count = some count' ∧ count' < hashesPerTick := by
  simp only [verifyTickHashCount, if_neg hne, bind_eq_some_iff, ite_none_right_eq_some, some.injEq]
  constructor
  · rintro ⟨_, hfold, hlt, rfl⟩
    exact ⟨hfold, hlt⟩
  · rintro ⟨hfold, hlt⟩
    exact ⟨_, hfold, hlt, rfl⟩

variable (hmax : hashesPerTick ≤ u64Max)
include hmax

/-- A count below the hashes of a tick is not cut off. -/
lemma eq_hashesSinceTick (h : l.foldlM (countEntry hashesPerTick) count = some count')
    (hlt : min count' (hashesSinceTick count l) < hashesPerTick) :
    count' = hashesSinceTick count l := by
  have hsince := (foldlM_countEntry rfl h).1
  omega

/-- The test at the end of a slice asks that the cut allows it, and for nothing else. -/
theorem verifyTickHashCount_append :
    (∃ carried, verifyTickHashCount l count hashesPerTick = some carried ∧
      verifyTickHashCount l' carried hashesPerTick = some count') ↔
    verifyTickHashCount (l ++ l') count hashesPerTick = some count' ∧
      (hashesPerTick ≠ 0 → hashesSinceTick count l < hashesPerTick) := by
  rcases eq_or_ne hashesPerTick 0 with hzero | hne
  · simp [hzero, verifyTickHashCount]
  simp only [verifyTickHashCount_eq_some hne, foldlM_append, bind_eq_bind, bind_eq_some_iff]
  constructor
  · rintro ⟨carried, ⟨hcarried, hlt⟩, hlast, hlt'⟩
    have hsince := eq_hashesSinceTick hmax hcarried (min_lt_of_left_lt hlt)
    exact ⟨⟨⟨carried, hcarried, hlast⟩, hlt'⟩, fun _ => hsince ▸ hlt⟩
  · rintro ⟨⟨⟨carried, hcarried, hlast⟩, hlt'⟩, hcut⟩
    have hsince := eq_hashesSinceTick hmax hcarried (min_lt_of_right_lt (hcut hne))
    exact ⟨carried, ⟨hcarried, hsince ▸ hcut hne⟩, hlast, hlt'⟩

end count

/-! ## Slices -/

section slices
variable {bank : TickBank} {progress after : ConfirmationProgress Hash}

lemma tickCount_append : tickCount (l ++ l') = tickCount l + tickCount l' := by
  rw [tickCount, filter_append, length_append]
  rfl

lemma hasTrailingEntry_append (hne : l' ≠ []) :
    hasTrailingEntry (l ++ l') = hasTrailingEntry l' := by
  rw [hasTrailingEntry, getLast?_append_of_ne_nil l hne]
  rfl

lemma exists_tick_of_hasTrailingEntry (hne : l ≠ []) (h : hasTrailingEntry l = false) :
    ∃ tick ∈ l.getLast?, tick.isTick := by
  rw [hasTrailingEntry, getLast?_eq_some_getLast hne] at h
  refine ⟨l.getLast hne, getLast?_eq_some_getLast hne, ?_⟩
  simpa using h

lemma tickCount_pos (hne : l ≠ []) (h : hasTrailingEntry l = false) : 0 < tickCount l := by
  obtain ⟨tick, hlast, htick⟩ := exists_tick_of_hasTrailingEntry hne h
  exact length_pos_of_mem (mem_filter.mpr ⟨mem_of_getLast? hlast, htick⟩)

lemma TickBank.BeforeAlpenglow.countedEntries_eq (h : bank.BeforeAlpenglow) :
    bank.countedEntries l = some l := by
  unfold countedEntries
  rcases hfirst : bank.firstAlpenglowSlot with _ | first
  · rfl
  have hlt := h first hfirst
  have hparent := bank.parentSlot_le
  dsimp only
  rw [if_neg (by omega), if_neg (by omega)]

/-- What is asked of the tick height at the end of a slice. -/
def HeightAllows (bank : TickBank) (entries : List (Entry Hash Tx)) : Bool → Prop
  | true => bank.tickHeight + tickCount entries = bank.maxTickHeight ∧
      hasTrailingEntry entries = false
  | false => bank.tickHeight + tickCount entries < bank.maxTickHeight

/-- The checks on ticks, without their errors. -/
lemma verifyTicks_eq_ok (hbefore : bank.BeforeAlpenglow) {slotFull : Bool} {count count' : ℕ} :
    verifyTicks bank l slotFull count = .ok count' ↔ HeightAllows bank l slotFull ∧
      verifyTickHashCount l count (bank.hashesPerTick.getD 0) = some count' := by
  rw [verifyTicks, hbefore.countedEntries_eq]
  dsimp only
  cases verifyTickHashCount l count (bank.hashesPerTick.getD 0) <;> cases slotFull <;>
    rw [HeightAllows] <;> split_ifs <;> grind

variable [DecidableEq Hash]

/-- A slice passes if the ticks and the hashes do. -/
lemma confirmSlotEntries_eq_ok (hbefore : bank.BeforeAlpenglow) {slotFull : Bool} :
    confirmSlotEntries hasher bank progress l slotFull = .ok after ↔
      HeightAllows bank l slotFull ∧
      verifyTickHashCount l progress.tickHashCount (bank.hashesPerTick.getD 0) =
        some after.tickHashCount ∧
      ChainsFrom hasher progress.lastEntry l ∧ after.lastEntry = lastHash progress.lastEntry l := by
  obtain ⟨count, last⟩ := after
  rw [confirmSlotEntries, bind_eq_ok]
  simp only [verifyTicks_eq_ok hbefore, ← verifyCpuGeneric_iff]
  split_ifs with h
  · simp [h, and_assoc, eq_comm]
  · simp [h]

/-- One slice and the rest. -/
lemma confirmSlotEntries_append (hbefore : bank.BeforeAlpenglow) (hne : l' ≠ []) :
    (∃ between, confirmSlotEntries hasher bank progress l false = .ok between ∧
      confirmSlotEntries hasher (bank.registerTicks l) between l' true = .ok after) ↔
    confirmSlotEntries hasher bank progress (l ++ l') true = .ok after ∧
      (bank.hashesPerTick.getD 0 ≠ 0 →
        hashesSinceTick progress.tickHashCount l < bank.hashesPerTick.getD 0) := by
  have hbefore' : (bank.registerTicks l).BeforeAlpenglow := hbefore
  have hcount := @verifyTickHashCount_append _ _ l l' _ progress.tickHashCount after.tickHashCount
    bank.hashesPerTick_le
  simp only [confirmSlotEntries_eq_ok hbefore, confirmSlotEntries_eq_ok hbefore', HeightAllows,
    chainsFrom_append, lastHash_append, tickCount_append, hasTrailingEntry_append hne]
  constructor
  · rintro ⟨between, ⟨-, hcarried, hchain, hbetween⟩, ⟨hheight, hlast⟩, hafter, hchain', hlast'⟩
    rw [hbetween] at hchain' hlast'
    obtain ⟨hwhole, hcut⟩ := hcount.mp ⟨_, hcarried, hafter⟩
    exact ⟨⟨⟨(Nat.add_assoc _ _ _).symm.trans hheight, hlast⟩, hwhole, ⟨hchain, hchain'⟩, hlast'⟩,
      hcut⟩
  · rintro ⟨⟨⟨hheight, hlast⟩, hwhole, ⟨hchain, hchain'⟩, hlast'⟩, hcut⟩
    obtain ⟨carried, hcarried, hafter⟩ := hcount.mpr ⟨hwhole, hcut⟩
    have hpos := tickCount_pos hne hlast
    exact ⟨⟨carried, lastHash progress.lastEntry l⟩, ⟨by omega, hcarried, hchain, rfl⟩,
      ⟨(Nat.add_assoc _ _ _).trans hheight, hlast⟩, hafter, hchain', hlast'⟩

/-- The carried count is the number of hashes since the last tick. -/
lemma tickHashCount_eq (hbefore : bank.BeforeAlpenglow) {slotFull : Bool}
    (henabled : bank.hashesPerTick.getD 0 ≠ 0)
    (h : confirmSlotEntries hasher bank progress l slotFull = .ok after) :
    after.tickHashCount = hashesSinceTick progress.tickHashCount l := by
  obtain ⟨-, hcount, -⟩ := (confirmSlotEntries_eq_ok hbefore).mp h
  obtain ⟨hfold, hlt⟩ := (verifyTickHashCount_eq_some henabled).mp hcount
  exact eq_hashesSinceTick bank.hashesPerTick_le hfold (min_lt_of_left_lt hlt)

/-- By induction over the slices, with the progress after each. -/
lemma confirmSlices_eq_ok (hbefore : bank.BeforeAlpenglow) {slices : List (List (Entry Hash Tx))}
    (hslices : slices ≠ []) (hne : ∀ l ∈ slices, l ≠ []) :
    confirmSlices hasher bank progress slices = .ok after ↔
      confirmSlotEntries hasher bank progress slices.flatten true = .ok after ∧
      (bank.hashesPerTick.getD 0 ≠ 0 →
        CutsAllow (bank.hashesPerTick.getD 0) progress.tickHashCount slices) := by
  induction slices generalizing bank progress with
  | nil => exact absurd rfl hslices
  | cons l slices ih =>
    rw [confirmSlices, bind_eq_ok]
    rcases slices with _ | ⟨l', slices⟩
    · simp [confirmSlices, CutsAllow]
    have hrest : (l' :: slices).flatten ≠ [] := append_ne_nil_of_left_ne_nil (hne l' (by simp)) _
    have hslices' := fun between => @ih (bank.registerTicks l) between hbefore
      (cons_ne_nil l' slices) fun l hmem => hne l (.tail _ hmem)
    simp only [hslices']
    rw [@flatten_cons _ l, CutsAllow, forall_and, ← and_assoc, ← confirmSlotEntries_append
      hbefore hrest]
    constructor
    · rintro ⟨between, hfirst, hafter, hcuts⟩
      exact ⟨⟨between, hfirst, hafter⟩, fun henabled =>
        tickHashCount_eq hbefore henabled hfirst ▸ hcuts henabled⟩
    · rintro ⟨⟨between, hfirst, hafter⟩, hcuts⟩
      exact ⟨between, hfirst, hafter, fun henabled =>
        tickHashCount_eq hbefore henabled hfirst ▸ hcuts henabled⟩

/-- The slices a block arrives in pass exactly if the block passes as a whole and, with hashing
enabled, each cut leaves fewer hashes before it than a tick needs. A block that passes is
complete. -/
theorem confirmSlices_iff_full (hbefore : bank.BeforeAlpenglow)
    (progress : ConfirmationProgress Hash) {slices : List (List (Entry Hash Tx))}
    (hslices : slices ≠ []) (hne : ∀ l ∈ slices, l ≠ []) :
    (∀ after, confirmSlices hasher bank progress slices = .ok after ↔
      confirmSlotEntries hasher bank progress slices.flatten true = .ok after ∧
      (bank.hashesPerTick.getD 0 ≠ 0 →
        CutsAllow (bank.hashesPerTick.getD 0) progress.tickHashCount slices)) ∧
    ∀ after, confirmSlotEntries hasher bank progress slices.flatten true = .ok after →
      CompleteBlock hasher bank progress slices.flatten := by
  refine ⟨fun after => confirmSlices_eq_ok hbefore hslices hne, fun after h => ?_⟩
  have hflat : slices.flatten ≠ [] := by
    obtain ⟨l, hmem⟩ := exists_mem_of_ne_nil slices hslices
    exact fun hnil => hne l hmem (flatten_eq_nil_iff.mp hnil l hmem)
  obtain ⟨⟨hheight, hlast⟩, hcount, hchain, -⟩ := (confirmSlotEntries_eq_ok hbefore).mp h
  refine ⟨hheight, exists_tick_of_hasTrailingEntry hflat hlast, hchain, fun henabled => ?_⟩
  obtain ⟨hfold, -⟩ := (verifyTickHashCount_eq_some henabled).mp hcount
  exact (foldlM_countEntry rfl hfold).2

end slices

/-! ## A block that passes in one piece only -/

/-- Hashes are numbers here. -/
def someHasher : EntryHasher ℕ ℕ := ⟨(· + 1), (· * 100 + ·), sum⟩

/-- Only the transactions change the hash. -/
def mixHasher : EntryHasher ℕ ℕ := ⟨id, (· + ·), sum⟩

/-- One tick is missing, and ticks have two hashes. -/
def someTickBank : TickBank := ⟨5, 4, by decide, 0, 1, some 2, by decide, none⟩

/-- Ticks have as many hashes as can be counted. -/
def maxTickBank : TickBank := ⟨5, 4, by decide, 0, 1, some u64Max, le_rfl, none⟩

lemma nextHash_mixHasher (startHash : ℕ) {n : ℕ} (hn : n < u64Max) :
    nextHash mixHasher startHash n [7] = some (startHash + 7) := by
  have hleft : u64Max - min (u64Max - 1) (n - 1) ≠ 1 := by
    unfold u64Max at *
    omega
  simp [nextHash, Poh.new, Poh.hashUpTo, Poh.record, mixHasher, hleft]

/-- Both hashes are in the entry with the transaction: the block passes as one slice, but not if
that entry arrives before the tick. And a block may have more than `u64Max` hashes before a tick. -/
theorem confirmSlices_zeroHashTick :
    confirmSlotEntries someHasher someTickBank ⟨0, 0⟩ [⟨2, 107, [7]⟩, ⟨0, 107, []⟩] true =
      .ok ⟨0, 107⟩ ∧
    confirmSlices someHasher someTickBank ⟨0, 0⟩ [[⟨2, 107, [7]⟩], [⟨0, 107, []⟩]] =
      .error .invalidTickHashCount ∧
    let entries := [⟨2 ^ 63, 7, [7]⟩, ⟨2 ^ 63, 14, [7]⟩, ⟨0, 14, []⟩]
    confirmSlotEntries mixHasher maxTickBank ⟨0, 0⟩ entries true = .ok ⟨0, 14⟩ ∧
      hashesAtTicks 0 entries = [2 ^ 64] := by
  have hbefore : maxTickBank.BeforeAlpenglow := fun slot h => nomatch h
  have hlt : 2 ^ 63 < u64Max := by decide
  exact ⟨rfl, rfl, (confirmSlotEntries_eq_ok hbefore).mpr ⟨⟨rfl, rfl⟩, rfl,
    ⟨nextHash_mixHasher 0 hlt, nextHash_mixHasher 7 hlt, rfl, trivial⟩, rfl⟩, rfl⟩

theorem confirmSlices_iff_full_someTickBank :
    confirmSlices someHasher someTickBank ⟨0, 0⟩ [[⟨1, 7, [7]⟩], [⟨1, 8, []⟩]] = .ok ⟨0, 8⟩ ∧
    CompleteBlock someHasher someTickBank ⟨0, 0⟩ [⟨1, 7, [7]⟩, ⟨1, 8, []⟩] := by
  have hbefore : someTickBank.BeforeAlpenglow := fun slot h => nomatch h
  obtain ⟨hslices, hcomplete⟩ := @confirmSlices_iff_full ℕ ℕ someHasher someTickBank _ hbefore
    ⟨0, 0⟩ [[⟨1, 7, [7]⟩], [⟨1, 8, []⟩]] (by simp) (by simp)
  exact ⟨(hslices ⟨0, 8⟩).mpr ⟨rfl, fun _ => ⟨by decide, trivial⟩⟩, hcomplete ⟨0, 8⟩ rfl⟩

end Trezoa.Ledger
