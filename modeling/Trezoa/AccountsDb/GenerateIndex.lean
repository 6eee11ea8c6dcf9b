import Trezoa.AccountsDb.AppendVec

/-!
# Queues at startup

`generate_index` of `accounts-db/src/accounts_db.rs`, with marking of obsolete accounts disabled. It
scans the storages into the index, visits the accounts without lamports to queue their storages, and
only then gives the storages their counts and alive bytes. So a storage with an account without
lamports that is the only version of its key is queued for shrinking whatever else it holds:
`generateIndex_queues`, and `generateIndex_ignores_contents` for a storage that should not be.

The index asserts that a key is at most once in a storage, so the references of a key are the
entries of its slot list. Hash maps are visited in any order.
-/

namespace Trezoa.AccountsDb

open List

/-- An account of a storage. -/
structure LoadedAccount where
  offset : ℕ
  pubkey : ℕ
  lamports : ℕ
  dataLen : ℕ

def calculateStoredSize (dataLen : ℕ) : ℕ := u64Align (136 + dataLen)

/-- An `AccountStorageEntry` with its accounts; a loaded one has no counts yet. -/
structure LoadedStorage where
  id : ℕ
  slot : ℕ
  capacity : ℕ
  accounts : List LoadedAccount
  /-- Offsets that are not scanned. -/
  obsoleteAccounts : Finset ℕ := ∅
  count : ℕ := 0
  aliveBytes : ℕ := 0
  zeroLamportSingleRefOffsets : Finset ℕ := ∅

namespace LoadedStorage

variable (self : LoadedStorage)

/-- The accounts that are not obsolete. -/
def scanned : List LoadedAccount := self.accounts.filter (·.offset ∉ self.obsoleteAccounts)

/-- The bytes that would stay. -/
def aliveBytesExcludeZeroLamportSingleRefAccounts : ℕ :=
  self.aliveBytes - calculateStoredSize 0 * self.zeroLamportSingleRefOffsets.card

/-- Whether shrinking frees anything. -/
def isShrinkingProductive : Bool :=
  !decide (self.capacity ≤ self.aliveBytesExcludeZeroLamportSingleRefAccounts)

/-- Whether few enough bytes are alive. -/
def isCandidateForShrink (shrinkRatio : ℚ) : Bool :=
  decide ((self.aliveBytesExcludeZeroLamportSingleRefAccounts : ℚ) < shrinkRatio * self.capacity)

/-- The counts, after the visits. -/
def setStorageCountAndAliveBytes : LoadedStorage :=
  { self with
    count := self.scanned.length
    aliveBytes := (self.scanned.map fun account => calculateStoredSize account.dataLen).sum }

/-- Returns the keys without lamports, and whether there are no others. -/
def generateIndexForSlot : List ℕ × Bool :=
  if self.accounts.isEmpty then ([], false)
  else ((self.scanned.filter (·.lamports = 0)).map (·.pubkey), self.scanned.all (·.lamports = 0))

/-- No counts are set yet. -/
def Fresh : Prop :=
  self.count = 0 ∧ self.aliveBytes = 0 ∧ self.zeroLamportSingleRefOffsets = ∅

end LoadedStorage

open LoadedStorage

section generateIndex

variable (storages : List LoadedStorage)

/-- The slot list of a key when all storages are scanned. -/
def slotList (pubkey : ℕ) : List (ℕ × AccountInfo) :=
  storages.flatMap fun storage => (storage.scanned.filter (·.pubkey = pubkey)).map fun account =>
    (storage.slot, ⟨storage.id, account.offset, account.lamports = 0, false⟩)

/-- The `slot_offsets` of `visit_zero_lamport_pubkeys_during_startup`. -/
def slotOffsets (pubkeys : List ℕ) : List (ℕ × ℕ) :=
  pubkeys.dedup.filterMap fun pubkey =>
    match slotList storages pubkey with
    | [(slotAlive, info)] => if info.isZeroLamport then some (slotAlive, info.offset) else none
    | _ => none

/-- The slots that are queued. -/
structure Queues where
  storage : ℕ → Option LoadedStorage
  dirtyStores : Finset ℕ := ∅
  shrinkCandidateSlots : Finset ℕ := ∅

/-- One round over `slot_offsets`. -/
def visitSlot (shrinkRatio : ℚ) (offsets : List (ℕ × ℕ)) (db : Queues) (slot : ℕ) : Queues :=
  match db.storage slot with
  | none => db
  | some store =>
    let store := { store with
      zeroLamportSingleRefOffsets := store.zeroLamportSingleRefOffsets ∪
        ((offsets.filter (·.1 = slot)).map Prod.snd).toFinset }
    let db := { db with storage := Function.update db.storage slot (some store) }
    if store.zeroLamportSingleRefOffsets.card = store.count then
      { db with dirtyStores := insert slot db.dirtyStores }
    else if store.isShrinkingProductive && store.isCandidateForShrink shrinkRatio then
      { db with shrinkCandidateSlots := insert slot db.shrinkCandidateSlots }
    else db

/-- Visits the slots in some order, and sets the counts at the end. -/
def generateIndex (shrinkRatio : ℚ) (order : List ℕ → List ℕ) : Queues :=
  let offsets := slotOffsets storages (storages.flatMap (·.generateIndexForSlot.1))
  let db := (order (offsets.map Prod.fst).dedup).foldl (visitSlot shrinkRatio offsets)
    { storage := fun slot => storages.find? (·.slot = slot) }
  let allZerosSlots := (storages.filter (·.generateIndexForSlot.2)).map (·.slot)
  { db with
    dirtyStores := db.dirtyStores ∪ allZerosSlots.toFinset
    storage := fun slot => (db.storage slot).map setStorageCountAndAliveBytes }

/-- An account without lamports that is the only version of its key. -/
def singleZero (account : LoadedAccount) : Bool :=
  account.lamports = 0 ∧ (slotList storages account.pubkey).length = 1

/-- The bytes of the other accounts of a storage. -/
def otherBytes (storage : LoadedStorage) : ℕ :=
  ((storage.scanned.filter (!singleZero storages ·)).map fun account =>
    calculateStoredSize account.dataLen).sum

end generateIndex

variable {storages : List LoadedStorage} {shrinkRatio : ℚ} {order : List ℕ → List ℕ}

section visit
variable {offsets : List (ℕ × ℕ)} {db : Queues} {slot visited : ℕ}

/-- A visit does nothing to other slots. -/
lemma visitSlot_other (hne : slot ≠ visited) :
    (visitSlot shrinkRatio offsets db visited).storage slot = db.storage slot ∧
      (slot ∈ (visitSlot shrinkRatio offsets db visited).shrinkCandidateSlots ↔
        slot ∈ db.shrinkCandidateSlots) := by
  unfold visitSlot
  split
  · exact ⟨rfl, .rfl⟩
  dsimp only
  split_ifs <;> simp [hne]

/-- Whether a visit queues its slot depends on the slot alone. -/
lemma visitSlot_self {db' : Queues} (hstorage : db'.storage slot = db.storage slot)
    (hqueued : slot ∈ db'.shrinkCandidateSlots ↔ slot ∈ db.shrinkCandidateSlots) :
    slot ∈ (visitSlot shrinkRatio offsets db' slot).shrinkCandidateSlots ↔
      slot ∈ (visitSlot shrinkRatio offsets db slot).shrinkCandidateSlots := by
  unfold visitSlot
  rw [hstorage]
  split
  · exact hqueued
  dsimp only
  split_ifs <;> simp [hqueued]

/-- The pass over the slots decides on each of them by its own visit. -/
lemma mem_foldl_visitSlot {slots : List ℕ} (hnodup : slots.Nodup) :
    slot ∈ (slots.foldl (visitSlot shrinkRatio offsets) db).shrinkCandidateSlots ↔
      if slot ∈ slots then slot ∈ (visitSlot shrinkRatio offsets db slot).shrinkCandidateSlots
      else slot ∈ db.shrinkCandidateSlots := by
  induction slots generalizing db with
  | nil => simp
  | cons visited slots ih =>
    obtain ⟨hnew, hnodup⟩ := nodup_cons.mp hnodup
    rw [foldl_cons, ih hnodup]
    rcases eq_or_ne slot visited with rfl | hne
    · simp [hnew]
    obtain ⟨hstorage, hqueued⟩ := @visitSlot_other shrinkRatio offsets db _ _ hne
    rw [visitSlot_self hstorage hqueued, hqueued]
    simp [hne]

/-- A storage without counts is queued if it has any capacity. -/
lemma mem_visitSlot_fresh {storage : LoadedStorage} (hfresh : storage.Fresh)
    (hratio : 0 < shrinkRatio) (hcapacity : 0 < storage.capacity)
    (hstorage : db.storage slot = some storage) (hoffsets : slot ∈ offsets.map Prod.fst) :
    slot ∈ (visitSlot shrinkRatio offsets db slot).shrinkCandidateSlots := by
  obtain ⟨hcount, hbytes, hzero⟩ := hfresh
  obtain ⟨entry, hmem, heq⟩ := mem_map.mp hoffsets
  have hcard : ((offsets.filter fun entry => entry.1 = slot).map Prod.snd).toFinset.card ≠ 0 :=
    Finset.card_ne_zero_of_mem
      (mem_toFinset.mpr (mem_map_of_mem (mem_filter.mpr ⟨hmem, decide_eq_true heq⟩)))
  simp [visitSlot, hstorage, hcount, hzero, hcard, isShrinkingProductive, isCandidateForShrink,
    aliveBytesExcludeZeroLamportSingleRefAccounts, hbytes, hcapacity, hcapacity.ne', hratio]

end visit

/-- The offsets that are visited are those of such accounts, in the slots of their storages. -/
lemma mem_slotOffsets (hslots : (storages.map (·.slot)).Nodup) {s : LoadedStorage}
    (hs : s ∈ storages) :
    s.slot ∈ (slotOffsets storages (storages.flatMap (·.generateIndexForSlot.1))).map Prod.fst ↔
      ∃ account ∈ s.scanned, singleZero storages account := by
  rw [mem_map]
  constructor
  · rintro ⟨entry, hentry, heq⟩
    obtain ⟨pubkey, -, h⟩ := mem_filterMap.mp hentry
    split at h
    · next slotAlive info hlist =>
      split_ifs at h with hzero
      cases h
      have hmem : (slotAlive, info) ∈ slotList storages pubkey := by simp [hlist]
      obtain ⟨storage, hstorage, hmem⟩ := mem_flatMap.mp hmem
      obtain ⟨account, haccount, hinfo⟩ := mem_map.mp hmem
      cases hinfo
      rw [mem_filter, decide_eq_true_eq] at haccount
      obtain ⟨hscanned, rfl⟩ := haccount
      cases inj_on_of_nodup_map hslots hstorage hs heq
      exact ⟨account, hscanned, by simpa [singleZero, hlist] using hzero⟩
    · cases h
  · rintro ⟨account, haccount, hsingle⟩
    obtain ⟨hlamports, hlength⟩ := of_decide_eq_true hsingle
    have hmem : (s.slot, ⟨s.id, account.offset, account.lamports = 0, false⟩) ∈
        slotList storages account.pubkey := mem_flatMap.mpr
      ⟨s, hs, mem_map_of_mem (mem_filter.mpr ⟨haccount, decide_eq_true rfl⟩)⟩
    obtain ⟨item, hlist⟩ := length_eq_one_iff.mp hlength
    rw [hlist, mem_singleton] at hmem
    have hkey : account.pubkey ∈ s.generateIndexForSlot.1 := by
      have hne : s.accounts ≠ [] := ne_nil_of_mem (mem_of_mem_filter haccount)
      rw [generateIndexForSlot, if_neg (by simpa using hne)]
      exact mem_map_of_mem (mem_filter.mpr ⟨haccount, decide_eq_true hlamports⟩)
    refine ⟨(s.slot, account.offset), mem_filterMap.mpr ⟨account.pubkey,
      mem_dedup.mpr (mem_flatMap.mpr ⟨s, hs, hkey⟩), ?_⟩, rfl⟩
    rw [hlist, ← hmem]
    simp [hlamports]

/-- A storage with any capacity is queued for shrinking if and only if it has an account without
lamports that is the only version of its key. So it is queued by its real contents exactly if it has
no such account, or also others, with few enough bytes. One whose accounts are all of that kind is a
dirty store, and queued as well if any of them is scanned. -/
theorem generateIndex_queues {db : Queues} (hdb : generateIndex storages shrinkRatio order = db)
    (horder : ∀ l, (order l).Perm l) (hslots : (storages.map (·.slot)).Nodup) {s : LoadedStorage}
    (hs : s ∈ storages) (hfresh : s.Fresh) (hratio : 0 < shrinkRatio) (hcapacity : 0 < s.capacity) :
    (s.slot ∈ db.shrinkCandidateSlots ↔ ∃ a ∈ s.scanned, singleZero storages a) ∧
    ((s.slot ∈ db.shrinkCandidateSlots → (∃ a ∈ s.scanned, singleZero storages a) ∧
        (∃ a ∈ s.scanned, ¬singleZero storages a) ∧
        (otherBytes storages s : ℚ) < shrinkRatio * s.capacity) ↔
      ((∃ a ∈ s.scanned, singleZero storages a) → (∃ a ∈ s.scanned, ¬singleZero storages a) ∧
        (otherBytes storages s : ℚ) < shrinkRatio * s.capacity)) ∧
    (s.accounts ≠ [] → (∀ a ∈ s.scanned, singleZero storages a) →
      s.slot ∈ db.dirtyStores ∧ (s.slot ∈ db.shrinkCandidateSlots ↔ s.scanned ≠ [])) := by
  subst hdb
  have hqueued : s.slot ∈ (generateIndex storages shrinkRatio order).shrinkCandidateSlots ↔
      ∃ a ∈ s.scanned, singleZero storages a := by
    have hstorage : storages.find? (·.slot = s.slot) = some s := by
      obtain ⟨storage, hfind⟩ := Option.isSome_iff_exists.mp
        (find?_isSome.mpr ⟨s, hs, decide_eq_true rfl⟩ : (storages.find? (·.slot = s.slot)).isSome)
      have hslot : storage.slot = s.slot := by simpa using find?_some hfind
      rw [hfind, inj_on_of_nodup_map hslots (mem_of_find?_eq_some hfind) hs hslot]
    have hvisited := @mem_slotOffsets storages hslots s hs
    rw [← mem_dedup, ← (horder _).mem_iff] at hvisited
    rw [generateIndex, mem_foldl_visitSlot ((horder _).nodup_iff.mpr (nodup_dedup _))]
    split_ifs with hmem
    · exact iff_of_true (mem_visitSlot_fresh hfresh hratio hcapacity hstorage
        ((mem_slotOffsets hslots hs).mpr (hvisited.mp hmem))) (hvisited.mp hmem)
    · exact iff_of_false (Finset.notMem_empty _) (mt hvisited.mpr hmem)
  refine ⟨hqueued, ⟨fun h hsingle => (h (hqueued.mpr hsingle)).2, fun h hmem =>
    ⟨hqueued.mp hmem, h (hqueued.mp hmem)⟩⟩, fun hne hall => ⟨?_, ?_⟩⟩
  · refine Finset.mem_union_right _ (mem_toFinset.mpr (mem_map_of_mem (mem_filter.mpr ⟨hs, ?_⟩)))
    simpa [generateIndexForSlot, hne] using fun a ha => (of_decide_eq_true (hall a ha)).1
  · rw [hqueued]
    constructor
    · rintro ⟨a, ha, -⟩
      exact ne_nil_of_mem ha
    · intro hscanned
      obtain ⟨a, ha⟩ := exists_mem_of_ne_nil _ hscanned
      exact ⟨a, ha, hall a ha⟩

/-- A storage with nothing else is queued for shrinking, and one that is alive by more than 1/4. -/
theorem generateIndex_ignores_contents :
    let alone : LoadedStorage := ⟨0, 1, 136, [⟨0, 10, 0, 0⟩], ∅, 0, 0, ∅⟩
    let half : LoadedStorage := ⟨1, 2, 272, [⟨0, 20, 0, 0⟩, ⟨136, 30, 5, 0⟩], ∅, 0, 0, ∅⟩
    let db := generateIndex [alone, half] (1 / 4) id
    (∀ a ∈ alone.scanned, singleZero [alone, half] a) ∧ 1 ∈ db.shrinkCandidateSlots ∧
    otherBytes [alone, half] half * 2 = half.capacity ∧ 2 ∈ db.shrinkCandidateSlots := by
  decide +kernel

/-- A storage with another account and much room. -/
def roomyStorage : LoadedStorage := ⟨1, 2, 4096, [⟨0, 20, 0, 0⟩, ⟨136, 30, 5, 0⟩], ∅, 0, 0, ∅⟩

theorem generateIndex_queues_roomyStorage :
    roomyStorage.slot ∈ (generateIndex [roomyStorage] (1 / 4) id).shrinkCandidateSlots ∧
      (otherBytes [roomyStorage] roomyStorage : ℚ) < 1 / 4 * roomyStorage.capacity := by
  have hmem : roomyStorage.slot ∈
      (generateIndex [roomyStorage] (1 / 4) id).shrinkCandidateSlots := by decide +kernel
  have h := @generateIndex_queues [roomyStorage] (1 / 4) id _ rfl .refl (by decide) roomyStorage
    (.head _) ⟨rfl, rfl, rfl⟩ (by norm_num) (by decide)
  exact ⟨h.1.mpr (by decide +kernel), (h.2.1.mpr (by decide +kernel) hmem).2.2⟩

end Trezoa.AccountsDb
