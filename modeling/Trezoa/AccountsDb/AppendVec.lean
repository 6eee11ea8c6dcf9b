import Trezoa.AccountsDb.DeleteDependencies
import Trezoa.Lib.Bytes

/-!
# Writing accounts to a storage

`write_accounts_to_storage` of `accounts-db/src/accounts_db.rs`, and `append_accounts` of
`accounts-db/src/append_vec.rs`, which appends accounts to a file until one does not fit.

* `writeAccountsToStorage_eq`: with room for all accounts each of them has its info; without it the
  function panics: it creates another store, and then goes on with the full one.

The bytes of an account are left out, its record has the length that they have.
-/

namespace Trezoa.AccountsDb

open Lib List

/-! ## Append vecs -/

def u64Align (addr : ℕ) : ℕ := (addr + 7) / 8 * 8

/-- An account to store, with its key. -/
structure StorableAccount where
  pubkey : ℕ
  lamports : ℕ
  owner : ℕ
  rentEpoch : ℕ
  executable : Bool
  data : List UInt8
deriving DecidableEq

/-- An account without lamports is stored as the default account. -/
def StorableAccount.defaultIfZeroLamport (account : StorableAccount) : StorableAccount :=
  if account.lamports = 0 then ⟨account.pubkey, 0, 0, 0, false, []⟩ else account

def isZeroLamport (accounts : List StorableAccount) (index : ℕ) : Bool :=
  accounts[index]?.any (·.lamports = 0)

def dataLen (accounts : List StorableAccount) (index : ℕ) : ℕ :=
  (accounts[index]?.map (·.data.length)).getD 0

/-- Where a record that is appended at an offset ends. -/
def recordEnd (offset : ℕ) (account : StorableAccount) : ℕ :=
  [48, 56, 32, account.defaultIfZeroLamport.data.length].foldl
    (fun offset len => u64Align offset + len) offset

/-- A file with the accounts that were appended to it, by their offsets. -/
structure AppendVec where
  fileSize : ℕ
  currentLen : ℕ
  accounts : List (ℕ × StorableAccount)
  currentLen_le : currentLen ≤ fileSize
  fileSize_le : fileSize ≤ 16 * 1024 * 1024 * 1024

namespace AppendVec

def remainingBytes (self : AppendVec) : ℕ := self.fileSize - u64Align self.currentLen

/-- Appends the record of an account. -/
def append (self : AppendVec) (account : StorableAccount)
    (h : recordEnd self.currentLen account ≤ self.fileSize) : AppendVec :=
  { self with
    currentLen := recordEnd self.currentLen account
    accounts := self.accounts ++ [(u64Align self.currentLen, account.defaultIfZeroLamport)]
    currentLen_le := h }

def appendPtrsLocked (self : AppendVec) (account : StorableAccount) : Option (AppendVec × ℕ) :=
  if h : recordEnd self.currentLen account ≤ self.fileSize then
    some (self.append account h, u64Align self.currentLen)
  else none

/-- Appends accounts until one does not fit. -/
def appendAll (self : AppendVec) : List StorableAccount → AppendVec × List ℕ
  | [] => (self, [])
  | account :: accounts =>
    match self.appendPtrsLocked account with
    | none => (self, [])
    | some (self, pos) =>
      let (self, offsets) := self.appendAll accounts
      (self, pos :: offsets)

/-- Also the offsets, and the size of the records. The vec is writable: `append_guard` panics on one
that is read-only. -/
def appendAccounts (self : AppendVec) (accounts : List StorableAccount) (skip : ℕ) :
    Option (AppendVec × List ℕ × ℕ) :=
  let (self, offsets) := self.appendAll (accounts.drop skip)
  if offsets = [] then none
  else
    let ends := offsets ++ [u64Align self.currentLen]
    some (self, offsets, (ends.zipWith (fun start stop => stop - start) ends.tail).sum)

end AppendVec

open AppendVec

/-! ## Storages -/

structure AccountStorageEntry where
  id : ℕ
  accounts : AppendVec
  count : ℕ
  aliveBytes : ℕ

/-- The slots that have a store, and whether one is shrunk. -/
structure AccountStorage where
  map : Finset ℕ
  shrinkInProgress : Bool

def AccountStorage.insert (self : AccountStorage) (slot : ℕ) : Except CleanPanic AccountStorage :=
  if self.shrinkInProgress ∨ slot ∈ self.map then .error .assertion
  else .ok { self with map := Insert.insert slot self.map }

/-- The offset is kept in units of eight bytes, in 31 bits; the greatest is for the cache. -/
def AccountInfo.new (storeId offset : ℕ) (isZeroLamport : Bool) : Except CleanPanic AccountInfo :=
  if offset / 8 = 2 ^ 31 - 1 ∨ offset / 8 % 2 ^ 31 * 8 ≠ offset then .error .assertion
  else .ok ⟨storeId, offset, isZeroLamport, false⟩

/-- The storages, the one that is written to, and the infos so far. -/
structure Writing where
  storages : AccountStorage
  storage : AccountStorageEntry
  infos : List AccountInfo

/-- A round of the loop of `write_accounts_to_storage`. -/
def writeRound (slot : ℕ) (accounts : List StorableAccount) (st : Writing) :
    Except CleanPanic (Option Writing) :=
  if accounts.length ≤ st.infos.length then .ok none
  else
    match st.storage.accounts.appendAccounts accounts st.infos.length with
    | none =>
      -- the new store is not the one that is written to
      if st.storage.accounts.remainingBytes < dataLen accounts st.infos.length + 136 then
        (st.storages.insert slot).map fun storages => some { st with storages }
      else .ok (some st)
    | some (file, offsets, size) => do
      -- `i` counts the accounts of this round
      let infos ← offsets.zipIdx.mapM fun (offset, i) =>
        AccountInfo.new st.storage.id offset (isZeroLamport accounts i)
      return some { st with
        infos := st.infos ++ infos
        storage := { st.storage with
          accounts := file
          count := st.storage.count + offsets.length
          aliveBytes := st.storage.aliveBytes + size } }

def writeAccountsToStorage (fuel : ℕ) (storages : AccountStorage) (slot : ℕ)
    (storage : AccountStorageEntry) (accounts : List StorableAccount) :
    Except CleanPanic Writing :=
  whileLoop (writeRound slot accounts) .outOfFuel fuel ⟨storages, storage, []⟩

/-! ## Room for the accounts -/

def AppendVec.HasRoom (self : AppendVec) (accounts : List StorableAccount) : Prop :=
  accounts.foldl recordEnd self.currentLen ≤ self.fileSize

lemma recordEnd_eq (offset : ℕ) (account : StorableAccount) :
    recordEnd offset account =
      u64Align offset + 136 + account.defaultIfZeroLamport.data.length := by
  simp only [recordEnd, foldl_cons, foldl_nil, u64Align]
  omega

lemma le_foldl_recordEnd (accounts : List StorableAccount) (offset : ℕ) :
    offset ≤ accounts.foldl recordEnd offset := by
  induction accounts generalizing offset with
  | nil => exact le_rfl
  | cons account accounts ih =>
    refine le_trans ?_ (ih (recordEnd offset account))
    rw [recordEnd_eq, u64Align]
    omega

namespace AppendVec

variable {self : AppendVec} {account : StorableAccount} {accounts : List StorableAccount}

lemma appendAll_of_fits (h : recordEnd self.currentLen account ≤ self.fileSize) :
    self.appendAll (account :: accounts) =
      (((self.append account h).appendAll accounts).1,
        u64Align self.currentLen :: ((self.append account h).appendAll accounts).2) := by
  simp [appendAll, appendPtrsLocked, dif_pos h]

lemma appendAll_of_full (h : ¬ recordEnd self.currentLen account ≤ self.fileSize) :
    self.appendAll (account :: accounts) = (self, []) := by
  simp [appendAll, appendPtrsLocked, dif_neg h]

/-- The file keeps its size and its accounts. Offsets are aligned, and records end in the file. -/
lemma appendAll_spec (accounts : List StorableAccount) :
    (self.appendAll accounts).1.fileSize = self.fileSize ∧
      self.accounts ⊆ (self.appendAll accounts).1.accounts ∧
      ((self.appendAll accounts).2 = [] → (self.appendAll accounts).1 = self) ∧
      ∀ offset ∈ (self.appendAll accounts).2, offset % 8 = 0 ∧ offset + 136 ≤ self.fileSize := by
  induction accounts generalizing self with
  | nil => exact ⟨rfl, List.Subset.refl _, fun _ => rfl, by simp [appendAll]⟩
  | cons account accounts ih =>
    by_cases hle : recordEnd self.currentLen account ≤ self.fileSize
    · obtain ⟨hsize, hsubset, -, hoffsets⟩ := @ih (self.append account hle)
      rw [appendAll_of_fits hle]
      refine ⟨hsize, fun _ h => hsubset (mem_append_left _ h),
        fun h => absurd h (cons_ne_nil _ _), forall_mem_cons.mpr ⟨?_, hoffsets⟩⟩
      rw [recordEnd_eq] at hle
      unfold u64Align at hle ⊢
      omega
    · rw [appendAll_of_full hle]
      exact ⟨rfl, List.Subset.refl _, fun _ => rfl, by simp⟩

/-- Accounts for which there is room are all appended. -/
lemma appendAll_room (h : self.HasRoom accounts) :
    (self.appendAll accounts).2.length = accounts.length ∧
      ∀ (i : ℕ) (account : StorableAccount), accounts[i]? = some account → ∃ offset,
        (self.appendAll accounts).2[i]? = some offset ∧
          (offset, account.defaultIfZeroLamport) ∈ (self.appendAll accounts).1.accounts := by
  induction accounts generalizing self with
  | nil => simp [appendAll]
  | cons account accounts ih =>
    have hle : recordEnd self.currentLen account ≤ self.fileSize :=
      (le_foldl_recordEnd accounts _).trans h
    obtain ⟨hlength, hget⟩ := @ih (self.append account hle) h
    rw [appendAll_of_fits hle]
    refine ⟨congrArg (· + 1) hlength, fun i account' hi => ?_⟩
    cases i with
    | zero =>
      cases hi
      exact ⟨_, rfl, (appendAll_spec accounts).2.1 (by simp [append])⟩
    | succ i => exact hget i account' hi

/-- Without room for all accounts one is left that does not fit. -/
lemma appendAll_full (h : ¬ self.HasRoom accounts) :
    ∃ account, accounts[(self.appendAll accounts).2.length]? = some account ∧
      self.fileSize < recordEnd (self.appendAll accounts).1.currentLen account := by
  induction accounts generalizing self with
  | nil => exact absurd self.currentLen_le h
  | cons account accounts ih =>
    by_cases hle : recordEnd self.currentLen account ≤ self.fileSize
    · rw [appendAll_of_fits hle]
      exact @ih (self.append account hle) h
    · rw [appendAll_of_full hle]
      exact ⟨account, rfl, not_le.mp hle⟩

end AppendVec

/-! ## The loop -/

section Loop
variable {slot : ℕ} {accounts : List StorableAccount} {storages : AccountStorage}
  {storage : AccountStorageEntry} {infos : List AccountInfo} {account : StorableAccount}

/-- The infos of the accounts that the first round appends. -/
def firstInfos (storage : AccountStorageEntry) (accounts : List StorableAccount) :
    List AccountInfo :=
  (storage.accounts.appendAll accounts).2.zipIdx.map fun (offset, i) =>
    ⟨storage.id, offset, isZeroLamport accounts i, false⟩

/-- The first round writes as many accounts as there is room for. -/
lemma writeRound_first (h : (storage.accounts.appendAll accounts).2 ≠ []) :
    ∃ storage', writeRound slot accounts ⟨storages, storage, []⟩ =
        .ok (some ⟨storages, storage', firstInfos storage accounts⟩) ∧
      storage'.id = storage.id ∧ storage'.accounts = (storage.accounts.appendAll accounts).1 := by
  have hne : ¬ accounts.length ≤ 0 := by
    intro hle
    rw [eq_nil_of_length_eq_zero (Nat.le_zero.mp hle)] at h
    exact h rfl
  have hinfos : (storage.accounts.appendAll accounts).2.zipIdx.mapM (fun (offset, i) =>
      AccountInfo.new storage.id offset (isZeroLamport accounts i)) =
        .ok (firstInfos storage accounts) := by
    refine mapM_eq_map fun entry hentry => if_neg ?_
    have hmem := (appendAll_spec accounts).2.2.2 entry.1 (fst_mem_of_mem_zipIdx hentry)
    have hsize := storage.accounts.fileSize_le
    omega
  simp only [writeRound, appendAccounts, length_nil, if_neg hne, drop_zero, if_neg h]
  exact ⟨_, bind_eq_ok.mpr ⟨_, hinfos, rfl⟩, rfl, rfl⟩

/-- A round that has no room creates a store. -/
lemma writeRound_full (hget : accounts[infos.length]? = some account)
    (hfull : storage.accounts.fileSize < recordEnd storage.accounts.currentLen account) :
    writeRound slot accounts ⟨storages, storage, infos⟩ =
      (storages.insert slot).map fun storages => some ⟨storages, storage, infos⟩ := by
  obtain ⟨hlt, rfl⟩ := List.getElem?_eq_some_iff.mp hget
  have hlen : accounts[infos.length].defaultIfZeroLamport.data.length ≤
      accounts[infos.length].data.length := by
    unfold StorableAccount.defaultIfZeroLamport
    split <;> simp
  have hremaining : storage.accounts.remainingBytes < dataLen accounts infos.length + 136 := by
    rw [recordEnd_eq] at hfull
    simp only [dataLen, hget, remainingBytes, Option.map_some, Option.getD_some]
    omega
  simp only [writeRound, if_neg (not_le.mpr hlt), appendAccounts,
    drop_eq_getElem_cons hlt, appendAll_of_full (not_le.mpr hfull), if_pos,
    if_pos hremaining]

/-- The store of a slot is created at most once. -/
lemma writeLoop_full {fuel : ℕ} (hget : accounts[infos.length]? = some account)
    (hfull : storage.accounts.fileSize < recordEnd storage.accounts.currentLen account) :
    whileLoop (writeRound slot accounts) .outOfFuel (fuel + 2) ⟨storages, storage, infos⟩ =
      .error .assertion := by
  rw [whileLoop, writeRound_full hget hfull, AccountStorage.insert]
  split_ifs with h
  · rfl
  · simp only [Except.map]
    rw [whileLoop, writeRound_full hget hfull, AccountStorage.insert, if_pos (.inr (by simp))]
    rfl

end Loop

/-- Every account has its info if there is room for all of them; if not, the function panics. -/
theorem writeAccountsToStorage_eq (fuel : ℕ) (storages : AccountStorage) (slot : ℕ)
    (storage : AccountStorageEntry) (accounts : List StorableAccount) :
    (storage.accounts.HasRoom accounts → ∃ result,
      writeAccountsToStorage (fuel + 3) storages slot storage accounts = .ok result ∧
        result.infos.length = accounts.length ∧
        ∀ (i : ℕ) (account : StorableAccount), accounts[i]? = some account → ∃ info : AccountInfo,
          result.infos[i]? = some info ∧ info.isZeroLamport = decide (account.lamports = 0) ∧
          info.storeId = result.storage.id ∧
          (info.offset, account.defaultIfZeroLamport) ∈ result.storage.accounts.accounts) ∧
    (¬ storage.accounts.HasRoom accounts →
      writeAccountsToStorage (fuel + 3) storages slot storage accounts = .error .assertion) := by
  constructor
  · intro h
    obtain ⟨hlength, hget⟩ := appendAll_room h
    cases haccounts : accounts with
    | nil => exact ⟨⟨storages, storage, []⟩, rfl, rfl, by simp⟩
    | cons first rest =>
      rw [← haccounts]
      obtain ⟨storage', hround, hid, hfile⟩ := @writeRound_first slot accounts storages storage
        (by rw [← length_pos_iff, hlength, haccounts]; simp)
      have hinfos : (firstInfos storage accounts).length = accounts.length := by
        simp [firstInfos, hlength]
      refine ⟨⟨storages, storage', firstInfos storage accounts⟩, ?_, hinfos, fun i account hi => ?_⟩
      · rw [writeAccountsToStorage, whileLoop, hround]
        simp only
        rw [whileLoop, writeRound, if_pos hinfos.ge]
      obtain ⟨offset, hoffset, hmem⟩ := hget i account hi
      refine ⟨⟨storage.id, offset, isZeroLamport accounts i, false⟩, ?_, ?_, hid.symm, ?_⟩
      · simp [firstInfos, hoffset]
      · simp [isZeroLamport, hi]
      · rwa [hfile]
  intro h
  obtain ⟨account, hget, hfull⟩ := appendAll_full h
  rw [writeAccountsToStorage]
  by_cases hne : (storage.accounts.appendAll accounts).2 = []
  · rw [(appendAll_spec accounts).2.2.1 hne] at hfull
    rw [hne] at hget
    exact writeLoop_full hget hfull
  · obtain ⟨storage', hround, -, hfile⟩ := writeRound_first hne
    rw [whileLoop, hround]
    rw [← (appendAll_spec accounts).1, ← hfile] at hfull
    exact writeLoop_full (by simpa [firstInfos] using hget) hfull

/-- The storage of a slot, too small for the account. -/
theorem writeAccountsToStorage_fullStorage :
    writeAccountsToStorage 100 ⟨{7}, false⟩ 7 ⟨1, ⟨100, 0, [], by decide, by decide⟩, 0, 0⟩
      [⟨1, 1, 0, 0, false, []⟩] = .error .assertion := by
  rfl

theorem writeAccountsToStorage_eq_twoAccounts :
    ∃ result, writeAccountsToStorage 3 ⟨{7}, false⟩ 7 ⟨1, ⟨300, 0, [], by decide, by decide⟩, 0, 0⟩
        [⟨1, 0, 0, 0, false, [1]⟩, ⟨2, 5, 0, 0, false, [2, 3]⟩] = .ok result ∧
      result.infos.length = 2 := by
  obtain ⟨result, hresult, hlength, -⟩ := (writeAccountsToStorage_eq 0 ⟨{7}, false⟩ 7
    ⟨1, ⟨300, 0, [], by decide, by decide⟩, 0, 0⟩
    [⟨1, 0, 0, 0, false, [1]⟩, ⟨2, 5, 0, 0, false, [2, 3]⟩]).1 (by unfold AppendVec.HasRoom; decide)
  exact ⟨result, hresult, hlength⟩

end Trezoa.AccountsDb
