import Trezoa.Lib.CountMap
import Trezoa.Lib.Fallible

/-!
# Account locks

`accounts-db/src/account_locks.rs`: read and write locks on the accounts of transactions. A call can
lock one transaction, or a batch of transactions that may conflict with each other.

* `tryLockAccounts`, `tryLockTransactionBatch`, `unlockAccounts`: the interface.
* `accountLocks_exact`: this holds over any sequence of calls.

A transaction is the list of its accounts with a flag for the writable ones.
-/

namespace Trezoa.AccountsDb

open Lib List CountMap

abbrev Pubkey := ℕ

/-- The accounts of a transaction; the flag says that the account is writable. -/
abbrev Keys := List (Pubkey × Bool)

/-- `TransactionError`, as far as locking is concerned. -/
inductive TransactionError where
  | accountInUse
  | accountLoadedTwice
  deriving DecidableEq

structure AccountLocks where
  writeLocks : OrdMap Pubkey ℕ
  readonlyLocks : OrdMap Pubkey ℕ

namespace AccountLocks

/-- `AccountLocks::default`. -/
def new : AccountLocks := ⟨∅, ∅⟩

def isLockedReadonly (self : AccountLocks) (key : Pubkey) : Bool :=
  self.readonlyLocks[key]?.any (0 < ·)

def isLockedWrite (self : AccountLocks) (key : Pubkey) : Bool :=
  self.writeLocks[key]?.any (0 < ·)

def canReadLock (self : AccountLocks) (key : Pubkey) : Bool := !self.isLockedWrite key

def canWriteLock (self : AccountLocks) (key : Pubkey) : Bool :=
  !self.isLockedReadonly key && !self.isLockedWrite key

def lockReadonly (self : AccountLocks) (key : Pubkey) : AccountLocks :=
  { self with readonlyLocks := increment self.readonlyLocks key }

def lockWrite (self : AccountLocks) (key : Pubkey) : AccountLocks :=
  { self with writeLocks := increment self.writeLocks key }

/-- `unlock_readonly`. There is no result if the debug assertion fails. -/
def unlockReadonly (self : AccountLocks) (key : Pubkey) : Option AccountLocks := do
  return { self with readonlyLocks := ← decrement self.readonlyLocks key }

/-- `unlock_write`. There is no result if the debug assertion fails. -/
def unlockWrite (self : AccountLocks) (key : Pubkey) : Option AccountLocks := do
  return { self with writeLocks := ← decrement self.writeLocks key }

def canLockAccounts (self : AccountLocks) : Keys → Except TransactionError Unit
  | [] => .ok ()
  | (key, writable) :: keys =>
    if writable then
      if self.canWriteLock key then self.canLockAccounts keys else .error .accountInUse
    else
      if self.canReadLock key then self.canLockAccounts keys else .error .accountInUse

/-- The body of the loop of `lock_accounts`. -/
def lockAccount (self : AccountLocks) (entry : Pubkey × Bool) : AccountLocks :=
  if entry.2 then self.lockWrite entry.1 else self.lockReadonly entry.1

def lockAccounts (self : AccountLocks) (keys : Keys) : AccountLocks := keys.foldl lockAccount self

/-- The body of the loop of `unlock_accounts`. -/
def unlockAccount (self : AccountLocks) (entry : Pubkey × Bool) : Option AccountLocks :=
  if entry.2 then self.unlockWrite entry.1 else self.unlockReadonly entry.1

def unlockAccounts (self : AccountLocks) (keys : Keys) : Option AccountLocks :=
  keys.foldlM unlockAccount self

def tryLockAccounts (self : AccountLocks) (keys : Keys) :
    Except TransactionError Unit × AccountLocks :=
  match self.canLockAccounts keys with
  | .error e => (.error e, self)
  | .ok () => (.ok (), self.lockAccounts keys)

/-- The first pass of `try_lock_transaction_batch`. -/
def checkKeys (self : AccountLocks) (validatedKeys : Except TransactionError Keys) :
    Except TransactionError Keys := do
  let keys ← validatedKeys
  self.canLockAccounts keys
  return keys

/-- The second pass of `try_lock_transaction_batch`. -/
def lockBatch (self : AccountLocks) : List (Except TransactionError Keys) →
    List (Except TransactionError Unit) × AccountLocks
  | [] => ([], self)
  | .error e :: batch =>
    let (results, self) := self.lockBatch batch
    (.error e :: results, self)
  | .ok keys :: batch =>
    let (results, self) := (self.lockAccounts keys).lockBatch batch
    (.ok () :: results, self)

def tryLockTransactionBatch (self : AccountLocks)
    (validatedBatchKeys : List (Except TransactionError Keys)) :
    List (Except TransactionError Unit) × AccountLocks :=
  self.lockBatch (validatedBatchKeys.map self.checkKeys)

end AccountLocks

open AccountLocks

/-! ## Sequences of calls -/

/-- A granted transaction, with the number of the call that granted it. -/
structure Grant where
  call : ℕ
  keys : Keys

/-- A call. An outstanding transaction is unlocked by its position. -/
inductive Call where
  | tryLockAccounts (keys : Keys)
  | tryLockTransactionBatch (batch : List (Except TransactionError Keys))
  | unlockAccounts (position : ℕ)

/-- Locks in use, with the granted transactions that are not unlocked. -/
structure Session where
  locks : AccountLocks
  outstanding : List Grant
  calls : ℕ

/-- The transactions of a batch that were granted. -/
def granted (call : ℕ) :
    List (Except TransactionError Keys) → List (Except TransactionError Unit) → List Grant
  | .ok keys :: batch, .ok () :: results => ⟨call, keys⟩ :: granted call batch results
  | _ :: batch, _ :: results => granted call batch results
  | _, _ => []

/-- The effect of a call. -/
def call (session : Session) : Call → Option Session
  | .tryLockAccounts keys =>
    let (result, locks) := session.locks.tryLockAccounts keys
    some ⟨locks, session.outstanding ++ granted session.calls [.ok keys] [result],
      session.calls + 1⟩
  | .tryLockTransactionBatch batch =>
    let (results, locks) := session.locks.tryLockTransactionBatch batch
    some ⟨locks, session.outstanding ++ granted session.calls batch results, session.calls + 1⟩
  | .unlockAccounts position =>
    match session.outstanding[position]? with
    | none => some session
    | some grant => do
      let locks ← session.locks.unlockAccounts grant.keys
      return ⟨locks, session.outstanding.eraseIdx position, session.calls + 1⟩

/-- A sequence of calls on new locks. -/
def run (calls : List Call) : Option Session := calls.foldlM call ⟨.new, [], 0⟩

/-- No account of a transaction comes twice. -/
def Distinct (keys : Keys) : Prop := (keys.map Prod.fst).Nodup

/-- The transactions of a call have distinct accounts. -/
def Call.Distinct : Call → Prop
  | .tryLockAccounts keys => AccountsDb.Distinct keys
  | .tryLockTransactionBatch batch => ∀ keys, .ok keys ∈ batch → AccountsDb.Distinct keys
  | .unlockAccounts _ => True

/-- Two transactions have a common account that one of them writes. -/
def Conflicts (keys keys' : Keys) : Prop :=
  ∃ key writable writable', (key, writable) ∈ keys ∧ (key, writable') ∈ keys' ∧
    (writable = true ∨ writable' = true)

lemma Conflicts.symm {keys keys' : Keys} (h : Conflicts keys keys') : Conflicts keys' keys := by
  obtain ⟨key, writable, writable', hmem, hmem', hor⟩ := h
  exact ⟨key, writable', writable, hmem', hmem, hor.symm⟩

/-! ## Counters -/

namespace AccountLocks

variable {self locks : AccountLocks} {keys : Keys} {key : Pubkey} {writable : Bool}

/-- The counter of a kind of locks on an account. -/
def lockCount (self : AccountLocks) (key : Pubkey) (writable : Bool) : ℕ :=
  count (if writable then self.writeLocks else self.readonlyLocks) key

/-- No entry is zero. -/
def Positive (self : AccountLocks) : Prop :=
  CountMap.Positive self.writeLocks ∧ CountMap.Positive self.readonlyLocks

lemma isLockedReadonly_iff : self.isLockedReadonly key ↔ 0 < self.lockCount key false := by
  unfold isLockedReadonly lockCount CountMap.count
  cases h : self.readonlyLocks[key]? <;> simp [h]

lemma isLockedWrite_iff : self.isLockedWrite key ↔ 0 < self.lockCount key true := by
  unfold isLockedWrite lockCount CountMap.count
  cases h : self.writeLocks[key]? <;> simp [h]

/-- A transaction can be locked if its accounts are not write locked, and those it writes are not
locked at all. -/
lemma canLockAccounts_eq_ok : self.canLockAccounts keys = .ok () ↔
    ∀ entry ∈ keys, self.lockCount entry.1 true = 0 ∧
      (entry.2 = true → self.lockCount entry.1 false = 0) := by
  induction keys with
  | nil => simp [canLockAccounts]
  | cons entry keys ih =>
    obtain ⟨key, writable⟩ := entry
    have hread : self.canReadLock key ↔ self.lockCount key true = 0 := by
      rw [canReadLock, Bool.not_eq_true', ← Bool.not_eq_true, isLockedWrite_iff]
      omega
    have hwrite : self.canWriteLock key ↔
        self.lockCount key true = 0 ∧ self.lockCount key false = 0 := by
      rw [canWriteLock, Bool.and_eq_true, Bool.not_eq_true', Bool.not_eq_true',
        ← Bool.not_eq_true, ← Bool.not_eq_true, isLockedWrite_iff, isLockedReadonly_iff]
      omega
    rw [forall_mem_cons, ← ih]
    cases writable with
    | true =>
      by_cases h : self.canWriteLock key
      · simp [canLockAccounts, h, hwrite.mp h]
      · have hne := mt hwrite.mpr h
        simp only [canLockAccounts, if_true, if_neg h]
        simpa using fun h₁ h₂ => absurd ⟨h₁, h₂⟩ hne
    | false =>
      by_cases h : self.canReadLock key
      · simp [canLockAccounts, h, hread.mp h]
      · have hne := mt hread.mpr h
        simp [canLockAccounts, h, hne]

/-- Locking an account counts it. -/
lemma lockCount_lockAccount {entry : Pubkey × Bool} :
    (self.lockAccount entry).lockCount key writable =
      self.lockCount key writable + if entry = (key, writable) then 1 else 0 := by
  obtain ⟨key', writable'⟩ := entry
  cases writable <;> cases writable' <;>
    simp [lockAccount, lockCount, lockWrite, lockReadonly, count_increment]

lemma Positive.lockAccount (h : self.Positive) {entry : Pubkey × Bool} :
    (self.lockAccount entry).Positive := by
  unfold AccountLocks.lockAccount
  split
  · exact ⟨h.1.increment, h.2⟩
  · exact ⟨h.1, h.2.increment⟩

lemma Positive.lockAccounts (h : self.Positive) (keys : Keys) :
    (self.lockAccounts keys).Positive := by
  induction keys generalizing self with
  | nil => exact h
  | cons entry keys ih => exact ih h.lockAccount

/-- Locking a transaction counts its accounts. -/
lemma lockCount_lockAccounts (hkeys : Distinct keys) :
    (self.lockAccounts keys).lockCount key writable =
      self.lockCount key writable + if (key, writable) ∈ keys then 1 else 0 := by
  induction keys generalizing self with
  | nil => simp [lockAccounts]
  | cons entry keys ih =>
    obtain ⟨hentry, hkeys⟩ := nodup_cons.mp hkeys
    show ((self.lockAccount entry).lockAccounts keys).lockCount key writable = _
    rw [ih hkeys, lockCount_lockAccount]
    by_cases heq : entry = (key, writable)
    · subst heq
      have hmem : (key, writable) ∉ keys := fun hmem => hentry (mem_map_of_mem hmem)
      simp [hmem]
    · simp [heq, Ne.symm heq]

/-- An account that counts can be unlocked. -/
lemma unlockAccount_of_pos (h : self.Positive) {entry : Pubkey × Bool}
    (hpos : 0 < self.lockCount entry.1 entry.2) :
    ∃ locks, self.unlockAccount entry = some locks ∧ locks.Positive ∧
      ∀ key writable, self.lockCount key writable =
        locks.lockCount key writable + if entry = (key, writable) then 1 else 0 := by
  obtain ⟨key, writable⟩ := entry
  cases writable with
  | true =>
    obtain ⟨map, hmap, hpositive, hcount⟩ := decrement_of_pos h.1 hpos
    refine ⟨{ self with writeLocks := map }, ?_, ⟨hpositive, h.2⟩, fun key' writable' => ?_⟩
    · simp [unlockAccount, unlockWrite, hmap]
    · cases writable' <;> simp [lockCount, hcount]
  | false =>
    obtain ⟨map, hmap, hpositive, hcount⟩ := decrement_of_pos h.2 hpos
    refine ⟨{ self with readonlyLocks := map }, ?_, ⟨h.1, hpositive⟩, fun key' writable' => ?_⟩
    · simp [unlockAccount, unlockReadonly, hmap]
    · cases writable' <;> simp [lockCount, hcount]

/-- A transaction whose accounts count can be unlocked. -/
lemma unlockAccounts_of_pos (h : self.Positive) (hkeys : Distinct keys)
    (hpos : ∀ entry ∈ keys, 0 < self.lockCount entry.1 entry.2) :
    ∃ locks, self.unlockAccounts keys = some locks ∧ locks.Positive ∧
      ∀ key writable, self.lockCount key writable =
        locks.lockCount key writable + if (key, writable) ∈ keys then 1 else 0 := by
  induction keys generalizing self with
  | nil => exact ⟨self, rfl, h, by simp⟩
  | cons entry keys ih =>
    obtain ⟨hentry, hkeys⟩ := nodup_cons.mp hkeys
    obtain ⟨hposEntry, hposKeys⟩ := forall_mem_cons.mp hpos
    obtain ⟨locks₁, hlocks₁, hpositive₁, hcount₁⟩ := unlockAccount_of_pos h hposEntry
    have hother : ∀ entry' ∈ keys, entry ≠ entry' := by
      rintro entry' hmem rfl
      exact hentry (mem_map_of_mem hmem)
    obtain ⟨locks, hlocks, hpositive, hcount⟩ := ih hpositive₁ hkeys fun entry' hmem => by
      have heq := hcount₁ entry'.1 entry'.2
      rw [if_neg (hother entry' hmem), Nat.add_zero] at heq
      exact heq ▸ hposKeys entry' hmem
    refine ⟨locks, ?_, hpositive, fun key writable => ?_⟩
    · rw [unlockAccounts, foldlM_cons, hlocks₁]
      exact hlocks
    rw [hcount₁, hcount]
    by_cases heq : entry = (key, writable)
    · have hmem : (key, writable) ∉ keys := fun hmem => hother _ hmem heq
      simp [heq, hmem]
    · simp [heq, Ne.symm heq]

end AccountLocks

/-! ## Batches -/

section Batches
variable {self locks : AccountLocks} {batch : List (Except TransactionError Keys)} {n : ℕ}

/-- The number of transactions that lock an account. -/
def lockers (grants : List Grant) (key : Pubkey) (writable : Bool) : ℕ :=
  grants.countP fun grant => (key, writable) ∈ grant.keys

/-- What the first pass makes of a transaction. -/
lemma checkKeys_cases (locks : AccountLocks) (validatedKeys : Except TransactionError Keys) :
    (∃ keys, validatedKeys = .ok keys ∧ locks.canLockAccounts keys = .ok () ∧
      locks.checkKeys validatedKeys = .ok keys) ∨
    ((∀ keys, validatedKeys = .ok keys → locks.canLockAccounts keys ≠ .ok ()) ∧
      ∃ e, locks.checkKeys validatedKeys = .error e) := by
  cases validatedKeys with
  | error e => exact .inr ⟨by simp, e, rfl⟩
  | ok keys =>
    cases hcan : locks.canLockAccounts keys with
    | error e =>
      refine .inr ⟨?_, e, by simp [checkKeys, hcan, bind, Except.bind]⟩
      rintro keys' ⟨⟩ hok
      cases hcan.symm.trans hok
    | ok _ =>
      exact .inl ⟨keys, rfl, hcan, by
        simp [checkKeys, hcan, bind, Except.bind, pure, Except.pure]⟩

/-- A transaction of a batch is granted if it is valid and can be locked. -/
lemma lockBatch_results : List.Forall₂ (fun validatedKeys result => result = .ok () ↔
      ∃ keys, validatedKeys = .ok keys ∧ locks.canLockAccounts keys = .ok ())
    batch (self.lockBatch (batch.map locks.checkKeys)).1 := by
  induction batch generalizing self with
  | nil => exact .nil
  | cons validatedKeys batch ih =>
    rw [map_cons]
    rcases checkKeys_cases locks validatedKeys with
      ⟨keys, rfl, hcan, hcheck⟩ | ⟨hcannot, e, hcheck⟩
    · rw [hcheck]
      exact .cons (by simp [hcan]) ih
    · rw [hcheck]
      exact .cons (by simpa using hcannot) ih

/-- The granted transactions of a batch, and the locks they leave. -/
structure Locks (locks before : AccountLocks) (batch : List (Except TransactionError Keys)) (n : ℕ)
    (results : List (Except TransactionError Unit)) (locked : AccountLocks) : Prop where
  mem_granted : ∀ grant ∈ granted n batch results,
    grant.call = n ∧ .ok grant.keys ∈ batch ∧ locks.canLockAccounts grant.keys = .ok ()
  positive : locked.Positive
  lockCount : ∀ key writable, locked.lockCount key writable =
    before.lockCount key writable + lockers (granted n batch results) key writable

/-- The second pass locks the transactions that passed the first one. -/
lemma lockBatch_locks (hself : self.Positive)
    (hbatch : ∀ keys, .ok keys ∈ batch → Distinct keys) :
    Locks locks self batch n (self.lockBatch (batch.map locks.checkKeys)).1
      (self.lockBatch (batch.map locks.checkKeys)).2 := by
  induction batch generalizing self with
  | nil => exact ⟨by simp [granted], hself, fun _ _ => rfl⟩
  | cons validatedKeys batch ih =>
    have hbatch' : ∀ keys, .ok keys ∈ batch → Distinct keys :=
      fun keys hmem => hbatch keys (.tail _ hmem)
    rw [map_cons]
    rcases checkKeys_cases locks validatedKeys with
      ⟨keys, rfl, hcan, hcheck⟩ | ⟨hcannot, e, hcheck⟩
    · have hrest := ih (hself.lockAccounts keys) hbatch'
      rw [hcheck]
      refine ⟨fun grant hgrant => ?_, hrest.positive, fun key writable => ?_⟩
      · rcases mem_cons.mp hgrant with rfl | hgrant
        · exact ⟨rfl, .head _, hcan⟩
        · obtain ⟨hcall, hmem, hok⟩ := hrest.mem_granted grant hgrant
          exact ⟨hcall, .tail _ hmem, hok⟩
      · have hcount := hrest.lockCount key writable
        rw [lockCount_lockAccounts (hbatch keys (.head _))] at hcount
        simp only [lockBatch, granted, lockers, countP_cons, decide_eq_true_eq] at hcount ⊢
        omega
    have hrest := ih hself hbatch'
    have hgranted : granted n (validatedKeys :: batch)
        (.error e :: (self.lockBatch (batch.map locks.checkKeys)).1) =
          granted n batch (self.lockBatch (batch.map locks.checkKeys)).1 := by
      cases validatedKeys <;> rfl
    rw [hcheck]
    refine ⟨fun grant hgrant => ?_, hrest.positive, fun key writable => ?_⟩
    · obtain ⟨hcall, hmem, hok⟩ := hrest.mem_granted grant (hgranted ▸ hgrant)
      exact ⟨hcall, .tail _ hmem, hok⟩
    · simp only [lockBatch, hgranted]
      exact hrest.lockCount key writable

lemma tryLockTransactionBatch_locks (hself : self.Positive)
    (hbatch : ∀ keys, .ok keys ∈ batch → Distinct keys) :
    Locks self self batch n (self.tryLockTransactionBatch batch).1
      (self.tryLockTransactionBatch batch).2 :=
  lockBatch_locks hself hbatch

/-- A single transaction is locked as a batch of one. -/
lemma tryLockTransactionBatch_singleton (keys : Keys) :
    self.tryLockTransactionBatch [.ok keys] =
      ([(self.tryLockAccounts keys).1], (self.tryLockAccounts keys).2) := by
  unfold tryLockTransactionBatch tryLockAccounts
  cases hcan : self.canLockAccounts keys <;>
    simp [checkKeys, lockBatch, hcan, bind, Except.bind, pure, Except.pure]

end Batches

/-! ## Sessions -/

namespace Session

variable {session session' : Session} {keys : Keys}

/-- The counters are the numbers of outstanding transactions, and outstanding transactions of
different calls do not conflict. -/
structure Exact (session : Session) : Prop where
  positive : session.locks.Positive
  lockCount : ∀ key writable,
    session.locks.lockCount key writable = lockers session.outstanding key writable
  distinct : ∀ grant ∈ session.outstanding, Distinct grant.keys
  earlier : ∀ grant ∈ session.outstanding, grant.call < session.calls
  exclusive : ∀ grant ∈ session.outstanding, ∀ grant' ∈ session.outstanding,
    grant.call ≠ grant'.call → ¬ Conflicts grant.keys grant'.keys

/-- A counter is zero if no outstanding transaction locks the account. -/
lemma Exact.lockCount_eq_zero (h : session.Exact) {key : Pubkey} {writable : Bool} :
    session.locks.lockCount key writable = 0 ↔
      ∀ grant ∈ session.outstanding, (key, writable) ∉ grant.keys := by
  rw [h.lockCount, lockers, countP_eq_zero]
  simp

/-- A transaction can be locked if it does not conflict with an outstanding one. -/
lemma Exact.canLockAccounts_eq_ok (h : session.Exact) :
    session.locks.canLockAccounts keys = .ok () ↔
      ∀ grant ∈ session.outstanding, ¬ Conflicts grant.keys keys := by
  simp only [AccountLocks.canLockAccounts_eq_ok, h.lockCount_eq_zero]
  constructor
  · rintro hfree grant hgrant ⟨key, writable, writable', hmem, hmem', hor⟩
    obtain ⟨hwrite, hread⟩ := hfree _ hmem'
    cases writable with
    | true => exact hwrite grant hgrant hmem
    | false => exact hread (hor.resolve_left (by simp)) grant hgrant hmem
  · intro hfree entry hentry
    refine ⟨fun grant hgrant hmem => ?_, fun hwritable grant hgrant hmem => ?_⟩
    · exact hfree grant hgrant ⟨entry.1, true, entry.2, hmem, hentry, .inl rfl⟩
    · exact hfree grant hgrant ⟨entry.1, false, entry.2, hmem, hentry, .inr hwritable⟩

lemma exact_new : Exact ⟨.new, [], 0⟩ where
  positive := ⟨positive_empty, positive_empty⟩
  lockCount := fun key writable => by
    cases writable <;> exact count_empty
  distinct := by simp
  earlier := by simp
  exclusive := by simp

section
variable (h : session.Exact)
include h

/-- A batch keeps the counters exact. -/
lemma Exact.tryLockTransactionBatch (batch : List (Except TransactionError Keys))
    (hbatch : ∀ keys, .ok keys ∈ batch → Distinct keys) :
    ∃ session', call session (.tryLockTransactionBatch batch) = some session' ∧ session'.Exact := by
  have hlocks := tryLockTransactionBatch_locks (n := session.calls) h.positive hbatch
  refine ⟨_, rfl, hlocks.positive, fun key writable => ?_, fun grant hgrant => ?_,
    fun grant hgrant => ?_, fun grant hgrant grant' hgrant' hne => ?_⟩
  · refine (hlocks.lockCount key writable).trans ?_
    rw [h.lockCount]
    exact countP_append.symm
  · rcases mem_append.mp hgrant with hgrant | hgrant
    · exact h.distinct grant hgrant
    · exact hbatch grant.keys (hlocks.mem_granted grant hgrant).2.1
  · rcases mem_append.mp hgrant with hgrant | hgrant
    · exact Nat.lt_succ_of_lt (h.earlier grant hgrant)
    · exact (hlocks.mem_granted grant hgrant).1 ▸ Nat.lt_succ_self _
  -- The granted transactions were checked against the locks of the outstanding ones.
  rcases mem_append.mp hgrant with hgrant | hgrant <;>
    rcases mem_append.mp hgrant' with hgrant' | hgrant'
  · exact h.exclusive grant hgrant grant' hgrant' hne
  · exact h.canLockAccounts_eq_ok.mp (hlocks.mem_granted grant' hgrant').2.2 grant hgrant
  · exact fun hconflict =>
      h.canLockAccounts_eq_ok.mp (hlocks.mem_granted grant hgrant).2.2 grant' hgrant' hconflict.symm
  · exact absurd ((hlocks.mem_granted grant hgrant).1.trans
      (hlocks.mem_granted grant' hgrant').1.symm)
      hne

/-- Unlocking an outstanding transaction returns, and keeps the counters exact. -/
lemma Exact.unlockAccounts (position : ℕ) :
    ∃ session', call session (.unlockAccounts position) = some session' ∧ session'.Exact := by
  cases hget : session.outstanding[position]? with
  | none => exact ⟨session, by simp [call, hget], h⟩
  | some grant =>
    obtain ⟨hlt, hgrant⟩ := List.getElem?_eq_some_iff.mp hget
    have hperm := List.getElem_cons_eraseIdx_perm hlt
    rw [hgrant] at hperm
    have hmem : grant ∈ session.outstanding := hperm.mem_iff.mp (.head _)
    have hsub : ∀ grant' ∈ session.outstanding.eraseIdx position,
        grant' ∈ session.outstanding := fun _ => List.mem_of_mem_eraseIdx
    obtain ⟨locks, hunlock, hpositive, hcount⟩ :=
      unlockAccounts_of_pos h.positive (h.distinct grant hmem) fun entry hentry => by
        rw [h.lockCount]
        exact List.countP_pos_iff.mpr ⟨grant, hmem, by simpa using hentry⟩
    refine ⟨⟨locks, session.outstanding.eraseIdx position, session.calls + 1⟩, ?_, hpositive,
      fun key writable => ?_, fun grant' hgrant' => h.distinct grant' (hsub grant' hgrant'),
      fun grant' hgrant' => Nat.lt_succ_of_lt (h.earlier grant' (hsub grant' hgrant')),
      fun grant₁ hgrant₁ grant₂ hgrant₂ =>
        h.exclusive grant₁ (hsub grant₁ hgrant₁) grant₂ (hsub grant₂ hgrant₂)⟩
    · simp [call, hget, hunlock]
    have heq := hcount key writable
    rw [h.lockCount, lockers, ← hperm.countP_eq, List.countP_cons] at heq
    simp only [decide_eq_true_eq] at heq
    exact (Nat.add_right_cancel heq).symm

/-- A call returns and keeps the counters exact. -/
lemma Exact.call {c : Call} (hc : c.Distinct) :
    ∃ session', AccountsDb.call session c = some session' ∧ session'.Exact := by
  cases c with
  | tryLockAccounts keys =>
    obtain ⟨session', hcall, hexact⟩ :=
      h.tryLockTransactionBatch [.ok keys] fun keys' hmem => by
        cases mem_singleton.mp hmem
        exact hc
    refine ⟨session', ?_, hexact⟩
    rw [AccountsDb.call, tryLockTransactionBatch_singleton] at hcall
    exact hcall
  | tryLockTransactionBatch batch => exact h.tryLockTransactionBatch batch hc
  | unlockAccounts position => exact h.unlockAccounts position

/-- The counters stay exact. -/
lemma Exact.foldlM_call {calls : List Call} (hcalls : ∀ c ∈ calls, c.Distinct) :
    ∃ session', calls.foldlM AccountsDb.call session = some session' ∧ session'.Exact := by
  induction calls generalizing session with
  | nil => exact ⟨session, rfl, h⟩
  | cons c calls ih =>
    obtain ⟨hc, hcalls⟩ := forall_mem_cons.mp hcalls
    obtain ⟨session₁, hcall, h₁⟩ := h.call hc
    obtain ⟨session', hrun, h'⟩ := ih h₁ hcalls
    exact ⟨session', by rw [foldlM_cons, hcall]; exact hrun, h'⟩

/-- Without outstanding transactions there are no entries. -/
lemma Exact.isEmpty (hnone : session.outstanding = []) :
    session.locks.writeLocks.isEmpty ∧ session.locks.readonlyLocks.isEmpty := by
  have hzero : ∀ key writable, session.locks.lockCount key writable = 0 := by
    intro key writable
    rw [h.lockCount, hnone]
    rfl
  exact ⟨isEmpty_of_count_eq_zero h.positive.1 fun key => hzero key true,
    isEmpty_of_count_eq_zero h.positive.2 fun key => hzero key false⟩

end
end Session

/-- Over any sequence of calls the counters of an account are the numbers of outstanding
transactions that lock it, no two outstanding transactions of different calls conflict, a call
leaves locks only of the transactions it grants, a batch refuses exactly the transactions that are
invalid or conflict with an outstanding one, and the maps are empty once everything is unlocked. -/
theorem accountLocks_exact (calls : List Call) (hcalls : ∀ c ∈ calls, c.Distinct) :
    ∃ session, run calls = some session ∧
      (∀ key writable, session.locks.lockCount key writable =
        lockers session.outstanding key writable) ∧
      (∀ grant ∈ session.outstanding, ∀ grant' ∈ session.outstanding,
        grant.call ≠ grant'.call → ¬ Conflicts grant.keys grant'.keys) ∧
      (∀ keys, (session.locks.tryLockAccounts keys).1 ≠ .ok () →
        (session.locks.tryLockAccounts keys).2 = session.locks) ∧
      (∀ batch, (∀ keys, .ok keys ∈ batch → Distinct keys) → ∀ key writable,
        (session.locks.tryLockTransactionBatch batch).2.lockCount key writable =
          session.locks.lockCount key writable +
            lockers (granted session.calls batch
              (session.locks.tryLockTransactionBatch batch).1) key writable) ∧
      (∀ batch, List.Forall₂ (fun validatedKeys result => (∃ e, result = .error e) ↔
        (∃ e, validatedKeys = .error e) ∨ ∃ keys, validatedKeys = .ok keys ∧
          ∃ grant ∈ session.outstanding, Conflicts grant.keys keys)
        batch (session.locks.tryLockTransactionBatch batch).1) ∧
      (session.outstanding = [] →
        session.locks.writeLocks.isEmpty ∧ session.locks.readonlyLocks.isEmpty) := by
  obtain ⟨session, hrun, hexact⟩ := Session.exact_new.foldlM_call hcalls
  refine ⟨session, hrun, hexact.lockCount, hexact.exclusive, fun keys hrefused => ?_,
    fun batch hbatch => (tryLockTransactionBatch_locks hexact.positive hbatch).lockCount,
    fun batch => ?_, hexact.isEmpty⟩
  · unfold tryLockAccounts at hrefused ⊢
    split at hrefused
    · rfl
    · exact absurd rfl hrefused
  refine lockBatch_results.imp fun validatedKeys result hok => ?_
  rw [← not_iff_not] at hok
  have herror : (∃ e, result = .error e) ↔ ¬ result = .ok () := by
    cases result <;> simp
  rw [herror, hok]
  cases validatedKeys with
  | error e => simp
  | ok keys => simp [hexact.canLockAccounts_eq_ok]

/-- A batch with two writers of account 1, a reader of account 2, a second batch that is refused
account 1 and reads account 2, and a transaction of the first batch that is unlocked. -/
def batchCalls : List Call :=
  [.tryLockTransactionBatch [.ok [(1, true), (2, false)], .error .accountLoadedTwice,
      .ok [(1, true)]],
    .tryLockTransactionBatch [.ok [(1, false)], .ok [(2, false)]], .unlockAccounts 0]

theorem accountLocks_exact_batchCalls :
    (run batchCalls).map (fun session => (session.outstanding.map fun grant =>
      (grant.call, grant.keys), session.locks.lockCount 1 true, session.locks.lockCount 2 false)) =
        some ([(0, [(1, true)]), (1, [(2, false)])], 1, 1) ∧
      ∃ session, run batchCalls = some session ∧
        ∀ key writable, session.locks.lockCount key writable =
          lockers session.outstanding key writable := by
  refine ⟨by decide +kernel, ?_⟩
  obtain ⟨session, hrun, hcount, -⟩ := accountLocks_exact batchCalls (by
    simp [batchCalls, Call.Distinct, Distinct])
  exact ⟨session, hrun, hcount⟩

end Trezoa.AccountsDb
