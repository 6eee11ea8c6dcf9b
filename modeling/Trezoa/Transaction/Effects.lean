import Trezoa.Transaction.Accounts

/-!
# What an operation on a borrowed account does

* `Acts`, `act_acts`: what an action makes of a transaction, in one case for each way it may change.
-/

namespace Trezoa.Transaction

open BorrowedInstructionAccount List

/-! ## The zero test -/

/-- Data of any length is zeroed exactly if all its bytes are zero. -/
theorem isZeroed_iff (buf : List UInt8) : isZeroed buf = true ↔ ∀ byte ∈ buf, byte = 0 := by
  have hzeros (l : List UInt8) : l = replicate l.length 0 ↔ ∀ byte ∈ l, byte = 0 := by
    rw [eq_replicate_iff]
    exact ⟨fun h => h.2, fun h => ⟨rfl, h⟩⟩
  induction buf using isZeroed.induct with
  | case1 buf hlen ih =>
    change isZeroed (buf.drop 1024) = true ↔ _ at ih
    have htake : (buf.take 1024).length = 1024 := length_take_of_le hlen
    have hchunk := hzeros (buf.take 1024)
    rw [htake] at hchunk
    rw [isZeroed, if_pos hlen, Bool.and_eq_true, beq_iff_eq, hchunk, ih]
    constructor
    · rintro ⟨hfirst, hrest⟩ byte hbyte
      rw [← take_append_drop 1024 buf, mem_append] at hbyte
      exact hbyte.elim (hfirst byte) (hrest byte)
    · intro h
      exact ⟨fun byte hbyte => h byte (mem_of_mem_take hbyte),
        fun byte hbyte => h byte (mem_of_mem_drop hbyte)⟩
  | case2 buf hlen =>
    rw [isZeroed, if_neg hlen, beq_iff_eq, take_replicate, Nat.min_eq_left (by omega)]
    exact hzeros buf

/-! ## Effects -/

/-- Whether more changes than a balance that grows. -/
def Account.NeedsOwner (a a' : Account) : Prop :=
  a'.data ≠ a.data ∨ a'.owner ≠ a.owner ∨ a'.executable ≠ a.executable ∨ a'.lamports < a.lamports

/-- From `s` to `s'` only the entry at `index` may change, from `e` to `e'`. -/
structure Effect (owned writable : Bool) (index : ℕ) (s s' : TransactionAccounts)
    (e e' : AccountEntry) : Prop where
  entries : s'.entries = s.entries.set index e'
  key : e'.key = e.key
  borrowCounter : e'.borrowCounter = e.borrowCounter
  touched : e'.account ≠ e.account ∨ e.touched = true → e'.touched = true
  lamportsDelta : s'.lamportsDelta =
    s.lamportsDelta + (e'.account.lamports.toNat - e.account.lamports.toNat)
  resizeDelta : e'.account.data.length = e.account.data.length ∧ s'.resizeDelta = s.resizeDelta ∨
    e'.account.data.length ≤ maxAccountDataLen ∧
    s'.resizeDelta = saturate 64 (s.resizeDelta +
      saturate 64 (e'.account.data.length - e.account.data.length)) ∧
    s'.resizeDelta ≤ maxAccountDataGrowthPerTransaction
  owned : e.account.NeedsOwner e'.account → owned = true
  writable : e'.account ≠ e.account → writable = true
  zeroed : e'.account.owner ≠ e.account.owner → ∀ byte ∈ e.account.data, byte = 0

/-- An operation has an effect by the authority of the borrowed account. -/
def HasEffect (b : BorrowedInstructionAccount) (s s' : TransactionAccounts) (e : AccountEntry) :
    Prop :=
  ∃ e', Effect (b.isOwnedByCurrentProgram s e.account) b.isWritable b.index s s' e e'

section effects
variable {env : Environment} {b : BorrowedInstructionAccount} {s s₁ : TransactionAccounts}
  {e : AccountEntry} {owned writable : Bool} {index : ℕ}

lemma Account.not_needsOwner (a : Account) : ¬a.NeedsOwner a := by
  rintro (h | h | h | h)
  · exact h rfl
  · exact h rfl
  · exact h rfl
  · exact absurd h (UInt64.lt_irrefl _)

section
variable (h : s.entries[index]? = some e)
include h

/-- Nothing changes. -/
theorem Effect.refl : Effect owned writable index s s e e where
  entries := by
    obtain ⟨hlt, rfl⟩ := List.getElem?_eq_some_iff.mp h
    exact (set_getElem_self hlt).symm
  key := rfl
  borrowCounter := rfl
  touched := fun ht => ht.resolve_left fun hne => hne rfl
  lamportsDelta := by omega
  resizeDelta := .inl ⟨rfl, rfl⟩
  owned := fun h => absurd h (Account.not_needsOwner _)
  writable := fun h => absurd rfl h
  zeroed := fun h => absurd rfl h

lemma touch_eq : s.touch index = .ok (s.setEntry index { e with touched := true }) := by
  rw [TransactionAccounts.touch, h]

lemma getElem?_setEntry (e' : AccountEntry) : (s.setEntry index e').entries[index]? = some e' := by
  obtain ⟨hlt, -⟩ := List.getElem?_eq_some_iff.mp h
  exact getElem?_set_self hlt

end

lemma touchAndSet_eq (h : s.entries[b.index]? = some e) (a : Account) :
    b.touchAndSet s a = (.ok (), s.setEntry b.index { e with account := a, touched := true }) := by
  rw [touchAndSet, touch_eq h]
  dsimp only
  rw [getElem?_setEntry h]
  simp [TransactionAccounts.setEntry, set_set]

lemma touchAndResize_eq (h : s.entries[b.index]? = some e) (a : Account) (oldLen newLen : ℕ) :
    b.touchAndResize s a oldLen newLen =
      (.ok (), (s.updateAccountsResizeDelta oldLen newLen).setEntry b.index
        { e with account := a, touched := true }) := by
  rw [touchAndResize, touch_eq h]
  dsimp only
  have hget := getElem?_setEntry h { e with touched := true }
  rw [TransactionAccounts.updateAccountsResizeDelta]
  rw [hget]
  simp [TransactionAccounts.setEntry, TransactionAccounts.updateAccountsResizeDelta, set_set]

/-- The account is only marked. -/
theorem Effect.of_touch :
    Effect owned writable index s (s.setEntry index { e with touched := true }) e
      { e with touched := true } where
  entries := rfl
  key := rfl
  borrowCounter := rfl
  touched _ := rfl
  lamportsDelta := by
    change s.lamportsDelta = s.lamportsDelta + ((e.account.lamports.toNat : ℤ) - _)
    omega
  resizeDelta := .inl ⟨rfl, rfl⟩
  owned := fun h => absurd h (Account.not_needsOwner _)
  writable := fun h => absurd rfl h
  zeroed := fun h => absurd rfl h

/-- The account is marked and changed, its data not in length, after its balance was counted. -/
theorem HasEffect.of_touchAndSet {a : Account} (h : s.entries[b.index]? = some e)
    (hentries : s₁.entries = s.entries) (hresize : s₁.resizeDelta = s.resizeDelta)
    (hlamports : s₁.lamportsDelta = s.lamportsDelta + (a.lamports.toNat - e.account.lamports.toNat))
    (hlen : a.data.length = e.account.data.length)
    (howned : e.account.NeedsOwner a → b.isOwnedByCurrentProgram s e.account = true)
    (hwritable : b.isWritable = true)
    (hzeroed : a.owner ≠ e.account.owner → ∀ byte ∈ e.account.data, byte = 0) :
    HasEffect b s (b.touchAndSet s₁ a).2 e := by
  rw [touchAndSet_eq (hentries ▸ h)]
  exact ⟨{ e with account := a, touched := true }, by rw [← hentries]; rfl, rfl, rfl, fun _ => rfl,
    hlamports, .inl ⟨hlen, hresize⟩, howned, fun _ => hwritable, hzeroed⟩

/-- Data may change by the authority of the owner, where it is writable. -/
theorem authority_of_canDataBeChanged {a : Account} (h : b.canDataBeChanged s a = .ok ()) :
    b.isWritable = true ∧ b.isOwnedByCurrentProgram s a = true := by
  rw [canDataBeChanged] at h
  split at h
  · exact absurd h (by simp)
  · split at h
    · exact absurd h (by simp)
    · next hwritable howned => exact ⟨by simpa using hwritable, by simpa using howned⟩

/-- Its length may change by the same authority, within the limits. -/
theorem limits_of_canDataBeResized {a : Account} {len : ℕ}
    (h : b.canDataBeResized s a len = .ok ()) :
    len ≤ maxAccountDataLen ∧
      saturate 64 (s.resizeDelta + saturate 64 (len - a.data.length)) ≤
        maxAccountDataGrowthPerTransaction ∧
      b.isWritable = true ∧ b.isOwnedByCurrentProgram s a = true := by
  rw [canDataBeResized] at h
  split at h
  · exact absurd h (by simp)
  obtain ⟨_, hlimits, hchange⟩ := Lib.bind_eq_ok.mp h
  rw [TransactionAccounts.canDataBeResized] at hlimits
  split at hlimits
  · exact absurd hlimits (by simp)
  split at hlimits
  · exact absurd hlimits (by simp)
  · next hmax hgrowth =>
    exact ⟨not_lt.mp hmax, not_lt.mp hgrowth, authority_of_canDataBeChanged hchange⟩

/-- The data is replaced, and its length counted, within the limits. -/
theorem HasEffect.of_touchAndResize {data : List UInt8} (h : s.entries[b.index]? = some e)
    (hcheck : b.canDataBeResized s e.account data.length = .ok ()) :
    HasEffect b s
      (b.touchAndResize s { e.account with data := data } e.account.data.length data.length).2
      e := by
  obtain ⟨hmax, hgrowth, hwritable, howned⟩ := limits_of_canDataBeResized hcheck
  rw [touchAndResize_eq h]
  refine ⟨{ e with account := { e.account with data := data }, touched := true }, rfl, rfl, rfl,
    fun _ => rfl, ?_, .inr ⟨hmax, rfl, hgrowth⟩, fun _ => howned, fun _ => hwritable,
    fun hne => absurd rfl hne⟩
  change s.lamportsDelta = _
  dsimp only
  omega

lemma saturate_of_mem {bits : ℕ} {x : ℤ} (hlow : -2 ^ (bits - 1) ≤ x) (hhigh : x < 2 ^ (bits - 1)) :
    saturate bits x = x := by
  rw [saturate, min_eq_right (by omega), max_eq_right hlow]

/-- A difference of balances fits. -/
theorem saturate_lamports (a a' : UInt64) :
    saturate 128 ((a'.toNat : ℤ) - a.toNat) = a'.toNat - a.toNat := by
  have ha := a.toNat_lt
  have ha' := a'.toNat_lt
  exact saturate_of_mem (by norm_num; omega) (by norm_num; omega)

end effects

/-! ## The operations -/

section operations
variable {env : Environment} {b : BorrowedInstructionAccount} {s : TransactionAccounts}
  {e : AccountEntry}

section
variable (h : s.entries[b.index]? = some e)
include h

lemma HasEffect.refl : HasEffect b s s e := ⟨e, .refl h⟩

/-- An operation that stops at a check leaves the accounts as they are. -/
theorem HasEffect.check {p : Prop} [Decidable p] {result : Except Failure Unit}
    {rest : Except Failure Unit × TransactionAccounts} (hrest : ¬ p → HasEffect b s rest.2 e) :
    HasEffect b s (if p then (result, s) else rest).2 e := by
  split
  · exact .refl h
  · next hp => exact hrest hp

lemma setOwner_effect (pubkey : List UInt8) :
    HasEffect b s (b.setOwner pubkey s e.account).2 e := by
  rw [setOwner]
  refine .check h fun howned => .check h fun hwritable => .check h fun hzeroed =>
    .check h fun _ => ?_
  split
  · rw [touch_eq h]
    exact ⟨_, .of_touch⟩
  · exact .of_touchAndSet h rfl rfl (by dsimp only; omega) rfl (fun _ => by simpa using howned)
      (by simpa using hwritable) fun _ => (isZeroed_iff _).mp (by simpa using hzeroed)

lemma setLamports_effect (lamports : UInt64) :
    HasEffect b s (b.setLamports lamports s e.account).2 e := by
  rw [setLamports]
  refine .check h fun hspend => .check h fun hwritable => .check h fun _ => ?_
  rw [saturate_lamports, TransactionAccounts.addLamportsDelta]
  split
  · exact .refl h
  next heq =>
  split at heq
  · cases heq
    refine .of_touchAndSet h rfl rfl rfl rfl ?_ (by simpa using hwritable) fun hne => absurd rfl hne
    rintro (hne | hne | hne | hlt)
    · exact absurd rfl hne
    · exact absurd rfl hne
    · exact absurd rfl hne
    · simpa [show lamports < e.account.lamports from hlt] using hspend
  · exact absurd heq (by simp)

lemma getDataMut_effect (write : ℕ → UInt8 → UInt8) :
    HasEffect b s (b.getDataMut write s e.account).2 e := by
  rw [getDataMut]
  split
  · exact .refl h
  next hchange =>
  obtain ⟨hwritable, howned⟩ := authority_of_canDataBeChanged hchange
  exact .of_touchAndSet h rfl rfl (by dsimp only; omega) (by simp) (fun _ => howned) hwritable
    fun hne => absurd rfl hne

lemma setDataFromSlice_effect (data : List UInt8) :
    HasEffect b s (b.setDataFromSlice data s e.account).2 e := by
  rw [setDataFromSlice]
  split
  · exact .refl h
  · next hcheck => exact .of_touchAndResize h hcheck

lemma setDataLength_effect (newLength : ℕ) :
    HasEffect b s (b.setDataLength newLength s e.account).2 e := by
  have hlen : (e.account.data.take newLength
      ++ replicate (newLength - e.account.data.length) 0).length = newLength := by
    rw [length_append, length_take, length_replicate]
    omega
  rw [setDataLength]
  split
  · exact .refl h
  next hcheck =>
  split
  · exact .refl h
  · have heffect := HasEffect.of_touchAndResize h (hlen.symm ▸ hcheck)
    rw [hlen] at heffect
    exact heffect

end

/-- A length within the limits is not the saturated one. -/
theorem length_of_canDataBeResized {len : ℕ}
    (h : b.canDataBeResized s e.account (min len (2 ^ 64 - 1)) = .ok ()) :
    min len (2 ^ 64 - 1) = len := by
  have hmax := (limits_of_canDataBeResized h).1
  rw [maxAccountDataLen] at hmax
  omega

section
variable (h : s.entries[b.index]? = some e)
include h

lemma extendFromSlice_effect (data : List UInt8) :
    HasEffect b s (b.extendFromSlice data s e.account).2 e := by
  rw [extendFromSlice]
  split
  · exact .refl h
  next hcheck =>
  split
  · exact .refl h
  · have hlen := length_of_canDataBeResized hcheck
    rw [hlen, ← length_append] at hcheck ⊢
    exact .of_touchAndResize h hcheck

lemma setExecutable_effect (isExecutable : Bool) :
    HasEffect b s (b.setExecutable env isExecutable s e.account).2 e := by
  rw [setExecutable]
  refine .check h fun _ => .check h fun howned => .check h fun hwritable => .check h fun _ => ?_
  exact .of_touchAndSet h rfl rfl (by dsimp only; omega) rfl (fun _ => by simpa using howned)
    (by simpa using hwritable) fun hne => absurd rfl hne

/-- Every operation on a borrowed account has an effect by its authority. -/
theorem operate_effect (op : Operation) : HasEffect b s (b.operate env s op).2 e := by
  rw [operate, h]
  cases op with
  | setOwner pubkey => exact setOwner_effect h pubkey
  | setLamports lamports => exact setLamports_effect h lamports
  | checkedAddLamports lamports =>
    simp only [apply, checkedAddLamports]
    split
    · exact setLamports_effect h _
    · exact .refl h
  | checkedSubLamports lamports =>
    simp only [apply, checkedSubLamports]
    split
    · exact setLamports_effect h _
    · exact .refl h
  | getDataMut write => exact getDataMut_effect h write
  | setDataFromSlice data => exact setDataFromSlice_effect h data
  | setDataLength newLength => exact setDataLength_effect h newLength
  | extendFromSlice data => exact extendFromSlice_effect h data
  | setExecutable isExecutable => exact setExecutable_effect h isExecutable

end
end operations

/-! ## The actions -/

namespace TransactionContext

variable (env : Environment) (c : TransactionContext)

/-- What an action may make of a transaction. Its instructions change only while nothing is
borrowed, and its accounts by them only where the sysvar is written or the program is checked. -/
inductive Acts : Action → TransactionContext → Prop
  | same {action : Action} : Acts action c
  | unborrowed {action : Action} {c' : TransactionContext} (hnone : c'.borrowed = [])
      (haccounts : c'.accounts = c.accounts) : Acts action c'
  | stored {sysvar : ℕ} {c' : TransactionContext} (hnone : c'.borrowed = [])
      (hsysvar : instructionsSysvar env c.accounts = some sysvar) (haccounts : c'.accounts =
        (storeCurrentIndex env c.accounts c.topLevelInstructionIndex sysvar).2) : Acts .push c'
  | popped {c' : TransactionContext} (hnone : c'.borrowed = [])
      (haccounts : c'.accounts = c.detectUnbalanced.2) : Acts .pop c'
  | borrowed {index : ℕ} {context : InstructionContext} {s : TransactionAccounts}
      {account : ProgramRuntime.InstructionAccount}
      (hcontext : c.getCurrentInstructionContext = .ok context)
      (haccount : account ∈ context.instructionAccounts)
      (hborrow : c.accounts.tryBorrowMut account.indexInTransaction = .ok s) :
      Acts (.borrow index) { c with
        accounts := s
        borrowed := c.borrowed ++ [⟨account, context.programAccountIndexInTx⟩] }
  | dropped {borrow index : ℕ} : Acts (.drop borrow) { c with
      accounts := c.accounts.releaseBorrowMut index
      borrowed := c.borrowed.eraseIdx borrow }
  | operated (op : Operation) {borrow : ℕ} {b : BorrowedInstructionAccount}
      (hb : c.borrowed[borrow]? = some b) :
      Acts (.operate borrow op) { c with accounts := (b.operate env c.accounts op).2 }

lemma act_acts (action : Action) : Acts env c action (c.act env action).2 := by
  cases action with
  | configure programIndex instructionAccounts =>
    simp only [act, configureNextInstruction]
    split
    · next hnone =>
      split
      · exact .same
      · exact .unborrowed (isEmpty_iff.mp hnone) rfl
    · exact .same
  | push =>
    simp only [act, push]
    split
    · next hempty =>
      have hnone := isEmpty_iff.mp hempty
      split
      · exact .same
      split
      · exact .same
      split
      · exact .unborrowed hnone rfl
      split
      · exact .unborrowed hnone rfl
      · split
        · exact .unborrowed hnone rfl
        · next hsysvar => exact .stored hnone hsysvar rfl
    · exact .same
  | pop =>
    simp only [act, pop]
    split
    · next hnone =>
      split
      · exact .same
      · split <;> exact .popped (isEmpty_iff.mp hnone) rfl
    · exact .same
  | borrow index =>
    simp only [act, tryBorrowInstructionAccount]
    split
    · exact .same
    next hcontext =>
    split
    · exact .same
    next haccount =>
    split
    · exact .same
    · next hborrow => exact .borrowed hcontext (mem_of_getElem? haccount) hborrow
  | drop borrow =>
    simp only [act, dropBorrow]
    split
    · exact .same
    · exact .dropped
  | operate borrow op =>
    simp only [act, operateOn]
    split
    · exact .same
    · next hb => exact .operated op hb

end TransactionContext
end Trezoa.Transaction
