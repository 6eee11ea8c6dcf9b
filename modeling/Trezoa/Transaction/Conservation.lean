import Trezoa.Transaction.Effects

/-!
# Transactions conserve lamports

The running counters are exact after any run, whatever fails in it.

* `run_conserves`: it holds after any run, so that a nested push and a pop return only with the
  lamports the transaction had at first.
-/

namespace Trezoa.Transaction

open List TransactionContext

/-! ## Totals -/

/-- The lamports of all accounts. -/
def TransactionAccounts.totalLamports (s : TransactionAccounts) : ℤ :=
  (s.entries.map fun entry => (entry.account.lamports.toNat : ℤ)).sum

/-- The lengths of the data of all accounts. -/
def TransactionAccounts.totalLen (s : TransactionAccounts) : ℤ :=
  (s.entries.map fun entry => (entry.account.data.length : ℤ)).sum

/-- A sum over a list in which one element is replaced. -/
theorem sum_map_set {α : Type} (f : α → ℤ) {l : List α} {i : ℕ} {a : α} (h : l[i]? = some a)
    (a' : α) : ((l.set i a').map f).sum = (l.map f).sum + (f a' - f a) := by
  induction l generalizing i with
  | nil => exact absurd h (by simp)
  | cons x l ih =>
    cases i with
    | zero =>
      cases h
      simp only [set_cons_zero, map_cons, sum_cons]
      omega
    | succ i =>
      simp only [set_cons_succ, map_cons, sum_cons]
      rw [ih (by simpa using h)]
      omega

lemma le_sum_map_of_mem {α : Type} (f : α → ℕ) {l : List α} {a : α} (h : a ∈ l) :
    f a ≤ (l.map f).sum :=
  single_le_sum (fun _ _ => Nat.zero_le _) _ (mem_map_of_mem h)

/-! ## The invariant -/

variable (env : Environment) (initial : List (Pubkey × Account))

/-- The accounts of a transaction that began with the initial ones. -/
structure Conserved (s : TransactionAccounts) : Prop where
  keys : s.entries.map AccountEntry.key = initial.map Prod.fst
  lamportsDelta : s.lamportsDelta =
    s.totalLamports - (TransactionAccounts.new initial).totalLamports
  resizeDelta : s.resizeDelta = s.totalLen - (TransactionAccounts.new initial).totalLen
  resizeDelta_le : s.resizeDelta ≤ maxAccountDataGrowthPerTransaction
  dataLen : ∀ (i : ℕ) (entry : AccountEntry) (item : Pubkey × Account),
    s.entries[i]? = some entry → initial[i]? = some item →
    entry.account.data.length ≤ maxAccountDataLen ∨ entry.account.data.length = item.2.data.length
  touched : ∀ (i : ℕ) (entry : AccountEntry) (item : Pubkey × Account),
    instructionsSysvar env (.new initial) ≠ some i →
    s.entries[i]? = some entry → initial[i]? = some item → entry.account ≠ item.2 →
    entry.touched = true

variable {env initial} {s s' : TransactionAccounts} {index : ℕ} {e e' : AccountEntry}

lemma Conserved.new : Conserved env initial (.new initial) where
  keys := by simp [TransactionAccounts.new, Function.comp_def]
  lamportsDelta := (sub_self _).symm
  resizeDelta := (sub_self _).symm
  resizeDelta_le := show (0 : ℤ) ≤ _ by decide
  dataLen i entry item hentry hitem := by
    simp only [TransactionAccounts.new, getElem?_map, hitem, Option.map_some,
      Option.some.injEq] at hentry
    subst hentry
    exact .inr rfl
  touched i entry item _ hentry hitem hne := by
    simp only [TransactionAccounts.new, getElem?_map, hitem, Option.map_some,
      Option.some.injEq] at hentry
    subst hentry
    exact absurd rfl hne

lemma Conserved.exists_item (h : Conserved env initial s) (hget : s.entries[index]? = some e) :
    ∃ item, initial[index]? = some item ∧ item.1 = e.key := by
  have hkeys := congrArg (·[index]?) h.keys
  simp only [getElem?_map, hget, Option.map_some] at hkeys
  obtain ⟨item, hitem, hkey⟩ := Option.map_eq_some_iff.mp hkeys.symm
  exact ⟨item, hitem, hkey⟩

/-- The lengths of the data are at least zero, and each is part of the total. -/
theorem totalLen_bounds (hget : s.entries[index]? = some e) :
    (e.account.data.length : ℤ) ≤ s.totalLen := by
  have hle := le_sum_map_of_mem (fun entry : AccountEntry => entry.account.data.length)
    (mem_of_getElem? hget)
  rw [TransactionAccounts.totalLen]
  have hcast : (s.entries.map fun entry => (entry.account.data.length : ℤ)).sum =
      ((s.entries.map fun entry => entry.account.data.length).sum : ℕ) := by
    rw [Nat.cast_list_sum, map_map]
    rfl
  rw [hcast]
  exact_mod_cast hle

/-- The keys never change, so that the sysvar is where it was. -/
theorem Conserved.instructionsSysvar_eq (h : Conserved env initial s) :
    instructionsSysvar env s = instructionsSysvar env (.new initial) := by
  have hkeys (s : TransactionAccounts) : instructionsSysvar env s =
      (s.entries.map AccountEntry.key).findIdx? fun key => decide (key = env.instructionsId) := by
    rw [findIdx?_map]
    rfl
  rw [hkeys, hkeys, h.keys, (Conserved.new : Conserved env initial _).keys]

/-- How the counter of data lengths follows the change of one account. -/
def ResizeCounted (s s' : TransactionAccounts) (e e' : AccountEntry) : Prop :=
  e'.account.data.length = e.account.data.length ∧ s'.resizeDelta = s.resizeDelta ∨
    e'.account.data.length ≤ maxAccountDataLen ∧
    s'.resizeDelta = saturate 64 (s.resizeDelta +
      saturate 64 (e'.account.data.length - e.account.data.length)) ∧
    s'.resizeDelta ≤ maxAccountDataGrowthPerTransaction

lemma totalLen_set (hget : s.entries[index]? = some e)
    (hentries : s'.entries = s.entries.set index e') :
    s'.totalLen = s.totalLen + (e'.account.data.length - e.account.data.length) := by
  rw [TransactionAccounts.totalLen, hentries, sum_map_set _ hget]
  rfl

lemma totalLamports_set (hget : s.entries[index]? = some e)
    (hentries : s'.entries = s.entries.set index e') :
    s'.totalLamports =
      s.totalLamports + (e'.account.lamports.toNat - e.account.lamports.toNat) := by
  rw [TransactionAccounts.totalLamports, hentries, sum_map_set _ hget]
  rfl

section
variable (hfits : (TransactionAccounts.new initial).totalLen ≤ 2 ^ 63)
include hfits

section
variable (h : Conserved env initial s) (hget : s.entries[index]? = some e)
include h hget

/-- The data of an account fits in the address space if that of the initial accounts does. -/
theorem Conserved.dataLen_le : (e.account.data.length : ℤ) ≤ 2 ^ 63 := by
  obtain ⟨item, hitem, -⟩ := h.exists_item hget
  rcases h.dataLen index e item hget hitem with hlen | hlen
  · rw [maxAccountDataLen] at hlen
    omega
  have hnew : (TransactionAccounts.new initial).entries[index]? =
      some { key := item.1, account := item.2 } := by
    simp [TransactionAccounts.new, hitem]
  have hle := totalLen_bounds hnew
  dsimp only at hle
  omega

/-- The counter of data lengths does not saturate. -/
theorem Conserved.resizeDelta_set (hentries : s'.entries = s.entries.set index e')
    (hresize : ResizeCounted s s' e e') :
    s'.resizeDelta = s.resizeDelta + (e'.account.data.length - e.account.data.length) ∧
      s'.resizeDelta ≤ maxAccountDataGrowthPerTransaction := by
  rcases hresize with ⟨hlen, heq⟩ | ⟨hmax, heq, hle⟩
  · rw [heq, hlen]
    exact ⟨by omega, h.resizeDelta_le⟩
  have hold := h.dataLen_le hfits hget
  rw [maxAccountDataLen] at hmax
  have hinner : saturate 64 ((e'.account.data.length : ℤ) - e.account.data.length) =
      e'.account.data.length - e.account.data.length :=
    saturate_of_mem (by norm_num; omega) (by norm_num; omega)
  have hself : s'.entries[index]? = some e' := by
    rw [hentries, getElem?_set_self (Lib.lt_length hget)]
  have hge := totalLen_bounds hself
  have hexact : s.resizeDelta + (e'.account.data.length - e.account.data.length) =
      s'.totalLen - (TransactionAccounts.new initial).totalLen := by
    rw [h.resizeDelta, totalLen_set hget hentries]
    omega
  rw [hinner] at heq
  have hlow : -2 ^ 63 ≤ s.resizeDelta + (e'.account.data.length - e.account.data.length) := by
    omega
  have hhigh : s.resizeDelta + (e'.account.data.length - e.account.data.length) < 2 ^ 63 := by
    rw [heq, saturate, maxAccountDataGrowthPerTransaction, maxAccountDataLen] at hle
    norm_num at hle hlow ⊢
    omega
  rw [saturate_of_mem hlow hhigh] at heq
  exact ⟨heq, hle⟩

/-- A change of one account that is counted keeps the invariant, as long as the data of the initial
accounts fits in the address space. -/
theorem Conserved.set (hentries : s'.entries = s.entries.set index e') (hkey : e'.key = e.key)
    (htouched : instructionsSysvar env (.new initial) ≠ some index →
      e'.account ≠ e.account ∨ e.touched = true → e'.touched = true) (hlamports : s'.lamportsDelta =
      s.lamportsDelta + (e'.account.lamports.toNat - e.account.lamports.toNat))
    (hresize : ResizeCounted s s' e e') : Conserved env initial s' := by
  have hlt := Lib.lt_length hget
  have hself : s'.entries[index]? = some e' := by rw [hentries, getElem?_set_self hlt]
  have hother (i : ℕ) (hne : i ≠ index) : s'.entries[i]? = s.entries[i]? := by
    rw [hentries, getElem?_set_ne (Ne.symm hne)]
  obtain ⟨hdelta, hle⟩ := h.resizeDelta_set hfits hget hentries hresize
  refine ⟨?_, ?_, ?_, hle, fun i entry item hentry hitem => ?_,
    fun i entry item hsys hentry hitem hne => ?_⟩
  · rw [← h.keys]
    apply ext_getElem?
    intro i
    rw [getElem?_map, getElem?_map]
    by_cases hi : i = index
    · rw [hi, hself, hget, Option.map_some, Option.map_some, hkey]
    · rw [hother i hi]
  · rw [hlamports, h.lamportsDelta, totalLamports_set hget hentries]
    omega
  · rw [hdelta, h.resizeDelta, totalLen_set hget hentries]
    omega
  · by_cases hi : i = index
    · subst hi
      obtain rfl := Option.some.inj (hself.symm.trans hentry)
      rcases hresize with ⟨hlen, -⟩ | ⟨hmax, -⟩
      · rw [hlen]
        exact h.dataLen i e item hget hitem
      · exact .inl hmax
    · exact h.dataLen i entry item (hother i hi ▸ hentry) hitem
  by_cases hi : i = index
  · subst hi
    obtain rfl := Option.some.inj (hself.symm.trans hentry)
    refine htouched hsys ?_
    by_cases hsame : e'.account = e.account
    · exact .inr (h.touched i e item hsys hget hitem (hsame ▸ hne))
    · exact .inl hsame
  · exact h.touched i entry item hsys (hother i hi ▸ hentry) hitem hne

end

/-! ## Actions -/

section
variable (h : Conserved env initial s)
include h

/-- An operation on a borrowed account. -/
theorem Conserved.operate (b : BorrowedInstructionAccount)
    (op : Operation) : Conserved env initial (b.operate env s op).2 := by
  rcases hget : s.entries[b.index]? with _ | e
  · rw [BorrowedInstructionAccount.operate, hget]
    exact h
  · obtain ⟨e', heffect⟩ := @operate_effect env _ _ _ hget op
    exact h.set hfits hget heffect.entries heffect.key (fun _ => heffect.touched)
      heffect.lamportsDelta heffect.resizeDelta

/-- Only the counter of borrows of an entry changes. -/
theorem Conserved.setBorrowCounter (hget : s.entries[index]? = some e) (counter : ℤ) :
    Conserved env initial (s.setEntry index { e with borrowCounter := counter }) :=
  h.set hfits hget rfl rfl (fun _ ht => ht.resolve_left fun hne => hne rfl)
    (by simp [TransactionAccounts.setEntry]) (.inl ⟨rfl, rfl⟩)

lemma Conserved.tryBorrowMut (heq : s.tryBorrowMut index = .ok s') :
    Conserved env initial s' ∧ s'.lamportsDelta = s.lamportsDelta := by
  rw [TransactionAccounts.tryBorrowMut] at heq
  split at heq
  · exact absurd heq (by simp)
  next entry hget =>
  split at heq
  · exact absurd heq (by simp)
  · cases heq
    exact ⟨h.setBorrowCounter hfits hget _, rfl⟩

lemma Conserved.releaseBorrowMut (index : ℕ) :
    Conserved env initial (s.releaseBorrowMut index) ∧
      (s.releaseBorrowMut index).lamportsDelta = s.lamportsDelta := by
  rw [TransactionAccounts.releaseBorrowMut]
  split
  · exact ⟨h, rfl⟩
  · next entry hget => exact ⟨h.setBorrowCounter hfits hget _, rfl⟩

/-- The write into the instructions sysvar, which is not counted. -/
theorem Conserved.storeCurrentIndex (topLevel : ℕ)
    (hsysvar : instructionsSysvar env (.new initial) = some index) :
    Conserved env initial (storeCurrentIndex env s topLevel index).2 ∧
      (storeCurrentIndex env s topLevel index).2.lamportsDelta = s.lamportsDelta := by
  rw [TransactionContext.storeCurrentIndex]
  split
  · exact ⟨h, rfl⟩
  next s₁ hborrow =>
  obtain ⟨h₁, hdelta₁⟩ := h.tryBorrowMut hfits hborrow
  split
  · exact ⟨h₁, hdelta₁⟩
  next entry hget =>
  split
  · obtain ⟨h₂, hdelta₂⟩ := h₁.releaseBorrowMut hfits index
    exact ⟨h₂, hdelta₂.trans hdelta₁⟩
  rcases env.storeCurrentIndexChecked entry.account.data (topLevel % 2 ^ 16) with ⟨result, write⟩
  have h₂ : Conserved env initial (s₁.setEntry index { entry with
      account := { entry.account with data := entry.account.data.mapIdx write } }) :=
    h₁.set hfits hget rfl rfl (fun hne => absurd hsysvar hne)
      (by simp [TransactionAccounts.setEntry]) (.inl ⟨by simp, rfl⟩)
  obtain ⟨h₃, hdelta₃⟩ := h₂.releaseBorrowMut hfits index
  exact ⟨h₃, hdelta₃.trans hdelta₁⟩

end

section
variable {c : TransactionContext} (h : Conserved env initial c.accounts)
include h

/-- A nested push returns only with balanced lamports. -/
theorem Conserved.push (hnested : c.instructionStack ≠ []) :
    (c.push env).1 = .ok () → (c.push env).2.accounts.lamportsDelta = 0 := by
  rw [TransactionContext.push]
  split
  · simp
  next hbalanced =>
  have hzero : c.accounts.lamportsDelta = 0 := by
    by_contra hne
    exact hbalanced ⟨hnested, hne⟩
  split
  · simp
  dsimp only
  split
  · simp
  split
  · simp
  split
  · exact fun _ => hzero
  · next sysvar hsysvar =>
    rw [h.instructionsSysvar_eq] at hsysvar
    exact fun _ => (h.storeCurrentIndex hfits _ hsysvar).2.trans hzero

/-- The check of a pop, which borrows the program and gives it back. -/
theorem Conserved.detectUnbalanced :
    Conserved env initial c.detectUnbalanced.2 ∧
      (c.detectUnbalanced.1 = .ok false → c.detectUnbalanced.2.lamportsDelta = 0) := by
  rw [TransactionContext.detectUnbalanced]
  split
  · exact ⟨h, fun hok => absurd hok (by simp)⟩
  next context _ =>
  split
  · exact ⟨h, fun hok => absurd hok (by simp)⟩
  split
  · exact ⟨h, fun hok => absurd hok (by simp)⟩
  next s₁ hborrow =>
  obtain ⟨h₁, -⟩ := h.tryBorrowMut hfits hborrow
  obtain ⟨h₂, hdelta⟩ := h₁.releaseBorrowMut hfits context.programAccountIndexInTx
  refine ⟨h₂, fun hok => hdelta.trans ?_⟩
  simpa using hok

/-- A pop returns only with balanced lamports. -/
theorem Conserved.pop : c.pop.1 = .ok () → c.pop.2.accounts.lamportsDelta = 0 := by
  have hzero := (h.detectUnbalanced hfits).2
  rw [TransactionContext.pop]
  split
  · simp
  rcases hdetect : c.detectUnbalanced with ⟨e | _ | _, accounts⟩
  · simp
  · rw [hdetect] at hzero
    exact fun _ => hzero rfl
  · simp

/-- Any action keeps the invariant. -/
theorem Conserved.act {action : Action} {c' : TransactionContext} (hacts : c.Acts env action c') :
    Conserved env initial c'.accounts := by
  cases hacts with
  | same => exact h
  | unborrowed _ haccounts => exact haccounts ▸ h
  | stored _ hsysvar haccounts =>
    rw [h.instructionsSysvar_eq] at hsysvar
    exact haccounts ▸ (h.storeCurrentIndex hfits _ hsysvar).1
  | popped _ haccounts => exact haccounts ▸ (h.detectUnbalanced hfits).1
  | borrowed _ _ hborrow => exact (h.tryBorrowMut hfits hborrow).1
  | dropped => exact (h.releaseBorrowMut hfits _).1
  | operated op => exact h.operate hfits _ op

end
end

/-! ## Runs -/

/-- After any run over accounts whose data fits in the address space, the counters are exact and the
limits are kept, and every account that differs from what it was at first is marked, the
instructions sysvar apart. Whenever then a nested push or a pop returns, the lamports are those of
the beginning. -/
theorem run_conserves (env : Environment) (initial : List (Pubkey × Account))
    (stackCapacity traceCapacity : ℕ) (actions : List Action)
    (hfits : (TransactionAccounts.new initial).totalLen ≤ 2 ^ 63) :
    let c := (new initial stackCapacity traceCapacity).run env actions
    Conserved env initial c.accounts ∧
      ((c.act env .push).1 = .ok () → c.instructionStack ≠ [] →
        (c.act env .push).2.accounts.totalLamports =
          (TransactionAccounts.new initial).totalLamports) ∧
      ((c.act env .pop).1 = .ok () → (c.act env .pop).2.accounts.totalLamports =
        (TransactionAccounts.new initial).totalLamports) := by
  intro c
  have hrun (c : TransactionContext) (h : Conserved env initial c.accounts) :
      Conserved env initial (c.run env actions).accounts := by
    induction actions generalizing c with
    | nil => exact h
    | cons action rest ih => exact ih _ (h.act hfits (c.act_acts env action))
  have h : Conserved env initial c.accounts := hrun _ Conserved.new
  -- at a balance of zero, the lamports are those of the beginning
  have htotal {action : Action} (hzero : (c.act env action).2.accounts.lamportsDelta = 0) :
      (c.act env action).2.accounts.totalLamports =
        (TransactionAccounts.new initial).totalLamports := by
    have hbalance := (h.act hfits (c.act_acts env action)).lamportsDelta
    omega
  refine ⟨h, fun hok hnested => htotal ?_, fun hok => htotal ?_⟩
  · simp only [act] at hok ⊢
    split at hok
    · next hempty =>
      rw [if_pos hempty]
      exact h.push hfits hnested hok
    · exact absurd hok (by simp)
  simp only [act] at hok ⊢
  split at hok
  · next hempty =>
    rw [if_pos hempty]
    exact h.pop hfits hok
  · exact absurd hok (by simp)

/-- A sysvar that is not there, and a rent that is always paid. -/
def transferEnvironment : Environment :=
  ⟨fun _ _ => true, [9], [8], fun _ _ => (.ok (), fun _ byte => byte)⟩

/-- An account of the program and one of another. -/
def transferAccounts : List (Pubkey × Account) :=
  [([1], ⟨5, [0], [1], false⟩), ([2], ⟨7, [], [3], false⟩)]

/-- The program moves two lamports. -/
def transfer : TransactionContext :=
  (new transferAccounts 4 4).run transferEnvironment
    [.configure 0 [⟨0, false, true⟩, ⟨1, false, true⟩], .push, .borrow 0, .borrow 1,
      .operate 0 (.checkedSubLamports 2), .operate 1 (.checkedAddLamports 2), .drop 1, .drop 0]

/-- The program returns, with the lamports there were. -/
theorem run_conserves_transfer :
    transfer.accounts.entries.map (fun entry => entry.account.lamports) = [3, 9] ∧
      (transfer.act transferEnvironment .pop).1 = .ok () ∧
      (transfer.act transferEnvironment .pop).2.accounts.totalLamports =
        (TransactionAccounts.new transferAccounts).totalLamports := by
  have hok : (transfer.act transferEnvironment .pop).1 = .ok () := by decide +kernel
  have hfits : (TransactionAccounts.new transferAccounts).totalLen ≤ 2 ^ 63 := by decide +kernel
  exact ⟨by decide +kernel, hok,
    (run_conserves transferEnvironment transferAccounts 4 4 _ hfits).2.2 hok⟩

end Trezoa.Transaction
