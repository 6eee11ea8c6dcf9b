import Trezoa.Transaction.Effects

/-!
# Accounts change only with the right authority

* `run_authorized`: every step of a run is authorized; over a stretch of it in which the owner never
  writes, an account keeps all but a balance that may grow.
-/

namespace Trezoa.Transaction

open TransactionAccounts List

open ProgramRuntime (InstructionAccount)

/-! ## Keys and contents -/

/-- The keys and the contents of the accounts. -/
def TransactionAccounts.keyed (s : TransactionAccounts) : List (Pubkey × Account) :=
  s.entries.map fun entry => (entry.key, entry.account)

lemma keyed_new (initial : List (Pubkey × Account)) : (new initial).keyed = initial := by
  simp [keyed, new, Function.comp_def]

section keyed
variable {s s' : TransactionAccounts} {index : ℕ} {e e' : AccountEntry}

lemma keyed_getElem? (hget : s.entries[index]? = some e) :
    s.keyed[index]? = some (e.key, e.account) := by
  rw [keyed, getElem?_map, hget]
  rfl

lemma keyed_setEntry (e' : AccountEntry) :
    (s.setEntry index e').keyed = s.keyed.set index (e'.key, e'.account) := by
  rw [keyed, setEntry, map_set]
  rfl

/-- An entry of which only the counters change. -/
theorem keyed_setEntry_of_eq (hget : s.entries[index]? = some e) (hkey : e'.key = e.key)
    (haccount : e'.account = e.account) : (s.setEntry index e').keyed = s.keyed := by
  obtain ⟨hlt, heq⟩ := List.getElem?_eq_some_iff.mp (keyed_getElem? hget)
  rw [keyed_setEntry, hkey, haccount, ← heq, set_getElem_self]

lemma keyed_tryBorrowMut (h : s.tryBorrowMut index = .ok s') : s'.keyed = s.keyed := by
  rw [tryBorrowMut] at h
  split at h
  · exact absurd h (by simp)
  next entry hget =>
  split at h
  · exact absurd h (by simp)
  · cases h
    exact keyed_setEntry_of_eq hget rfl rfl

lemma keyed_releaseBorrowMut (s : TransactionAccounts) (index : ℕ) :
    (s.releaseBorrowMut index).keyed = s.keyed := by
  rw [releaseBorrowMut]
  split
  · rfl
  · next entry hget => exact keyed_setEntry_of_eq hget rfl rfl

/-- The write into the instructions sysvar changes no other account. -/
theorem keyed_storeCurrentIndex (env : Environment) (s : TransactionAccounts)
    (topLevel index : ℕ) :
    (TransactionContext.storeCurrentIndex env s topLevel index).2.keyed = s.keyed ∨
      ∃ (item : Pubkey × Account) (account : Account), s.keyed[index]? = some item ∧
        (TransactionContext.storeCurrentIndex env s topLevel index).2.keyed =
          s.keyed.set index (item.1, account) := by
  rw [TransactionContext.storeCurrentIndex]
  split
  · exact .inl rfl
  next s₁ hborrow =>
  have hkeyed := keyed_tryBorrowMut hborrow
  split
  · exact .inl hkeyed
  next entry hget =>
  split
  · exact .inl ((keyed_releaseBorrowMut s₁ index).trans hkeyed)
  rcases env.storeCurrentIndexChecked entry.account.data (topLevel % 2 ^ 16) with ⟨result, write⟩
  refine .inr ⟨(entry.key, entry.account),
    { entry.account with data := entry.account.data.mapIdx write },
    hkeyed ▸ keyed_getElem? hget, ?_⟩
  rw [keyed_releaseBorrowMut, keyed_setEntry, hkeyed]

end keyed

/-! ## Authority -/

namespace TransactionContext

variable (c : TransactionContext)

/-- The contents of an account. -/
def accountAt (i : ℕ) : Option Account := c.accounts.keyed[i]?.map Prod.snd

/-- The key of the program that is being executed. -/
def currentProgram : Option Pubkey :=
  match c.getCurrentInstructionContext with
  | .error _ => none
  | .ok context => c.accounts.keyed[context.programAccountIndexInTx]?.map Prod.fst

/-- Whether the instruction that is being executed may write an account. -/
def WritableInCurrent (i : ℕ) : Prop :=
  ∃ context, c.getCurrentInstructionContext = .ok context ∧
    ∃ account ∈ context.instructionAccounts,
      account.indexInTransaction = i ∧ account.isWritable = true

/-- The borrowed accounts are of the instruction that is being executed. -/
def BorrowedByCurrent : Prop :=
  ∀ b ∈ c.borrowed, ∃ context, c.getCurrentInstructionContext = .ok context ∧
    b.instructionAccount ∈ context.instructionAccounts ∧
    b.indexInTransactionOfInstructionProgram = context.programAccountIndexInTx

end TransactionContext

open TransactionContext

/-- What a step from `c` may do to the contents of an account. -/
structure Authorized (c : TransactionContext) (i : ℕ) (a a' : Account) : Prop where
  owner : a.NeedsOwner a' → c.currentProgram = some a.owner ∧ c.WritableInCurrent i
  writable : a' ≠ a → c.WritableInCurrent i
  zeroed : a'.owner ≠ a.owner → ∀ byte ∈ a.data, byte = 0

lemma Authorized.refl (c : TransactionContext) (i : ℕ) (a : Account) : Authorized c i a a where
  owner h := absurd h a.not_needsOwner
  writable h := absurd rfl h
  zeroed h := absurd rfl h

section steps
variable {env : Environment} {c c' : TransactionContext} {action : Action}

/-- An operation changes the borrowed account, with the authority of the current instruction, and no
other. -/
theorem operate_authorized (hborrowed : c.BorrowedByCurrent) {b : BorrowedInstructionAccount}
    (hb : b ∈ c.borrowed) (op : Operation) :
    (b.operate env c.accounts op).2.keyed = c.accounts.keyed ∨
      ∃ (item : Pubkey × Account) (a' : Account), c.accounts.keyed[b.index]? = some item ∧
        (b.operate env c.accounts op).2.keyed = c.accounts.keyed.set b.index (item.1, a') ∧
        Authorized c b.index item.2 a' := by
  rcases hget : c.accounts.entries[b.index]? with _ | e
  · rw [BorrowedInstructionAccount.operate, hget]
    exact .inl rfl
  obtain ⟨e', heffect⟩ := @operate_effect env b _ e hget op
  obtain ⟨context, hcontext, hmem, hprogram⟩ := hborrowed b hb
  refine .inr ⟨(e.key, e.account), e'.account, keyed_getElem? hget, ?_, ?_, ?_, heffect.zeroed⟩
  · rw [keyed, heffect.entries, map_set, heffect.key]
    rfl
  · intro hneeds
    have howned := heffect.owned hneeds
    refine ⟨?_, context, hcontext, _, hmem, rfl, heffect.writable ?_⟩
    · rw [BorrowedInstructionAccount.isOwnedByCurrentProgram, hprogram] at howned
      rw [currentProgram, hcontext]
      dsimp only
      rcases hkey : c.accounts.entries[context.programAccountIndexInTx]? with _ | program
      · rw [hkey] at howned
        exact absurd howned (by simp)
      · rw [keyed_getElem? hkey]
        simpa [hkey] using howned
    · intro heq
      exact e.account.not_needsOwner (heq ▸ hneeds)
  · intro hne
    exact ⟨context, hcontext, _, hmem, rfl, heffect.writable hne⟩

lemma keyed_detectUnbalanced (c : TransactionContext) :
    c.detectUnbalanced.2.keyed = c.accounts.keyed := by
  rw [detectUnbalanced]
  split
  · rfl
  split
  · rfl
  · split
    · rfl
    · next hborrow => exact (keyed_releaseBorrowMut _ _).trans (keyed_tryBorrowMut hborrow)

/-- What an action does to the accounts: nothing, an authorized operation on a borrowed account, or,
where an instruction is pushed, the write into the instructions sysvar. -/
theorem act_cases (hborrowed : c.BorrowedByCurrent) (hacts : c.Acts env action c') :
    c'.accounts.keyed = c.accounts.keyed ∨
      (∃ (item : Pubkey × Account) (a' : Account) (borrow : ℕ) (op : Operation)
        (b : BorrowedInstructionAccount), action = .operate borrow op ∧
        c.borrowed[borrow]? = some b ∧ c.accounts.keyed[b.index]? = some item ∧
        c'.accounts.keyed = c.accounts.keyed.set b.index (item.1, a') ∧
        Authorized c b.index item.2 a') ∨
      ∃ (item : Pubkey × Account) (a' : Account) (i : ℕ), c.accounts.keyed[i]? = some item ∧
        item.1 = env.instructionsId ∧
        c'.accounts.keyed = c.accounts.keyed.set i (item.1, a') := by
  cases hacts with
  | same => exact .inl rfl
  | unborrowed _ haccounts => exact .inl (by rw [haccounts])
  | @stored sysvar _ _ hsysvar haccounts =>
    rw [haccounts]
    rcases keyed_storeCurrentIndex env c.accounts c.topLevelInstructionIndex sysvar
      with h | ⟨item, a', hitem, h⟩
    · exact .inl h
    refine .inr (.inr ⟨item, a', sysvar, hitem, ?_, h⟩)
    rw [instructionsSysvar] at hsysvar
    obtain ⟨hlt, hkey, -⟩ := findIdx?_eq_some_iff_getElem.mp hsysvar
    rw [keyed_getElem? (getElem?_eq_getElem hlt)] at hitem
    cases hitem
    simpa using hkey
  | popped _ haccounts => exact .inl (by rw [haccounts, keyed_detectUnbalanced])
  | borrowed _ _ hborrow => exact .inl (keyed_tryBorrowMut hborrow)
  | dropped => exact .inl (keyed_releaseBorrowMut _ _)
  | @operated op borrow b hb =>
    rcases @operate_authorized env _ hborrowed _ (mem_of_getElem? hb) op
      with h | ⟨item, a', hitem, h, hauth⟩
    · exact .inl h
    · exact .inr (.inl ⟨item, a', borrow, op, b, rfl, hb, hitem, h, hauth⟩)

/-- Any action leaves only accounts of the current instruction borrowed. -/
theorem TransactionContext.Acts.borrowedByCurrent (hacts : c.Acts env action c')
    (h : c.BorrowedByCurrent) : c'.BorrowedByCurrent := by
  intro b hb
  cases hacts with
  | same => exact h b hb
  | unborrowed hnone | stored hnone | popped hnone =>
    rw [hnone] at hb
    cases hb
  | borrowed hcontext haccount =>
    rcases mem_append.mp hb with hb | hb
    · exact h b hb
    · obtain rfl := mem_singleton.mp hb
      exact ⟨_, hcontext, haccount, rfl⟩
  | dropped => exact h b (mem_of_mem_eraseIdx hb)
  | operated => exact h b hb

end steps

/-! ## Runs -/

section runs
variable {env : Environment} {c : TransactionContext} {i : ℕ} {item : Pubkey × Account}

/-- One step: the account keeps its key, and changes only as it is authorized, if it is borrowed. -/
theorem act_authorized (hborrowed : c.BorrowedByCurrent) (hitem : c.accounts.keyed[i]? = some item)
    (hkey : item.1 ≠ env.instructionsId) (action : Action) :
    ∃ a', (c.act env action).2.accounts.keyed[i]? = some (item.1, a') ∧ Authorized c i item.2 a' ∧
      (a' ≠ item.2 → ∃ borrow op b, action = .operate borrow op ∧ c.borrowed[borrow]? = some b ∧
        b.index = i) := by
  have hlt := Lib.lt_length hitem
  rcases act_cases hborrowed (c.act_acts env action) with h | ⟨item', a', borrow, op, b,
    haction, hb,
    hitem', h, hauth⟩ | ⟨item', a', j, hitem', hkey', h⟩
  · exact ⟨item.2, by rw [h, hitem], .refl c i item.2, fun hne => absurd rfl hne⟩
  · by_cases hi : b.index = i
    · subst hi
      obtain rfl := Option.some.inj (hitem.symm.trans hitem')
      exact ⟨a', by rw [h, getElem?_set_self hlt], hauth, fun _ =>
        ⟨borrow, op, b, haction, hb, rfl⟩⟩
    · exact ⟨item.2, by rw [h, getElem?_set_ne hi, hitem], .refl c i item.2, fun hne =>
        absurd rfl hne⟩
  have hij : j ≠ i := by
    rintro rfl
    obtain rfl := Option.some.inj (hitem.symm.trans hitem')
    exact hkey hkey'
  exact ⟨item.2, by rw [h, getElem?_set_ne hij, hitem], .refl c i item.2, fun hne => absurd rfl hne⟩

lemma TransactionContext.BorrowedByCurrent.run (h : c.BorrowedByCurrent) (actions : List Action) :
    (c.run env actions).BorrowedByCurrent := by
  induction actions generalizing c with
  | nil => exact h
  | cons action rest ih => exact ih ((c.act_acts env action).borrowedByCurrent h)

/-- The account stays where it is. -/
theorem run_keyed (hborrowed : c.BorrowedByCurrent) (hitem : c.accounts.keyed[i]? = some item)
    (hkey : item.1 ≠ env.instructionsId) (actions : List Action) :
    ∃ a', (c.run env actions).accounts.keyed[i]? = some (item.1, a') := by
  induction actions generalizing c item with
  | nil => exact ⟨item.2, hitem⟩
  | cons action rest ih =>
    obtain ⟨a₁, hnext, -⟩ := act_authorized hborrowed hitem hkey action
    obtain ⟨a', hrest⟩ := ih ((c.act_acts env action).borrowedByCurrent hborrowed) hnext hkey
    exact ⟨a', hrest⟩

lemma Account.not_needsOwner_trans {a a' a'' : Account} (h : ¬a.NeedsOwner a')
    (h' : ¬a'.NeedsOwner a'') : ¬a.NeedsOwner a'' := by
  simp only [NeedsOwner, not_or, not_not, UInt64.not_lt] at h h' ⊢
  exact ⟨h'.1.trans h.1, h'.2.1.trans h.2.1, h'.2.2.1.trans h.2.2.1,
    UInt64.le_trans h.2.2.2 h'.2.2.2⟩

/-- A stretch in which the owner is never executed with the account writable. -/
theorem run_stretch (hborrowed : c.BorrowedByCurrent) (hitem : c.accounts.keyed[i]? = some item)
    (hkey : item.1 ≠ env.instructionsId) (actions : List Action)
    (hnever : ∀ before, before <+: actions →
      ¬((c.run env before).currentProgram = some item.2.owner ∧
        (c.run env before).WritableInCurrent i)) :
    ∃ a', (c.run env actions).accounts.keyed[i]? = some (item.1, a') ∧ ¬item.2.NeedsOwner a' := by
  induction actions generalizing c item with
  | nil => exact ⟨item.2, hitem, item.2.not_needsOwner⟩
  | cons action rest ih =>
    obtain ⟨a₁, hnext, hauth, -⟩ := act_authorized hborrowed hitem hkey action
    have hkeep : ¬item.2.NeedsOwner a₁ := fun h => hnever [] nil_prefix (hauth.owner h)
    have howner : a₁.owner = item.2.owner := by
      by_contra hne
      exact hkeep (.inr (.inl hne))
    have hborrowed' := (c.act_acts env action).borrowedByCurrent hborrowed
    obtain ⟨a', hrest, hkeep'⟩ := ih hborrowed' hnext hkey fun before hbefore => by
      have := hnever (action :: before) ((prefix_cons_inj action).mpr hbefore)
      rwa [← howner] at this
    exact ⟨a', hrest, Account.not_needsOwner_trans hkeep hkeep'⟩

end runs

/-- In any run, every step changes the accounts other than the instructions sysvar only with
authority: the owner for all but a growing balance, an instruction with the account writable for any
change, zeroed data for a new owner, and a borrow of the account itself. Over any stretch of a run
in which its owner is never executed with the account writable, an account keeps its data, owner and
executable flag, and its balance does not decrease. -/
theorem run_authorized (env : Environment) (initial : List (Pubkey × Account))
    (stackCapacity traceCapacity : ℕ) (actions : List Action) (i : ℕ) (item : Pubkey × Account)
    (hitem : initial[i]? = some item) (hkey : item.1 ≠ env.instructionsId) :
    let c := (new initial stackCapacity traceCapacity).run env actions
    ∃ a, c.accountAt i = some a ∧
      (∀ action, ∃ a', (c.act env action).2.accountAt i = some a' ∧ Authorized c i a a' ∧
        (a' ≠ a → ∃ borrow op b, action = .operate borrow op ∧ c.borrowed[borrow]? = some b ∧
          b.index = i)) ∧
      ∀ stretch : List Action,
        (∀ before, before <+: stretch → ¬((c.run env before).currentProgram = some a.owner ∧
          (c.run env before).WritableInCurrent i)) →
        ∃ a', (c.run env stretch).accountAt i = some a' ∧ a'.data = a.data ∧ a'.owner = a.owner ∧
          a'.executable = a.executable ∧ a.lamports ≤ a'.lamports := by
  intro c
  have hnew : (new initial stackCapacity traceCapacity).BorrowedByCurrent := nofun
  have hborrowed : c.BorrowedByCurrent := hnew.run actions
  obtain ⟨a, ha⟩ := run_keyed hnew ((keyed_new initial).symm ▸ hitem) hkey actions
  refine ⟨a, congrArg (Option.map Prod.snd) ha, fun action => ?_, fun stretch hnever => ?_⟩
  · obtain ⟨a', ha', hauth, hborrow⟩ := act_authorized hborrowed ha hkey action
    exact ⟨a', congrArg (Option.map Prod.snd) ha', hauth, hborrow⟩
  · obtain ⟨a', ha', hkeep⟩ := run_stretch hborrowed ha hkey stretch hnever
    simp only [Account.NeedsOwner, not_or, not_not, UInt64.not_lt] at hkeep
    exact ⟨a', congrArg (Option.map Prod.snd) ha', hkeep⟩

/-- A rent that is always paid, and a sysvar that is not there. -/
def foreignEnvironment : Environment :=
  ⟨fun _ _ => true, [9], [8], fun _ _ => (.ok (), fun _ byte => byte)⟩

/-- The program `[1]` has borrowed an account of the program `[3]`. -/
def foreignBorrow : TransactionContext :=
  (new [([1], ⟨5, [], [4], false⟩), ([2], ⟨7, [6], [3], false⟩)] 4 4).run
    foreignEnvironment [.configure 0 [⟨1, false, true⟩], .push, .borrow 0]

/-- It can give it lamports, and take none; every step from there is authorized. -/
theorem run_authorized_foreign :
    (foreignBorrow.act foreignEnvironment (.operate 0 (.setLamports 8))).1 = .ok () ∧
      (foreignBorrow.act foreignEnvironment (.operate 0 (.setLamports 6))).1 =
        .error (.instruction .externalAccountLamportSpend) ∧
      ∃ a, foreignBorrow.accountAt 1 = some a ∧ ∀ action, ∃ a',
        (foreignBorrow.act foreignEnvironment action).2.accountAt 1 = some a' ∧
          Authorized foreignBorrow 1 a a' := by
  refine ⟨by decide +kernel, by decide +kernel, ?_⟩
  obtain ⟨a, ha, hstep, -⟩ := run_authorized foreignEnvironment
    [([1], ⟨5, [], [4], false⟩), ([2], ⟨7, [6], [3], false⟩)] 4 4
    [.configure 0 [⟨1, false, true⟩], .push, .borrow 0] 1 ([2], ⟨7, [6], [3], false⟩) rfl
      (by decide)
  refine ⟨a, ha, fun action => ?_⟩
  obtain ⟨a', ha', hauth, -⟩ := hstep action
  exact ⟨a', ha', hauth⟩

end Trezoa.Transaction
