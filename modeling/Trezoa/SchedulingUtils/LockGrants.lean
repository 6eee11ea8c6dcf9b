import Trezoa.Lib.KeyedLoop
import Trezoa.SchedulingUtils.AccountCounts

/-!
# The locks are those of the outstanding grants

A grant is what a successful `try_lock_accounts` hands out and `unlock_accounts` takes back: a
thread with accounts to write and to read.

* `reachable_exact`: the invariant holds in every reachable state, and accounts can be locked
  exactly if all conflicting grants are on one allowed thread.
-/

namespace Trezoa.SchedulingUtils

open Lib ThreadAwareAccountLocks List Function Std.TreeMap

/-! ## Grants -/

/-- Accounts that a thread holds, to write and to read. -/
structure Grant where
  threadId : ℕ
  writes : List ℕ
  reads : List ℕ
deriving DecidableEq

/-- The grant conflicts with a request on some account. -/
def Grant.Conflicts (g : Grant) (writes reads : List ℕ) : Prop :=
  ∃ a, a ∈ writes ∧ (a ∈ g.writes ∨ a ∈ g.reads) ∨ a ∈ reads ∧ a ∈ g.writes

/-- How many grants on a thread write an account. -/
def writeCount (grants : List Grant) (a t : ℕ) : ℕ :=
  grants.countP fun g => g.threadId = t ∧ a ∈ g.writes

/-- How many grants on a thread read an account. -/
def readCount (grants : List Grant) (a t : ℕ) : ℕ :=
  grants.countP fun g => g.threadId = t ∧ a ∈ g.reads

variable {grants : List Grant} {g : Grant} {a t t' n : ℕ} {writes reads : List ℕ}

lemma writeCount_pos : 0 < writeCount grants a t ↔ ∃ g ∈ grants, g.threadId = t ∧ a ∈ g.writes := by
  simp [writeCount, countP_pos_iff]

lemma readCount_pos : 0 < readCount grants a t ↔ ∃ g ∈ grants, g.threadId = t ∧ a ∈ g.reads := by
  simp [readCount, countP_pos_iff]

/-- The write locks with one more grant. -/
lemma writeCount_cons_of_mem (h : a ∈ g.writes) : writeCount (g :: grants) a =
    update (writeCount grants a) g.threadId (writeCount grants a g.threadId + 1) := by
  funext t
  rw [update_apply, writeCount, countP_cons]
  by_cases ht : t = g.threadId
  · subst ht
    simp [h, writeCount]
  · simp [ht, Ne.symm ht, writeCount]

lemma writeCount_cons_of_notMem (h : a ∉ g.writes) :
    writeCount (g :: grants) a = writeCount grants a := by
  funext t
  simp [writeCount, h]

lemma readCount_cons_of_mem (h : a ∈ g.reads) : readCount (g :: grants) a =
    update (readCount grants a) g.threadId (readCount grants a g.threadId + 1) := by
  funext t
  rw [update_apply, readCount, countP_cons]
  by_cases ht : t = g.threadId
  · subst ht
    simp [h, readCount]
  · simp [ht, Ne.symm ht, readCount]

lemma readCount_cons_of_notMem (h : a ∉ g.reads) :
    readCount (g :: grants) a = readCount grants a := by
  funext t
  simp [readCount, h]

lemma exists_grant_of_pos (h : 0 < writeCount grants a t ∨ 0 < readCount grants a t) :
    ∃ g ∈ grants, g.threadId = t ∧ (a ∈ g.writes ∨ a ∈ g.reads) := by
  rcases h with h | h
  · obtain ⟨g, hg, ht, ha⟩ := writeCount_pos.mp h
    exact ⟨g, hg, ht, .inl ha⟩
  · obtain ⟨g, hg, ht, ha⟩ := readCount_pos.mp h
    exact ⟨g, hg, ht, .inr ha⟩

/-- The write locks with one grant less. -/
lemma update_writeCount_cons (h : a ∈ g.writes) :
    update (writeCount (g :: grants) a) g.threadId (writeCount (g :: grants) a g.threadId - 1)
      = writeCount grants a := by
  rw [writeCount_cons_of_mem h, update_idem, update_self, Nat.add_sub_cancel, update_eq_self]

lemma update_readCount_cons (h : a ∈ g.reads) :
    update (readCount (g :: grants) a) g.threadId (readCount (g :: grants) a g.threadId - 1)
      = readCount grants a := by
  rw [readCount_cons_of_mem h, update_idem, update_self, Nat.add_sub_cancel, update_eq_self]

/-! ## The table -/

/-- The table holds exactly the locks of the grants, which are on threads that exist, and all grants
of an account that one of them writes are on one thread. -/
structure Invariant (n : ℕ) (l : ThreadAwareAccountLocks) (grants : List Grant) : Prop where
  numThreads : l.numThreads = n
  counts : ∀ a, Counts l.locks[a]? (writeCount grants a) (readCount grants a)
  exclusive : ∀ g ∈ grants, ∀ a ∈ g.writes, ∀ g' ∈ grants,
    a ∈ g'.writes ∨ a ∈ g'.reads → g'.threadId = g.threadId
  threads : ∀ g ∈ grants, g.threadId < n
  distinct : ∀ g ∈ grants, (g.writes ++ g.reads).Nodup
  few : grants.length < lockCountSize

/-- All grants that conflict with a request are on the thread. -/
def OnThread (grants : List Grant) (writes reads : List ℕ) (t : ℕ) : Prop :=
  ∀ g ∈ grants, g.Conflicts writes reads → g.threadId = t

namespace Invariant

variable {l l' : ThreadAwareAccountLocks}

lemma new (n : ℕ) : Invariant n ⟨n, ∅⟩ [] where
  numThreads := rfl
  counts a := by
    have hnone : (∅ : OrdMap ℕ AccountLocks)[a]? = none := getElem?_emptyc
    rw [hnone]
    exact counts_none
  exclusive := by simp
  threads := by simp
  distinct := by simp
  few := by simp [lockCountSize]

/-- All locks of an account are on the thread that writes it. -/
lemma exclusive_counts (h : Invariant n l grants) (hw : 0 < writeCount grants a t)
    (h' : 0 < writeCount grants a t' ∨ 0 < readCount grants a t') : t' = t := by
  obtain ⟨g, hg, rfl, ha⟩ := writeCount_pos.mp hw
  obtain ⟨g', hg', rfl, ha'⟩ := exists_grant_of_pos h'
  exact h.exclusive g hg a ha g' hg' ha'

lemma lt_of_count (h : Invariant n l grants)
    (hpos : 0 < writeCount grants a t ∨ 0 < readCount grants a t) : t < n := by
  obtain ⟨g, hg, rfl, -⟩ := exists_grant_of_pos hpos
  exact h.threads g hg

/-- All locks of an account that conflict with another one are on the thread. -/
def LockedOn (grants : List Grant) (write : Bool) (a t : ℕ) : Prop :=
  ∀ t', 0 < writeCount grants a t' ∨ write = true ∧ 0 < readCount grants a t' → t' = t

/-- The grants that conflict with a request hold the locks that conflict with its accounts. -/
lemma onThread_iff : OnThread grants writes reads t ↔
    (∀ a ∈ writes, LockedOn grants true a t) ∧ ∀ a ∈ reads, LockedOn grants false a t := by
  constructor
  · refine fun hon => ⟨fun a ha t' ht' => ?_, fun a ha t' ht' => ?_⟩
    · obtain ⟨g, hg, rfl, hga⟩ := exists_grant_of_pos (ht'.imp_right And.right)
      exact hon g hg ⟨a, .inl ⟨ha, hga⟩⟩
    · obtain ⟨g, hg, rfl, hga⟩ := writeCount_pos.mp (ht'.resolve_right (by simp))
      exact hon g hg ⟨a, .inr ⟨ha, hga⟩⟩
  · rintro ⟨hw, hr⟩ g hg ⟨a, ⟨ha, hga | hga⟩ | ⟨ha, hga⟩⟩
    · exact hw a ha _ (.inl (writeCount_pos.mpr ⟨g, hg, rfl, hga⟩))
    · exact hw a ha _ (.inr ⟨rfl, readCount_pos.mpr ⟨g, hg, rfl, hga⟩⟩)
    · exact hr a ha _ (.inl (writeCount_pos.mpr ⟨g, hg, rfl, hga⟩))

/-- The threads that can take an account are those that all conflicting locks are on. -/
theorem schedulableThreads_spec (h : Invariant n l grants) (hn : n ≤ maxThreads) (write : Bool)
    (a : ℕ) : ∃ s, l.schedulableThreads write a = .ok s ∧
      ∀ t, s.contains t = true ↔ t < n ∧ LockedOn grants write a t := by
  unfold LockedOn
  have hcounts := h.counts a
  have hnum := h.numThreads
  unfold schedulableThreads
  cases hentry : l.locks[a]? with
  | none =>
    rw [hentry] at hcounts
    refine ⟨_, rfl, fun t => ?_⟩
    rw [hnum, ThreadSet.contains_any hn]
    have hw : ∀ t', writeCount grants a t' = 0 := hcounts.write
    have hr : ∀ t', readCount grants a t' = 0 := hcounts.read
    simp [hw, hr]
  | some locks =>
    rw [hentry] at hcounts
    obtain ⟨writeLocks, readLocks⟩ := locks
    have hwrite : WriteCounts writeLocks (writeCount grants a) := hcounts.write
    have hread : ReadCounts readLocks (readCount grants a) := hcounts.read
    cases writeLocks with
    | none =>
      cases readLocks with
      -- an entry without locks would have been removed
      | none => simpa using hcounts.occupied _ rfl
      | some readLocks =>
        have hw : ∀ t', writeCount grants a t' = 0 := hwrite
        cases write with
        | false =>
          refine ⟨_, rfl, fun t => ?_⟩
          rw [hnum, ThreadSet.contains_any hn]
          simp [hw]
        | true =>
          refine ⟨_, rfl, fun t => ?_⟩
          simp only [hw, Nat.lt_irrefl, false_or, true_and]
          obtain ⟨-, hset, t₀, ht₀⟩ := hread
          cases hone : readLocks.threadSet.onlyOneContained with
          | none =>
            simp only [Option.map_none, Option.getD_none, ThreadSet.contains_none,
              Bool.false_eq_true, false_iff, not_and]
            intro _ hall
            have : readLocks.threadSet.onlyOneContained = some t := by
              refine ThreadSet.onlyOneContained_eq_some.mpr fun t' => ?_
              rw [hset t']
              constructor
              · exact hall t'
              · rintro rfl
                rwa [hall t₀ ht₀] at ht₀
            cases hone.symm.trans this
          | some t₁ =>
            have honly := ThreadSet.onlyOneContained_eq_some.mp hone
            have ht₁ : 0 < readCount grants a t₁ := (hset t₁).mp ((honly t₁).mpr rfl)
            have hlt : t₁ < n := h.lt_of_count (.inr ht₁)
            simp only [Option.map_some, Option.getD_some]
            rw [ThreadSet.contains_only (hlt.trans_le hn)]
            constructor
            · rintro rfl
              exact ⟨hlt, fun t' ht' => (honly t').mp ((hset t').mpr ht')⟩
            · exact fun hall => (hall.2 t₁ ht₁).symm
    | some writeLocks =>
      -- the writer's thread excludes all others, for reading too
      have hpos := hwrite.pos
      have hlt : writeLocks.threadId < n := h.lt_of_count (.inl hpos)
      have hiff : ∀ t, t = writeLocks.threadId ↔ t < n ∧ LockedOn grants write a t := by
        intro t
        constructor
        · rintro rfl
          refine ⟨hlt, fun t' ht' => h.exclusive_counts hpos ?_⟩
          rcases ht' with ht' | ⟨-, ht'⟩
          · exact .inl ht'
          · exact .inr ht'
        · exact fun hall => (hall.2 _ (.inl hpos)).symm
      cases readLocks with
      | none =>
        refine ⟨_, rfl, fun t => ?_⟩
        rw [ThreadSet.contains_only (hlt.trans_le hn)]
        exact hiff t
      | some readLocks =>
        have hone := hread.onlyOneContained (fun t' ht' => h.exclusive_counts hpos (.inr ht'))
        refine ⟨_, if_pos hone, fun t => ?_⟩
        rw [ThreadSet.onlyOneContained_eq_some.mp hone t]
        exact hiff t

/-- The threads, or `none` for none of them. -/
def Threads (threads : Option ThreadSet) (P : ℕ → Prop) : Prop :=
  match threads with
  | none => ∀ t, ¬ P t
  | some s => ∀ t, s.contains t = true ↔ P t

lemma Threads.congr {threads : Option ThreadSet} {P Q : ℕ → Prop} (h : Threads threads P)
    (hiff : ∀ t, P t ↔ Q t) : Threads threads Q := by
  have hPQ : P = Q := funext fun t => propext (hiff t)
  rwa [← hPQ]

/-- The threads that can take a list of accounts as well. -/
lemma narrowThreads_spec (h : Invariant n l grants) (hn : n ≤ maxThreads) (write : Bool)
    (accounts : List ℕ) {threads : Option ThreadSet} {P : ℕ → Prop} (hP : ∀ t, P t → t < n)
    (hthreads : Threads threads P) :
    ∃ threads', accounts.foldlM (l.narrowThreads write) threads = .ok threads'
      ∧ Threads threads' fun t => P t ∧ ∀ a ∈ accounts, LockedOn grants write a t := by
  induction accounts generalizing threads P with
  | nil =>
    refine ⟨threads, rfl, ?_⟩
    simpa using hthreads
  | cons a accounts ih =>
    obtain ⟨s, hs, hcontains⟩ := h.schedulableThreads_spec hn write a
    let P' : ℕ → Prop := fun t => P t ∧ LockedOn grants write a t
    obtain ⟨threads₁, hthreads₁, hP₁⟩ : ∃ threads₁, l.narrowThreads write threads a = .ok threads₁
        ∧ Threads threads₁ P' := by
      cases threads with
      | none => exact ⟨none, rfl, fun t ht => hthreads t ht.1⟩
      | some threads =>
        have hand : ∀ t, (threads.bitand s).contains t = true ↔ P' t := by
          intro t
          rw [ThreadSet.contains_bitand, hthreads t, hcontains t]
          exact ⟨fun ht => ⟨ht.1, ht.2.2⟩, fun ht => ⟨ht.1, hP t ht.1, ht.2⟩⟩
        refine ⟨_, by rw [narrowThreads, hs]; rfl, ?_⟩
        dsimp only
        split_ifs with hempty
        · intro t ht
          have := (hand t).mpr ht
          rw [ThreadSet.isEmpty_iff.mp hempty t] at this
          cases this
        · exact hand
    obtain ⟨threads', hrun, hresult⟩ := ih (P := P') (fun t ht => hP t ht.1) hP₁
    refine ⟨threads', foldlM_cons_eq_ok.mpr ⟨threads₁, hthreads₁, hrun⟩, hresult.congr fun t => ?_⟩
    rw [forall_mem_cons, ← and_assoc]

/-- The threads that can take all accounts of a request are those that all conflicting grants are
on. -/
theorem accountsSchedulableThreads_spec (h : Invariant n l grants) (hn : n ≤ maxThreads)
    (writes reads : List ℕ) : ∃ threads, l.accountsSchedulableThreads writes reads = .ok threads
      ∧ Threads threads fun t => t < n ∧ OnThread grants writes reads t := by
  have hany : Threads (some (.any l.numThreads)) fun t => t < n := fun t => by
    rw [h.numThreads, ThreadSet.contains_any hn]
  obtain ⟨threads₁, hrun₁, hthreads₁⟩ := h.narrowThreads_spec hn true writes (fun t ht => ht) hany
  obtain ⟨threads₂, hrun₂, hthreads₂⟩ := h.narrowThreads_spec hn false reads
    (fun t ht => ht.1) hthreads₁
  refine ⟨threads₂, bind_eq_ok.mpr ⟨threads₁, hrun₁, hrun₂⟩, hthreads₂.congr fun t => ?_⟩
  rw [and_assoc, onThread_iff]

/-- The step returns, and changes the entry of its account alone. -/
def Changes (n : ℕ) (step : ThreadAwareAccountLocks → ℕ → Except Panic ThreadAwareAccountLocks)
    (l : ThreadAwareAccountLocks) (a : ℕ) (Q : Option AccountLocks → Prop) : Prop :=
  ∃ l', step l a = .ok l' ∧ l'.numThreads = n ∧ Q l'.locks[a]?
    ∧ ∀ a' ≠ a, l'.locks[a']? = l.locks[a']?

/-- One account locked: its entry changes as `lock` says, the other entries stay. -/
lemma lockAccount_returns {lock : AccountLocks → ℕ → Except Panic AccountLocks}
    {Q : Option AccountLocks → Prop} (hnum : l.numThreads = n)
    (hlock : ∃ locks, lock (l.locks[a]?.getD .default) t = .ok locks ∧ Q (some locks)) :
    Changes n (lockAccount lock t) l a Q := by
  obtain ⟨locks, hok, hQ⟩ := hlock
  refine ⟨{ l with locks := l.locks.insert a locks }, ?_, hnum, ?_, fun a' ha' => ?_⟩
  · rw [lockAccount, hok]
    rfl
  · dsimp only
    rw [OrdMap.getElem?_insert, if_pos rfl]
    exact hQ
  · dsimp only
    rw [OrdMap.getElem?_insert, if_neg (Ne.symm ha')]

/-- One account unlocked: its entry changes as `unlock` says, the other entries stay. -/
lemma unlockAccount_returns {unlock : AccountLocks → ℕ → Except Panic (Option AccountLocks)}
    {Q : Option AccountLocks → Prop} (hnum : l.numThreads = n)
    (hunlock : ∃ locks entry', l.locks[a]? = some locks ∧ unlock locks t = .ok entry' ∧ Q entry') :
    Changes n (unlockAccount unlock t) l a Q := by
  obtain ⟨locks, entry', hentry, hok, hQ⟩ := hunlock
  cases entry' with
  | none =>
    refine ⟨{ l with locks := l.locks.erase a }, ?_, hnum, ?_, fun a' ha' => ?_⟩
    · rw [unlockAccount, hentry]
      simp only [hok]
      rfl
    · dsimp only
      rw [getElem?_erase_self]
      exact hQ
    · dsimp only
      rw [OrdMap.getElem?_erase, if_neg (Ne.symm ha')]
  | some locks' =>
    refine ⟨{ l with locks := l.locks.insert a locks' }, ?_, hnum, ?_, fun a' ha' => ?_⟩
    · rw [unlockAccount, hentry]
      simp only [hok]
      rfl
    · dsimp only
      rw [OrdMap.getElem?_insert, if_pos rfl]
      exact hQ
    · dsimp only
      rw [OrdMap.getElem?_insert, if_neg (Ne.symm ha')]

/-- The step takes the counts of each of the accounts from `w` and `r` to `w'` and `r'`. -/
def Recounts (n : ℕ) (w r w' r' : ℕ → ℕ → ℕ) (accounts : List ℕ)
    (step : ThreadAwareAccountLocks → ℕ → Except Panic ThreadAwareAccountLocks) : Prop :=
  ∀ l, ∀ a ∈ accounts, l.numThreads = n → Counts l.locks[a]? (w a) (r a) →
    Changes n step l a (Counts · (w' a) (r' a))

/-- Accounts that are locked for writing and then accounts that are locked for reading, or unlocked:
two loops over distinct accounts that change the counts of their own accounts. -/
lemma loops_return {w r w' r' : ℕ → ℕ → ℕ}
    {stepWrite stepRead : ThreadAwareAccountLocks → ℕ → Except Panic ThreadAwareAccountLocks}
    (hnodup : (writes ++ reads).Nodup) (hnum : l.numThreads = n)
    (hcounts : ∀ a, Counts l.locks[a]? (w a) (r a))
    (hwrite : Recounts n w r w' r' writes stepWrite) (hread : Recounts n w r w' r' reads stepRead)
    (hother : ∀ a, a ∉ writes → a ∉ reads → w' a = w a ∧ r' a = r a) :
    ∃ l', (do let l ← writes.foldlM stepWrite l; reads.foldlM stepRead l) = .ok l'
      ∧ l'.numThreads = n ∧ ∀ a, Counts l'.locks[a]? (w' a) (r' a) := by
  obtain ⟨hnodupW, hnodupR, hdisjoint⟩ := nodup_append.mp hnodup
  obtain ⟨l₁, hrun₁, hnum₁, hdone₁, hrest₁⟩ := foldlM_keys
    (fun (s : ThreadAwareAccountLocks) a => s.locks[a]?) stepWrite (fun s => s.numThreads = n)
    (fun a e => a ∈ writes ∧ Counts e (w a) (r a)) (fun a e => Counts e (w' a) (r' a))
    (fun s a hs ha => hwrite s a ha.1 hs ha.2) hnodupW hnum (fun a ha => ⟨ha, hcounts a⟩)
  obtain ⟨l₂, hrun₂, hnum₂, hdone₂, hrest₂⟩ := foldlM_keys
    (fun (s : ThreadAwareAccountLocks) a => s.locks[a]?) stepRead (fun s => s.numThreads = n)
    (fun a e => a ∈ reads ∧ Counts e (w a) (r a)) (fun a e => Counts e (w' a) (r' a))
    (fun s a hs ha => hread s a ha.1 hs ha.2) hnodupR hnum₁
    (fun a ha => ⟨ha, by
      have hnot : a ∉ writes := fun hw => hdisjoint a hw a ha rfl
      rw [hrest₁ a hnot]
      exact hcounts a⟩)
  refine ⟨l₂, bind_eq_ok.mpr ⟨l₁, hrun₁, hrun₂⟩, hnum₂, fun a => ?_⟩
  by_cases hr : a ∈ reads
  · exact hdone₂ a hr
  rw [hrest₂ a hr]
  by_cases hw : a ∈ writes
  · exact hdone₁ a hw
  · rw [hrest₁ a hw, (hother a hw hr).1, (hother a hw hr).2]
    exact hcounts a

/-- Accounts can be locked for a thread that all conflicting grants are on. -/
theorem lockAccounts_returns (h : Invariant n l grants) (hn : n ≤ maxThreads)
    (hnodup : (writes ++ reads).Nodup) (hfew : grants.length + 1 < lockCountSize) (ht : t < n)
    (hon : OnThread grants writes reads t) : ∃ l', l.lockAccounts writes reads t = .ok l'
      ∧ Invariant n l' (⟨t, writes, reads⟩ :: grants) := by
  have hdisjoint := (nodup_append.mp hnodup).2.2
  have hltW : ∀ a, writeCount grants a t + 1 < lockCountSize := fun a =>
    (Nat.succ_le_succ countP_le_length).trans_lt hfew
  have hltR : ∀ a, readCount grants a t + 1 < lockCountSize := fun a =>
    (Nat.succ_le_succ countP_le_length).trans_lt hfew
  obtain ⟨honW, honR⟩ := onThread_iff.mp hon
  have hwrite : Recounts n (writeCount grants) (readCount grants)
      (writeCount (⟨t, writes, reads⟩ :: grants)) (readCount (⟨t, writes, reads⟩ :: grants)) writes
      (·.writeLockAccount t ·) := by
    intro s a ha hs hc
    refine lockAccount_returns hs ?_
    rw [writeCount_cons_of_mem ha,
      readCount_cons_of_notMem (g := ⟨t, writes, reads⟩) fun hr => hdisjoint a ha a hr rfl]
    exact hc.writeLock (fun t' ht' => honW a ha t' (.inl ht'))
      (fun t' ht' => honW a ha t' (.inr ⟨rfl, ht'⟩)) (hltW a)
  have hread : Recounts n (writeCount grants) (readCount grants)
      (writeCount (⟨t, writes, reads⟩ :: grants)) (readCount (⟨t, writes, reads⟩ :: grants)) reads
      (·.readLockAccount t ·) := by
    intro s a ha hs hc
    refine lockAccount_returns hs ?_
    rw [readCount_cons_of_mem ha,
      writeCount_cons_of_notMem (g := ⟨t, writes, reads⟩) fun hw => hdisjoint a hw a ha rfl]
    exact hc.readLock (fun t' ht' => honR a ha t' (.inl ht')) (ht.trans_le hn) (hltR a)
  obtain ⟨l', hrun, hnum, hcounts⟩ := loops_return hnodup h.numThreads h.counts hwrite hread
    (fun a hw hr => ⟨writeCount_cons_of_notMem hw, readCount_cons_of_notMem hr⟩)
  refine ⟨l', ?_, ⟨hnum, hcounts, ?_, ?_, ?_, hfew⟩⟩
  · rw [lockAccounts, h.numThreads, if_pos ht]
    exact hrun
  · intro g hg a ha g' hg' ha'
    rcases mem_cons.mp hg with rfl | hg <;> rcases mem_cons.mp hg' with rfl | hg'
    · rfl
    · exact hon g' hg' ⟨a, .inl ⟨ha, ha'⟩⟩
    · refine (hon g hg ⟨a, ?_⟩).symm
      rcases ha' with ha' | ha'
      · exact .inl ⟨ha', .inl ha⟩
      · exact .inr ⟨ha', ha⟩
    · exact h.exclusive g hg a ha g' hg' ha'
  · exact forall_mem_cons.mpr ⟨ht, h.threads⟩
  · exact forall_mem_cons.mpr ⟨hnodup, h.distinct⟩

/-- The order of the grants does not matter. -/
lemma perm {grants' : List Grant} (h : Invariant n l grants) (hperm : grants.Perm grants') :
    Invariant n l grants' where
  numThreads := h.numThreads
  counts a := by
    have hw : writeCount grants' a = writeCount grants a := funext fun t => (hperm.countP_eq _).symm
    have hr : readCount grants' a = readCount grants a := funext fun t => (hperm.countP_eq _).symm
    rw [hw, hr]
    exact h.counts a
  exclusive g hg a ha g' hg' := h.exclusive g (hperm.mem_iff.mpr hg) a ha g' (hperm.mem_iff.mpr hg')
  threads g hg := h.threads g (hperm.mem_iff.mpr hg)
  distinct g hg := h.distinct g (hperm.mem_iff.mpr hg)
  few := by
    rw [← hperm.length_eq]
    exact h.few

/-- The accounts of an outstanding grant can be unlocked, in any order. -/
theorem unlockAccounts_returns (h : Invariant n l (g :: grants)) (hwrites : writes.Perm g.writes)
    (hreads : reads.Perm g.reads) :
    ∃ l', l.unlockAccounts writes reads g.threadId = .ok l' ∧ Invariant n l' grants := by
  have hnodup : (writes ++ reads).Nodup :=
    ((hwrites.append hreads).nodup_iff).mpr (h.distinct g (.head _))
  have hdisjoint := (nodup_append.mp hnodup).2.2
  have hltW : ∀ a, writeCount (g :: grants) a g.threadId < lockCountSize := fun a =>
    countP_le_length.trans_lt h.few
  have hltR : ∀ a, readCount (g :: grants) a g.threadId < lockCountSize := fun a =>
    countP_le_length.trans_lt h.few
  have hwrite : Recounts n (writeCount (g :: grants)) (readCount (g :: grants)) (writeCount grants)
      (readCount grants) writes (·.writeUnlockAccount g.threadId ·) := by
    intro s a ha hs hc
    have hga : a ∈ g.writes := hwrites.mem_iff.mp ha
    have hnot : a ∉ g.reads := fun hr => hdisjoint a ha a (hreads.mem_iff.mpr hr) rfl
    refine unlockAccount_returns hs ?_
    rw [← update_writeCount_cons hga, ← readCount_cons_of_notMem hnot]
    exact hc.writeUnlock (writeCount_pos.mpr ⟨g, .head _, rfl, hga⟩) (hltW a)
  have hread : Recounts n (writeCount (g :: grants)) (readCount (g :: grants)) (writeCount grants)
      (readCount grants) reads (·.readUnlockAccount g.threadId ·) := by
    intro s a ha hs hc
    have hga : a ∈ g.reads := hreads.mem_iff.mp ha
    have hnot : a ∉ g.writes := fun hw => hdisjoint a (hwrites.mem_iff.mpr hw) a ha rfl
    refine unlockAccount_returns hs ?_
    rw [← update_readCount_cons hga, ← writeCount_cons_of_notMem hnot]
    exact hc.readUnlock (readCount_pos.mpr ⟨g, .head _, rfl, hga⟩) (hltR a)
  obtain ⟨l', hrun, hnum, hcounts⟩ := loops_return hnodup h.numThreads h.counts hwrite hread
    (fun a hw hr => ⟨(writeCount_cons_of_notMem fun hg => hw (hwrites.mem_iff.mpr hg)).symm,
      (readCount_cons_of_notMem fun hg => hr (hreads.mem_iff.mpr hg)).symm⟩)
  refine ⟨l', hrun, ⟨hnum, hcounts, ?_, ?_, ?_, ?_⟩⟩
  · intro g₁ hg₁ a ha g₂ hg₂
    exact h.exclusive g₁ (.tail _ hg₁) a ha g₂ (.tail _ hg₂)
  · exact fun g' hg' => h.threads g' (.tail _ hg')
  · exact fun g' hg' => h.distinct g' (.tail _ hg')
  · exact (Nat.lt_succ_self _).trans h.few

/-- Without grants the table is empty. -/
lemma isEmpty_locks (h : Invariant n l []) : l.locks.isEmpty = true := by
  rw [isEmpty_iff_forall_not_mem]
  intro a ha
  rw [mem_iff_isSome_getElem?, (h.counts a).eq_none] at ha
  cases ha

end Invariant

/-! ## Runs -/

/-- The selector chooses one of the threads it is offered. -/
def Chooses (selector : ThreadSet → ℕ) : Prop :=
  ∀ s : ThreadSet, s.isEmpty = false → s.contains (selector s) = true

/-- All grants that conflict with the request are on one allowed thread. -/
def Grantable (n : ℕ) (grants : List Grant) (allowed : ThreadSet) (writes reads : List ℕ) : Prop :=
  ∃ t, t < n ∧ allowed.contains t = true ∧ OnThread grants writes reads t

/-- A request that can be granted locks its accounts on such a thread, and any other one changes
nothing. -/
theorem Invariant.tryLockAccounts_spec {l : ThreadAwareAccountLocks} {selector : ThreadSet → ℕ}
    (h : Invariant n l grants) (hn : n ≤ maxThreads) (writes reads : List ℕ) (allowed : ThreadSet)
    (hselector : Chooses selector) :
    (∃ t, (t < n ∧ allowed.contains t = true ∧ OnThread grants writes reads t)
      ∧ l.tryLockAccounts writes reads allowed selector =
        (l.lockAccounts writes reads t).map fun l' => (.ok t, l'))
    ∨ (∃ e, l.tryLockAccounts writes reads allowed selector = .ok (.error e, l))
      ∧ ¬ Grantable n grants allowed writes reads := by
  obtain ⟨threads, hthreads, hspec⟩ := h.accountsSchedulableThreads_spec hn writes reads
  unfold tryLockAccounts
  simp only [hthreads]
  cases threads with
  | none => exact .inr ⟨⟨_, rfl⟩, fun ⟨t, ht, _, hon⟩ => hspec t ⟨ht, hon⟩⟩
  | some s =>
    by_cases hempty : (s.bitand allowed).isEmpty = true
    · refine .inr ⟨⟨.threadNotAllowed, bind_eq_ok.mpr ⟨_, rfl, if_pos hempty⟩⟩, ?_⟩
      rintro ⟨t, ht, hallowed, hon⟩
      have hcontains := ThreadSet.isEmpty_iff.mp hempty t
      rw [← Bool.not_eq_true, ThreadSet.contains_bitand] at hcontains
      exact hcontains ⟨(hspec t).mpr ⟨ht, hon⟩, hallowed⟩
    have hchosen := hselector _ (Bool.eq_false_iff.mpr hempty)
    rw [ThreadSet.contains_bitand] at hchosen
    obtain ⟨ht, hon⟩ := (hspec _).mp hchosen.1
    refine .inl ⟨_, ⟨ht, hchosen.2, hon⟩, ?_⟩
    simp only [bind, Except.bind, if_neg hempty]
    cases l.lockAccounts writes reads (selector (s.bitand allowed)) <;> rfl

/-- The tables that calls lead to, with the grants that are outstanding then. -/
inductive Reachable (n : ℕ) : ThreadAwareAccountLocks → List Grant → Prop
  | new {l : ThreadAwareAccountLocks} (hcall : ThreadAwareAccountLocks.new n = .ok l) :
      Reachable n l []
  | granted {l l' : ThreadAwareAccountLocks} {grants : List Grant} {writes reads : List ℕ}
      {allowed : ThreadSet} {selector : ThreadSet → ℕ} {t : ℕ} (h : Reachable n l grants)
      (hnodup : (writes ++ reads).Nodup) (hfew : grants.length + 1 < lockCountSize)
      (hselector : Chooses selector)
      (hcall : l.tryLockAccounts writes reads allowed selector = .ok (.ok t, l')) :
      Reachable n l' (⟨t, writes, reads⟩ :: grants)
  | refused {l l' : ThreadAwareAccountLocks} {grants : List Grant} {writes reads : List ℕ}
      {allowed : ThreadSet} {selector : ThreadSet → ℕ} {e : TryLockError} (h : Reachable n l grants)
      (hselector : Chooses selector)
      (hcall : l.tryLockAccounts writes reads allowed selector = .ok (.error e, l')) :
      Reachable n l' grants
  | unlocked {l l' : ThreadAwareAccountLocks} {grants : List Grant} {g : Grant}
      {writes reads : List ℕ} (h : Reachable n l grants) (hg : g ∈ grants)
      (hwrites : writes.Perm g.writes) (hreads : reads.Perm g.reads)
      (hcall : l.unlockAccounts writes reads g.threadId = .ok l') :
      Reachable n l' (grants.erase g)

/-- A table can be created for every number of threads up to the maximum, and for no other. -/
lemma new_eq_ok {l : ThreadAwareAccountLocks} : new n = .ok l ↔
    (0 < n ∧ n ≤ maxThreads) ∧ l = ⟨n, ∅⟩ := by
  unfold new
  split_ifs with hn
  · simp [hn, eq_comm]
  · simp [hn]

/-- The number of threads is one that a table can be created for. -/
lemma Reachable.le_maxThreads {l : ThreadAwareAccountLocks} (h : Reachable n l grants) :
    n ≤ maxThreads := by
  induction h with
  | new hcall => exact (new_eq_ok.mp hcall).1.2
  | granted _ _ _ _ _ ih | refused _ _ _ ih | unlocked _ _ _ _ _ ih => exact ih

/-- The table holds the outstanding grants in every reachable state. -/
theorem Reachable.invariant {l : ThreadAwareAccountLocks} (h : Reachable n l grants) :
    Invariant n l grants := by
  have hn := h.le_maxThreads
  induction h with
  | new hcall =>
    rw [(new_eq_ok.mp hcall).2]
    exact Invariant.new n
  | @granted _ _ _ writes reads allowed _ _ h hnodup hfew hselector hcall ih =>
    rcases ih.tryLockAccounts_spec hn writes reads allowed hselector with
      ⟨t, ⟨ht, -, hon⟩, hok⟩ | ⟨⟨e, hok⟩, -⟩
    · obtain ⟨l', hlock, hinv⟩ := ih.lockAccounts_returns hn hnodup hfew ht hon
      rw [hlock] at hok
      cases hcall.symm.trans hok
      exact hinv
    · cases hcall.symm.trans hok
  | @refused _ _ _ writes reads allowed _ _ h hselector hcall ih =>
    rcases ih.tryLockAccounts_spec hn writes reads allowed hselector with
      ⟨t, -, hok⟩ | ⟨⟨e, hok⟩, -⟩
    · obtain ⟨l', -, hl'⟩ := map_eq_ok.mp (hok.symm.trans hcall)
      cases hl'
    · cases hcall.symm.trans hok
      exact ih
  | unlocked h hg hwrites hreads hcall ih =>
    obtain ⟨l', hok, hinv⟩ := (ih.perm (perm_cons_erase hg)).unlockAccounts_returns hwrites hreads
    cases hcall.symm.trans hok
    exact hinv

/-- In every reachable state the table holds exactly the outstanding grants; all grants of an
account that one of them writes are on one thread; a request returns, is granted exactly if all
grants that conflict with it are on one allowed thread, and changes nothing if it is refused; an
outstanding grant can be released; and without grants the table is empty. -/
theorem reachable_exact {l : ThreadAwareAccountLocks} (h : Reachable n l grants) :
    (∀ a, Counts l.locks[a]? (writeCount grants a) (readCount grants a))
    ∧ (∀ g ∈ grants, ∀ a ∈ g.writes, ∀ g' ∈ grants,
      a ∈ g'.writes ∨ a ∈ g'.reads → g'.threadId = g.threadId)
    ∧ (∀ (writes reads : List ℕ) (allowed : ThreadSet) (selector : ThreadSet → ℕ),
      (writes ++ reads).Nodup → Chooses selector →
      (Grantable n grants allowed writes reads → grants.length + 1 < lockCountSize) →
      ∃ result l', l.tryLockAccounts writes reads allowed selector = .ok (result, l')
        ∧ ((∃ t, result = .ok t) ↔ Grantable n grants allowed writes reads)
        ∧ (∀ t, result = .ok t → allowed.contains t = true) ∧ ∀ e, result = .error e → l' = l)
    ∧ (∀ g ∈ grants, ∀ writes reads : List ℕ, writes.Perm g.writes → reads.Perm g.reads →
      ∃ l', l.unlockAccounts writes reads g.threadId = .ok l')
    ∧ (grants = [] → l.locks.isEmpty = true) := by
  have hn := h.le_maxThreads
  have hinv := h.invariant
  refine ⟨hinv.counts, hinv.exclusive, ?_, ?_, ?_⟩
  · intro writes reads allowed selector hnodup hselector hfew
    rcases hinv.tryLockAccounts_spec hn writes reads allowed hselector with
      ⟨t, hthread, hok⟩ | ⟨⟨e, hok⟩, hnone⟩
    · obtain ⟨l', hlock, -⟩ :=
        hinv.lockAccounts_returns hn hnodup (hfew ⟨t, hthread⟩) hthread.1 hthread.2.2
      rw [hlock] at hok
      refine ⟨_, l', hok, ⟨fun _ => ⟨t, hthread⟩, fun _ => ⟨t, rfl⟩⟩, ?_, by simp⟩
      intro t' ht'
      cases ht'
      exact hthread.2.1
    · exact ⟨_, l, hok, ⟨by simp, fun h => absurd h hnone⟩, by simp, fun _ _ => rfl⟩
  · intro g hg writes reads hwrites hreads
    obtain ⟨l', hl', -⟩ := (hinv.perm (perm_cons_erase hg)).unlockAccounts_returns hwrites hreads
    exact ⟨l', hl'⟩
  · rintro rfl
    exact hinv.isEmpty_locks

/-- Two threads; account 1 is written and account 2 read on thread 0. A request to write account 2
on thread 1 is refused. -/
theorem reachable_exact_twoThreads : ∃ l, Reachable 2 l [⟨0, [1], [2]⟩]
    ∧ Counts l.locks[1]? (writeCount [⟨0, [1], [2]⟩] 1) (readCount [⟨0, [1], [2]⟩] 1)
    ∧ ∃ e, l.tryLockAccounts [2] [] (.only 1) ThreadSet.trailingZeros = .ok (.error e, l) := by
  have hselector : Chooses ThreadSet.trailingZeros := ThreadSet.contains_trailingZeros
  have hnew : Reachable 2 ⟨2, ∅⟩ [] := .new rfl
  have hnodup : ([1] ++ [2] : List ℕ).Nodup := by decide
  obtain ⟨-, -, hfirst, -, -⟩ := reachable_exact hnew
  obtain ⟨result, l, hcall, hiff, hallowed, -⟩ :=
    hfirst [1] [2] (.only 0) ThreadSet.trailingZeros hnodup hselector fun _ => by decide
  obtain ⟨t, rfl⟩ := hiff.mpr ⟨0, by decide, by decide, by simp [OnThread]⟩
  obtain rfl : t = 0 := (ThreadSet.contains_only (by decide)).mp (hallowed t rfl)
  have hreachable : Reachable 2 l [⟨0, [1], [2]⟩] :=
    hnew.granted hnodup (by decide) hselector hcall
  obtain ⟨hcounts, -, htry, -, -⟩ := reachable_exact hreachable
  refine ⟨l, hreachable, hcounts 1, ?_⟩
  obtain ⟨result, l', hok, hiff, -, hsame⟩ :=
    htry [2] [] (.only 1) ThreadSet.trailingZeros (by decide) hselector fun _ => by decide
  cases result with
  | ok t =>
    obtain ⟨t', -, hallowed, hon⟩ := hiff.mp ⟨t, rfl⟩
    obtain rfl : t' = 1 := (ThreadSet.contains_only (by decide)).mp hallowed
    exact absurd (hon ⟨0, [1], [2]⟩ (by simp) ⟨2, by simp⟩) (by decide)
  | error e => exact ⟨e, by rw [hok, hsame e rfl]⟩

end Trezoa.SchedulingUtils
