import Trezoa.Runtime.EpochRewards

/-!
# Partitioned rewards are paid exactly once

* `runBlocks_pays`: over all blocks, every reward is paid once, in the block of its partition.
* `runBlocks_exceptions`: what happens without its conditions.
-/

namespace Trezoa.Runtime

open Lib List Nat

/-! ## Indices -/

namespace PartitionedStakeRewards

variable {all : PartitionedStakeRewards} {entry : ℕ × PartitionedStakeReward}

lemma mem_enumeratedRewardsIter :
    entry ∈ all.enumeratedRewardsIter ↔ all.rewards[entry.1]? = some (some entry.2) := by
  obtain ⟨index, reward⟩ := entry
  simp only [enumeratedRewardsIter, mem_filterMap, Option.map_eq_some_iff, Prod.mk.injEq]
  constructor
  · rintro ⟨⟨hole, index'⟩, hmem, reward', hreward, rfl, rfl⟩
    rw [mk_mem_zipIdx_iff_getElem?] at hmem
    rw [hmem]
    exact congrArg some hreward
  · intro h
    exact ⟨(some reward, index), mk_mem_zipIdx_iff_getElem?.mpr h, reward, rfl, rfl, rfl⟩

lemma nodup_enumeratedRewardsIter : (all.enumeratedRewardsIter.map Prod.fst).Nodup := by
  have hsub : (all.enumeratedRewardsIter.map Prod.fst).Sublist
      (all.rewards.zipIdx.map Prod.snd) := by
    unfold enumeratedRewardsIter
    generalize all.rewards.zipIdx = l
    induction l with
    | nil => exact .slnil
    | cons a l ih =>
      cases ha : a.1 with
      | none =>
        rw [filterMap_cons_none (by rw [ha]; rfl), map_cons]
        exact ih.cons _
      | some reward =>
        rw [filterMap_cons_some (by rw [ha]; rfl), map_cons, map_cons]
        exact ih.cons_cons _
  refine hsub.nodup ?_
  rw [zipIdx_map_snd]
  exact nodup_range'

end PartitionedStakeRewards

open PartitionedStakeRewards

/-! ## Paying a partition -/

/-- A stake account with its reward. -/
def credited (account : StakeAccount) (reward : PartitionedStakeReward) : StakeAccount :=
  { account with lamports := account.lamports + reward.stakeReward, stake := reward.stake }

/-- An account is as the reward was calculated for, and there is room for the reward. -/
@[mk_iff]
structure Payable (account : StakeAccount) (reward : PartitionedStakeReward) : Prop where
  lamports_ne : account.lamports ≠ 0
  dataFits : account.dataFits = true
  stake : min (account.stake.delegationStake + reward.stakeReward) u64Max =
    reward.stake.delegationStake
  balance : account.lamports + reward.stakeReward ≤ u64Max
  amount : reward.stakeReward ≤ i64Max

section Pay
variable {delegations : ℕ → Option StakeAccount} {all : PartitionedStakeRewards}
  {entries : List (ℕ × PartitionedStakeReward)}

/-- The update of a reward. -/
def updateOf (account : StakeAccount) (reward : PartitionedStakeReward) : StakeReward :=
  ⟨reward.stakePubkey, ⟨reward.stakeReward⟩, credited account reward⟩

lemma buildUpdatedStakeReward_eq {account : StakeAccount} {reward : PartitionedStakeReward}
    (hmem : delegations reward.stakePubkey = some account) (h : Payable account reward) :
    buildUpdatedStakeReward delegations reward = .ok (.ok (updateOf account reward)) := by
  unfold buildUpdatedStakeReward
  rw [hmem]
  dsimp only
  rw [if_neg (not_lt.mpr h.balance), if_neg (not_not.mpr h.stake), h.dataFits,
    if_neg (by simp), if_neg (not_lt.mpr h.amount)]
  simp [updateOf, credited, h.dataFits]

section
variable (account : ℕ → StakeAccount)

/-- The rewards of a list are all distributed. -/
lemma storeReward_loop {results : DistributionResults}
    (hmem : ∀ entry ∈ entries, entry ∈ all.enumeratedRewardsIter)
    (haccount : ∀ entry ∈ entries,
      delegations entry.2.stakePubkey = some (account entry.2.stakePubkey))
    (hpay : ∀ entry ∈ entries, Payable (account entry.2.stakePubkey) entry.2)
    (hsum : results.lamportsDistributed +
      (entries.map fun entry => entry.2.stakeReward).sum ≤ u64Max) :
    (entries.map Prod.fst).foldlM (storeReward delegations all) results =
      .ok ⟨results.lamportsDistributed + (entries.map fun entry => entry.2.stakeReward).sum,
        results.lamportsBurned, results.updatedStakeRewards ++
          entries.map fun entry => updateOf (account entry.2.stakePubkey) entry.2⟩ := by
  induction entries generalizing results with
  | nil => simp [pure, Except.pure]
  | cons entry entries ih =>
    rw [map_cons, sum_cons] at hsum
    rw [map_cons]
    refine foldlM_cons_eq_ok.mpr
      ⟨⟨results.lamportsDistributed + entry.2.stakeReward, results.lamportsBurned,
        results.updatedStakeRewards ++ [updateOf (account entry.2.stakePubkey) entry.2]⟩, ?_, ?_⟩
    · unfold storeReward
      rw [mem_enumeratedRewardsIter.mp (hmem entry (.head _))]
      refine bind_eq_ok.mpr ⟨_, buildUpdatedStakeReward_eq (haccount entry (.head _))
        (hpay entry (.head _)), map_eq_ok.mpr ⟨_, ?_, rfl⟩⟩
      rw [addChecked, if_pos]
      omega
    · rw [ih (fun entry h => hmem entry (.tail _ h))
        (fun entry h => haccount entry (.tail _ h))
        (fun entry h => hpay entry (.tail _ h)) (by dsimp only; omega)]
      simp [add_assoc]

/-- Accounts that are not updated stay as they are. -/
lemma storeAccount_other {key : ℕ} (hkey : ∀ entry ∈ entries, entry.2.stakePubkey ≠ key) :
    (entries.map fun entry => updateOf (account entry.2.stakePubkey) entry.2).foldl storeAccount
      delegations key = delegations key := by
  induction entries generalizing delegations with
  | nil => rfl
  | cons entry entries ih =>
    rw [map_cons, foldl_cons, ih fun entry h => hkey entry (.tail _ h)]
    exact Function.update_of_ne (Ne.symm (hkey entry (.head _))) _ _

/-- Accounts that are updated have their reward. -/
lemma storeAccount_updated {entry : ℕ × PartitionedStakeReward}
    (hnodup : (entries.map fun entry => entry.2.stakePubkey).Nodup)
    (hpay : ∀ entry ∈ entries, Payable (account entry.2.stakePubkey) entry.2)
    (hmem : entry ∈ entries) :
    (entries.map fun entry => updateOf (account entry.2.stakePubkey) entry.2).foldl storeAccount
      delegations entry.2.stakePubkey = some (credited (account entry.2.stakePubkey) entry.2) := by
  induction entries generalizing delegations with
  | nil => cases hmem
  | cons a entries ih =>
    rw [map_cons, nodup_cons] at hnodup
    rw [map_cons, foldl_cons]
    rcases mem_cons.mp hmem with rfl | hmem
    · rw [storeAccount_other account fun b hb heq =>
        hnodup.1 (mem_map.mpr ⟨b, hb, heq⟩)]
      have hne : (credited (account entry.2.stakePubkey) entry.2).lamports ≠ 0 := by
        have := (hpay entry (.head _)).lamports_ne
        unfold credited
        dsimp only
        omega
      change Function.update delegations entry.2.stakePubkey _ entry.2.stakePubkey = _
      rw [Function.update_self]
      exact if_neg hne
    · exact ih hnodup.2 (fun entry h => hpay entry (.tail _ h)) hmem

end
end Pay

/-! ## The account of the sysvar -/

section
variable (bank : RewardsBank) (epochRewards : EpochRewards)

/-- The sysvar is stored with its minimum balance. -/
@[simp]
lemma issued_updateSysvarAccount : (updateSysvarAccount bank epochRewards).issued = 0 := by
  simp [updateSysvarAccount, RewardsBank.issued]

variable {bank}

/-- A sysvar that has its minimum balance keeps it. -/
lemma updateSysvarAccount_eq (h : bank.issued = 0) (hcap : bank.capitalization ≤ u64Max) :
    updateSysvarAccount bank epochRewards = { bank with epochRewards := epochRewards } := by
  have hbalance : some (max bank.minimumBalance (bank.sysvarBalance.getD 1)) =
      bank.sysvarBalance := by
    rw [RewardsBank.issued] at h
    cases heq : bank.sysvarBalance with
    | none =>
      rw [heq, Option.getD_none, Option.getD_none] at h
      omega
    | some balance =>
      rw [heq, Option.getD_some, Option.getD_some] at h
      exact congrArg some (by rw [Option.getD_some]; omega)
  rw [updateSysvarAccount, hbalance, h, add_zero, mod_eq_of_lt (lt_succ_of_le hcap)]

end

/-! ## The calculation -/

/-- A calculation for the accounts of a bank: the totals are those of the rewards and within the
amount of the epoch, each stake account has one reward, and all can be paid. -/
structure RewardsCalculation.Fits (calculation : RewardsCalculation) (bank : RewardsBank)
    (account : ℕ → StakeAccount) : Prop where
  total : calculation.totalStakeRewardsLamports =
    (calculation.stakeRewards.enumeratedRewardsIter.map fun entry => entry.2.stakeReward).sum
  le_rewards : calculation.totalVoteRewardsLamports + calculation.totalStakeRewardsLamports ≤
    calculation.rewards
  rewards_le : calculation.rewards ≤ u64Max
  nodup : (calculation.stakeRewards.enumeratedRewardsIter.map fun entry =>
    entry.2.stakePubkey).Nodup
  present : ∀ entry ∈ calculation.stakeRewards.enumeratedRewardsIter,
    bank.stakeDelegations entry.2.stakePubkey = some (account entry.2.stakePubkey)
  payable : ∀ entry ∈ calculation.stakeRewards.enumeratedRewardsIter,
    Payable (account entry.2.stakePubkey) entry.2

/-- What happens between two blocks: the height goes up by one, neither the state of the rewards nor
the rewarded accounts change, and the account of the sysvar does not go below its minimum. -/
structure KeepsRewards (keys : List ℕ) (between : RewardsBank → RewardsBank) : Prop where
  blockHeight : ∀ bank, (between bank).blockHeight = bank.blockHeight + 1
  status : ∀ bank, (between bank).status = bank.status
  epochRewards : ∀ bank, (between bank).epochRewards = bank.epochRewards
  accounts : ∀ bank, ∀ key ∈ keys, (between bank).stakeDelegations key = bank.stakeDelegations key
  issued : ∀ bank, bank.issued = 0 → (between bank).issued = 0

/-- The data of the rewards of an epoch: where they are calculated, for which accounts, and in how
many partitions they are paid. -/
structure RewardsEpoch where
  deps : RewardsDeps
  config : RewardsConfig
  bank : RewardsBank
  calculation : RewardsCalculation
  account : ℕ → StakeAccount
  numPartitions : ℕ

namespace RewardsEpoch

variable (E : RewardsEpoch)

/-- The rewards with their indices. -/
def entries : List (ℕ × PartitionedStakeReward) :=
  E.calculation.stakeRewards.enumeratedRewardsIter

/-- The partition of a reward. -/
def partitionFor (entry : ℕ × PartitionedStakeReward) : ℕ :=
  E.deps.hashAddressToPartition E.numPartitions E.bank.lastBlockhash entry.2.stakePubkey

/-- Those of some rewards that are in a partition. -/
def entriesAt (entries : List (ℕ × PartitionedStakeReward)) (j : ℕ) :
    List (ℕ × PartitionedStakeReward) :=
  entries.filter fun entry => decide (E.partitionFor entry = j)

/-- The indices of some rewards, by partition. -/
def partitionsOf (entries : List (ℕ × PartitionedStakeReward)) : List (List ℕ) :=
  (List.range E.numPartitions).map fun j => (E.entriesAt entries j).map Prod.fst

/-- What a partition pays of some rewards. -/
def paidOf (entries : List (ℕ × PartitionedStakeReward)) (j : ℕ) : ℕ :=
  ((E.entriesAt entries j).map fun entry => entry.2.stakeReward).sum

/-- The partitions of the epoch. -/
def partitions : List (List ℕ) := E.partitionsOf E.entries

/-- What the block of a partition pays. -/
def paid (j : ℕ) : ℕ := E.paidOf E.entries j

/-- The account of a reward once the partitions below `k` are paid. -/
def accountAfter (k : ℕ) (entry : ℕ × PartitionedStakeReward) : Option StakeAccount :=
  if E.partitionFor entry < k then some (credited (E.account entry.2.stakePubkey) entry.2)
  else some (E.account entry.2.stakePubkey)

/-- The sysvar once the partitions below `k` are paid. -/
def sysvarAfter (k : ℕ) (active : Bool) : EpochRewards where
  distributionStartingBlockHeight := E.bank.blockHeight + 1
  numPartitions := E.numPartitions
  parentBlockhash := E.bank.lastBlockhash
  totalPoints := E.calculation.points
  totalRewards := E.calculation.rewards
  distributedRewards := E.calculation.totalVoteRewardsLamports + ∑ j ∈ Finset.range k, E.paid j
  active := active

/-- The state of the rewards while partitions are paid. -/
def distributing : EpochRewardStatus :=
  .distribution (E.bank.blockHeight + 1) E.calculation.stakeRewards E.partitions

/-- The rewards can be paid, in the number of partitions of the schedule and within the epoch. -/
structure Valid : Prop where
  lawful : E.deps.Lawful
  fits : E.calculation.Fits E.bank E.account
  num : getRewardDistributionNumBlocks E.config E.calculation.stakeRewards = .ok E.numPartitions
  slots : E.numPartitions < E.config.slotsInEpoch

variable {E} {entry : ℕ × PartitionedStakeReward} {k : ℕ}

lemma Valid.pos (h : E.Valid) : 0 < E.numPartitions := by
  have hnum := h.num
  unfold getRewardDistributionNumBlocks at hnum
  split at hnum
  · injection hnum with hnum
    omega
  split at hnum
  · cases hnum
  · injection hnum with hnum
    exact hnum ▸ lt_of_lt_of_le one_pos (le_max_left _ _)

lemma Valid.partitionFor_lt (h : E.Valid) : E.partitionFor entry < E.numPartitions :=
  h.lawful.hash_lt _ _ _ h.pos

/-! ## Partitions -/

variable {entries : List (ℕ × PartitionedStakeReward)}

lemma length_partitionsOf : (E.partitionsOf entries).length = E.numPartitions := by
  simp [partitionsOf]

lemma getElem?_partitionsOf {j : ℕ} (hj : j < E.numPartitions) :
    (E.partitionsOf entries)[j]? = some ((E.entriesAt entries j).map Prod.fst) := by
  simp [partitionsOf, hj]

/-- One more reward is in its partition. -/
lemma Valid.pushIndex (h : E.Valid) :
    pushIndex E.deps E.numPartitions E.bank.lastBlockhash (E.partitionsOf entries) entry =
      .ok (E.partitionsOf (entries ++ [entry])) := by
  unfold Runtime.pushIndex
  rw [length_partitionsOf]
  refine (if_pos h.partitionFor_lt).trans (congrArg Except.ok (ext_getElem? fun j => ?_))
  rw [getElem?_modify]
  by_cases hj : j < E.numPartitions
  · rw [getElem?_partitionsOf hj, getElem?_partitionsOf hj]
    change (fun a => if E.partitionFor entry = j then a ++ [entry.1] else a) <$> some _ = _
    unfold entriesAt
    rw [filter_append]
    by_cases heq : E.partitionFor entry = j <;> simp [heq]
  · simp [partitionsOf, hj]

/-- The partitions are the rewards by their hash. -/
theorem Valid.hashRewardsIntoPartitions (h : E.Valid) :
    hashRewardsIntoPartitions E.deps E.calculation.stakeRewards E.bank.lastBlockhash
      E.numPartitions = .ok E.partitions := by
  have hloop : ∀ rest done : List (ℕ × PartitionedStakeReward),
      rest.foldlM (Runtime.pushIndex E.deps E.numPartitions E.bank.lastBlockhash)
        (E.partitionsOf done) = .ok (E.partitionsOf (done ++ rest)) := by
    intro rest
    induction rest with
    | nil =>
      intro done
      rw [append_nil]
      rfl
    | cons entry rest ih =>
      intro done
      refine foldlM_cons_eq_ok.mpr ⟨_, h.pushIndex, ?_⟩
      rw [ih, append_assoc]
      rfl
  have hstart : List.replicate E.numPartitions [] = E.partitionsOf [] := by
    simp [partitionsOf, entriesAt, map_const']
  unfold Runtime.hashRewardsIntoPartitions
  rw [hstart, hloop, nil_append]
  rfl

/-- All partitions together pay all rewards. -/
lemma Valid.sum_paidOf (h : E.Valid) :
    ∑ j ∈ Finset.range E.numPartitions, E.paidOf entries j =
      (entries.map fun entry => entry.2.stakeReward).sum := by
  induction entries with
  | nil => simp [paidOf, entriesAt]
  | cons entry entries ih =>
    have hcons : ∀ j, E.paidOf (entry :: entries) j =
        (if E.partitionFor entry = j then entry.2.stakeReward else 0) + E.paidOf entries j := by
      intro j
      unfold paidOf entriesAt
      by_cases heq : E.partitionFor entry = j <;> simp [heq]
    simp [hcons, Finset.sum_add_distrib, h.partitionFor_lt, ih]

lemma Valid.sum_paid (h : E.Valid) : ∑ j ∈ Finset.range E.numPartitions, E.paid j =
    E.calculation.totalStakeRewardsLamports := by
  rw [h.fits.total]
  exact h.sum_paidOf

/-- The sysvar never counts more than its total. -/
lemma Valid.distributed_le (h : E.Valid) (hk : k ≤ E.numPartitions) :
    E.calculation.totalVoteRewardsLamports + ∑ j ∈ Finset.range k, E.paid j ≤
      E.calculation.rewards := by
  have hsum : ∑ j ∈ Finset.range k, E.paid j ≤ ∑ j ∈ Finset.range E.numPartitions, E.paid j :=
    Finset.sum_le_sum_of_subset (Finset.range_subset_range.mpr hk)
  rw [h.sum_paid] at hsum
  have := h.fits.le_rewards
  omega

/-! ## Blocks -/

variable (E) in
/-- The state after block `k`, with the partitions below `k` paid. -/
structure AfterBlock (k : ℕ) (b : RewardsBank) : Prop where
  blockHeight : b.blockHeight = E.bank.blockHeight + k
  status : b.status =
    if k = 0 then .calculation (E.bank.blockHeight + 1) E.calculation.stakeRewards
    else if k < E.numPartitions then E.distributing else .inactive
  epochRewards : b.epochRewards =
    E.sysvarAfter (min k E.numPartitions) (decide (k < E.numPartitions))
  accounts : ∀ entry ∈ E.entries, b.stakeDelegations entry.2.stakePubkey = E.accountAfter k entry
  issued : b.issued = 0

section
variable {b : RewardsBank} (h : E.Valid) (hk : k < E.numPartitions)
  (haccounts : ∀ entry ∈ E.entries, b.stakeDelegations entry.2.stakePubkey = E.accountAfter k entry)
include h hk haccounts

/-- A partition is paid in full: nothing is burned, and its accounts have their rewards. -/
theorem Valid.storeStakeAccountsInPartition :
    ∃ delegations updates,
      storeStakeAccountsInPartition b E.calculation.stakeRewards E.partitions k =
        .ok ({ b with stakeDelegations := delegations }, ⟨E.paid k, 0, updates⟩) ∧
      ∀ entry ∈ E.entries, delegations entry.2.stakePubkey = E.accountAfter (k + 1) entry := by
  let entries := E.entriesAt E.entries k
  have hmem : ∀ entry, entry ∈ entries ↔ entry ∈ E.entries ∧ E.partitionFor entry = k := by
    simp [entries, entriesAt]
  have hsum : (entries.map fun entry => entry.2.stakeReward).sum = E.paid k := rfl
  have hroom : E.paid k ≤ u64Max := by
    have := h.distributed_le (succ_le_of_lt hk)
    rw [Finset.sum_range_succ] at this
    have := h.fits.rewards_le
    omega
  have hnodup : (entries.map fun entry => entry.2.stakePubkey).Nodup :=
    h.fits.nodup.sublist (filter_sublist.map _)
  have hpay : ∀ entry ∈ entries, Payable (E.account entry.2.stakePubkey) entry.2 :=
    fun entry hentry => h.fits.payable entry ((hmem entry).mp hentry).1
  have hunpaid : ∀ entry ∈ entries,
      b.stakeDelegations entry.2.stakePubkey = some (E.account entry.2.stakePubkey) := by
    intro entry hentry
    obtain ⟨hentry, heq⟩ := (hmem entry).mp hentry
    rw [haccounts entry hentry, accountAfter, if_neg (by omega)]
  have hloop := @storeReward_loop b.stakeDelegations E.calculation.stakeRewards entries E.account
    ⟨0, 0, []⟩ (fun entry hentry => ((hmem entry).mp hentry).1) hunpaid hpay
    (by dsimp only; omega)
  rw [hsum] at hloop
  simp only [zero_add, nil_append] at hloop
  let updates := entries.map fun entry => updateOf (E.account entry.2.stakePubkey) entry.2
  refine ⟨updates.foldl storeAccount b.stakeDelegations, updates, ?_, fun entry hentry => ?_⟩
  · have hpart : E.partitions[k]? = some (entries.map Prod.fst) := getElem?_partitionsOf hk
    unfold Runtime.storeStakeAccountsInPartition
    rw [hpart]
    exact map_eq_ok.mpr ⟨_, hloop, rfl⟩
  by_cases heq : E.partitionFor entry = k
  · rw [accountAfter, if_pos (by omega)]
    exact storeAccount_updated E.account hnodup hpay ((hmem entry).mpr ⟨hentry, heq⟩)
  have hother : ∀ other ∈ entries, other.2.stakePubkey ≠ entry.2.stakePubkey := by
    intro other hother hkey
    -- the partition depends on the key only
    have := ((hmem other).mp hother).2
    unfold partitionFor at this heq
    rw [hkey] at this
    exact heq this
  have hiff : E.partitionFor entry < k ↔ E.partitionFor entry < k + 1 := by omega
  rw [storeAccount_other E.account hother, haccounts entry hentry, accountAfter, accountAfter,
    if_congr hiff rfl rfl]

/-- The block of a partition pays it. -/
lemma Valid.distributeEpochRewardsInPartition (hsysvar : b.epochRewards = E.sysvarAfter k true)
    (hissued : b.issued = 0) :
    ∃ b', distributeEpochRewardsInPartition E.deps b E.calculation.stakeRewards E.partitions k =
        .ok b' ∧
      b'.blockHeight = b.blockHeight ∧ b'.status = b.status ∧
      b'.epochRewards = E.sysvarAfter (k + 1) true ∧
      b'.capitalization = (b.capitalization + E.paid k) % (u64Max + 1) ∧ b'.issued = 0 ∧
      ∀ entry ∈ E.entries,
        b'.stakeDelegations entry.2.stakePubkey = E.accountAfter (k + 1) entry := by
  obtain ⟨delegations, updates, hstore, hdelegations⟩ :=
    h.storeStakeAccountsInPartition hk haccounts
  have hle := h.distributed_le (succ_le_of_lt hk)
  rw [Finset.sum_range_succ] at hle
  have hmax := h.fits.rewards_le
  have hsum : addChecked (E.paid k) 0 = .ok (E.paid k) := by
    rw [addChecked, add_zero, if_pos (by omega)]
  have hdistribute : E.deps.distribute b.epochRewards (E.paid k) =
      .ok (E.sysvarAfter (k + 1) true) := by
    rw [hsysvar, h.lawful.distribute_eq _ _ (by unfold sysvarAfter; dsimp only; omega)]
    unfold sysvarAfter
    rw [Finset.sum_range_succ, add_assoc]
  have hupdate : updateEpochRewardsSysvar E.deps { b with
      stakeDelegations := delegations
      capitalization := (b.capitalization + E.paid k) % (u64Max + 1) } (E.paid k) = .ok { b with
        stakeDelegations := delegations
        capitalization := (b.capitalization + E.paid k) % (u64Max + 1)
        epochRewards := E.sysvarAfter (k + 1) true } := by
    unfold updateEpochRewardsSysvar
    rw [if_pos (by rw [hsysvar]; rfl)]
    exact map_eq_ok.mpr ⟨_, hdistribute,
      updateSysvarAccount_eq _ hissued (le_of_lt_succ (mod_lt _ (succ_pos _)))⟩
  exact ⟨_, bind_eq_ok.mpr ⟨_, hstore, bind_eq_ok.mpr ⟨_, hsum,
    bind_eq_ok.mpr ⟨_, hupdate, rfl⟩⟩⟩, rfl, rfl, rfl, rfl, hissued, hdelegations⟩

/-- A block of distribution. -/
lemma Valid.distributePartitions (hsysvar : b.epochRewards = E.sysvarAfter k true)
    (hissued : b.issued = 0) (hheight : b.blockHeight = E.bank.blockHeight + (k + 1))
    (hstatus : b.status = E.distributing) :
    ∃ b', distributePartitions E.deps E.config b (E.bank.blockHeight + 1)
        E.calculation.stakeRewards E.partitions = .ok b' ∧
      E.AfterBlock (k + 1) b' ∧
      b'.capitalization = (b.capitalization + E.paid k) % (u64Max + 1) := by
  have hlen : E.partitions.length = E.numPartitions := length_partitionsOf
  obtain ⟨b₁, hrun, hheight₁, hstatus₁, hsysvar₁, hcap, hissued₁, haccounts₁⟩ :=
    h.distributeEpochRewardsInPartition hk haccounts hsysvar hissued
  rw [hheight] at hheight₁
  have hat : distributeAtHeight E.deps b (E.bank.blockHeight + 1) E.calculation.stakeRewards
      E.partitions = .ok b₁ := by
    have hindex : E.bank.blockHeight + (k + 1) - (E.bank.blockHeight + 1) = k := by omega
    unfold distributeAtHeight
    rw [if_pos (by rw [hheight, hlen]; omega), hheight, hindex]
    exact hrun
  have hmin : min (k + 1) E.numPartitions = k + 1 := by omega
  unfold Runtime.distributePartitions
  rw [if_pos (by rw [hlen]; exact h.slots)]
  by_cases hlast : E.numPartitions ≤ k + 1
  · -- the last partition: the rewards end
    refine ⟨{ b₁ with status := .inactive, epochRewards := E.sysvarAfter (k + 1) false },
      bind_eq_ok.mpr ⟨b₁, hat, ?_⟩, ⟨hheight₁, ?_, ?_, haccounts₁, hissued₁⟩, hcap⟩
    · unfold endRewards setEpochRewardsSysvarToInactive
      rw [if_pos (by rw [hheight₁, hlen]; omega)]
      rw [hsysvar₁]
      refine (if_pos (h.distributed_le hk)).trans
        (congrArg _ (updateSysvarAccount_eq _ hissued₁ ?_))
      exact hcap.trans_le (le_of_lt_succ (mod_lt _ (succ_pos _)))
    · rw [if_neg (succ_ne_zero k), if_neg (by omega)]
    · rw [hmin, decide_eq_false (by omega)]
  refine ⟨b₁, bind_eq_ok.mpr ⟨b₁, hat, ?_⟩, ⟨hheight₁, ?_, ?_, haccounts₁, hissued₁⟩, hcap⟩
  · unfold endRewards
    rw [if_neg (by rw [hheight₁, hlen]; omega)]
  · rw [hstatus₁, hstatus, if_neg (succ_ne_zero k), if_pos (by omega)]
  · rw [hsysvar₁, hmin, decide_eq_true (by omega)]

end

/-- The next block pays the next partition, if there is one. -/
theorem AfterBlock.next {b : RewardsBank} {between : RewardsBank → RewardsBank} (h : E.Valid)
    (hbetween : KeepsRewards (E.entries.map fun entry => entry.2.stakePubkey) between)
    (hafter : E.AfterBlock k b) :
    ∃ b', distributePartitionedEpochRewards E.deps E.config (between b) = .ok b' ∧
      E.AfterBlock (k + 1) b' ∧
      b'.capitalization = if k < E.numPartitions then
        ((between b).capitalization + E.paid k) % (u64Max + 1) else (between b).capitalization := by
  have hpos := h.pos
  have hheight : (between b).blockHeight = E.bank.blockHeight + (k + 1) := by
    rw [hbetween.blockHeight, hafter.blockHeight, add_assoc]
  have haccounts : ∀ entry ∈ E.entries,
      (between b).stakeDelegations entry.2.stakePubkey = E.accountAfter k entry := by
    intro entry hentry
    rw [hbetween.accounts b _ (mem_map.mpr ⟨entry, hentry, rfl⟩), hafter.accounts entry hentry]
  have hissued := hbetween.issued b hafter.issued
  have hstatus : (between b).status = _ := (hbetween.status b).trans hafter.status
  have hsysvar : (between b).epochRewards = _ := (hbetween.epochRewards b).trans hafter.epochRewards
  unfold distributePartitionedEpochRewards
  by_cases hk : k < E.numPartitions
  · rw [if_pos hk]
    rw [min_eq_left hk.le, decide_eq_true hk] at hsysvar
    by_cases hzero : k = 0
    · -- the first block of distribution makes the partitions
      subst hzero
      rw [if_pos rfl] at hstatus
      rw [hstatus]
      dsimp only
      rw [if_neg (by rw [hheight]; omega)]
      have hhash : hashRewardsIntoPartitions E.deps E.calculation.stakeRewards
          (between b).epochRewards.parentBlockhash (between b).epochRewards.numPartitions =
          .ok E.partitions := by
        rw [hsysvar]
        exact h.hashRewardsIntoPartitions
      obtain ⟨b', hrun, hafter', hcap⟩ := h.distributePartitions
        (b := { between b with status := E.distributing }) hk haccounts hsysvar hissued hheight rfl
      exact ⟨b', bind_eq_ok.mpr ⟨_, hhash, hrun⟩, hafter', hcap⟩
    rw [if_neg hzero, if_pos hk] at hstatus
    rw [hstatus]
    change ∃ b', (if (between b).blockHeight < E.bank.blockHeight + 1 then _ else _) = _ ∧ _
    rw [if_neg (by rw [hheight]; omega)]
    exact h.distributePartitions hk haccounts hsysvar hissued hheight hstatus
  rw [if_neg hk]
  rw [if_neg (by omega), if_neg hk] at hstatus
  rw [hstatus]
  refine ⟨between b, rfl, ⟨hheight, ?_, ?_, ?_, hissued⟩, rfl⟩
  · rw [hstatus, if_neg (succ_ne_zero k), if_neg (by omega)]
  · have hmin : min (k + 1) E.numPartitions = min k E.numPartitions := by omega
    rw [hsysvar, hmin, decide_eq_false hk, decide_eq_false (by omega)]
  · intro entry hentry
    have hlt : E.partitionFor entry < E.numPartitions := h.partitionFor_lt
    rw [haccounts entry hentry, accountAfter, accountAfter, if_pos (by omega), if_pos (by omega)]

/-- The calculation block pays the vote accounts, and issues what the sysvar is missing. -/
lemma Valid.calculationBlock (h : E.Valid) :
    ∃ b, calculationBlock E.deps E.config E.bank E.calculation = .ok b ∧ E.AfterBlock 0 b ∧
      b.capitalization = (E.bank.capitalization + E.calculation.totalVoteRewardsLamports +
        E.bank.issued) % (u64Max + 1) := by
  have hle := h.fits.le_rewards
  have hvote : distributeVoteRewards E.bank E.calculation = .ok { E.bank with
      capitalization :=
        (E.bank.capitalization + E.calculation.totalVoteRewardsLamports) % (u64Max + 1)
      rewards := E.bank.rewards ++ E.calculation.voteRewards } :=
    bind_eq_ok.mpr ⟨_, if_pos (hle.trans h.fits.rewards_le), if_pos hle⟩
  unfold Runtime.calculationBlock beginPartitionedRewards
  refine ⟨_, bind_eq_ok.mpr ⟨_, bind_eq_ok.mpr ⟨_, hvote, bind_eq_ok.mpr ⟨_, h.num,
    if_pos (by omega)⟩⟩, if_pos (lt_succ_self _)⟩, ⟨rfl, rfl, ?_, fun entry hentry => ?_,
    issued_updateSysvarAccount _ _⟩, mod_add_mod _ _ _⟩
  · rw [zero_min, decide_eq_true h.pos]
    rfl
  · rw [accountAfter, if_neg (not_lt_zero _)]
    exact h.fits.present entry hentry

/-- All blocks go through. -/
theorem Valid.runBlocks (h : E.Valid) {between : ℕ → RewardsBank → RewardsBank}
    (hbetween : ∀ k, KeepsRewards (E.entries.map fun entry => entry.2.stakePubkey) (between k))
    (k : ℕ) :
    ∃ b, runBlocks E.deps E.config E.bank E.calculation between k = .ok b ∧ E.AfterBlock k b := by
  induction k with
  | zero =>
    obtain ⟨b, hrun, hafter, -⟩ := h.calculationBlock
    exact ⟨b, hrun, hafter⟩
  | succ k ih =>
    obtain ⟨b, hrun, hafter⟩ := ih
    obtain ⟨b', hnext, hafter', -⟩ := hafter.next h (hbetween k)
    exact ⟨b', bind_eq_ok.mpr ⟨b, hrun, hnext⟩, hafter'⟩

/-- A reward is in its partition only, and once. -/
lemma Valid.mem_partitions (h : E.Valid) (hentry : entry ∈ E.entries) :
    (∀ j, entry.1 ∈ E.partitions.getD j [] ↔ j = E.partitionFor entry) ∧
      (E.partitions.getD (E.partitionFor entry) []).count entry.1 = 1 := by
  have hnodup : (E.entries.map Prod.fst).Nodup := nodup_enumeratedRewardsIter
  have hmem : ∀ j, entry.1 ∈ E.partitions.getD j [] ↔ j = E.partitionFor entry := by
    intro j
    rw [getD_eq_getElem?_getD]
    constructor
    · intro hj
      by_cases hlt : j < E.numPartitions
      · rw [partitions, getElem?_partitionsOf hlt] at hj
        obtain ⟨other, hother, hfst⟩ := mem_map.mp hj
        rw [entriesAt, mem_filter, decide_eq_true_eq] at hother
        rw [inj_on_of_nodup_map hnodup hother.1 hentry hfst] at hother
        exact hother.2.symm
      · have hnone : E.partitions[j]? = none :=
          getElem?_eq_none (by rw [partitions, length_partitionsOf]; exact not_lt.mp hlt)
        rw [hnone] at hj
        cases hj
    · rintro rfl
      rw [partitions, getElem?_partitionsOf h.partitionFor_lt]
      exact mem_map.mpr ⟨entry, mem_filter.mpr ⟨hentry, decide_eq_true rfl⟩, rfl⟩
  refine ⟨hmem, count_eq_one_of_mem ?_ ((hmem _).mpr rfl)⟩
  rw [getD_eq_getElem?_getD, partitions, getElem?_partitionsOf h.partitionFor_lt]
  exact hnodup.sublist (filter_sublist.map _)

end RewardsEpoch

open RewardsEpoch

/-! ## The epoch -/

/-- Blocks `0` to `last` of the epoch, the calculation block first: their slots go up, within the
slots of the epoch. -/
structure InEpoch (config : RewardsConfig) (firstSlot last : ℕ) (slots : ℕ → ℕ) : Prop where
  first : firstSlot ≤ slots 0
  increasing : ∀ k, k < last → slots k < slots (k + 1)
  within : slots last < firstSlot + config.slotsInEpoch

/-- An epoch has at least as many slots as blocks. -/
lemma InEpoch.last_lt {config : RewardsConfig} {firstSlot last : ℕ} {slots : ℕ → ℕ}
    (h : InEpoch config firstSlot last slots) : last < config.slotsInEpoch := by
  have hle : ∀ k, k ≤ last → firstSlot + k ≤ slots k := by
    intro k
    induction k with
    | zero => exact fun _ => h.first
    | succ k ih =>
      intro hk
      have := ih (le_of_succ_le hk)
      have := h.increasing k hk
      omega
  have := hle last le_rfl
  have := h.within
  omega

/-- Every reward is in one partition and paid once, in the block of its partition. The
capitalization grows by the vote rewards and what the account of the sysvar is missing in the
calculation block, and by each partition in its block, which are all stake rewards together; the
sysvar counts the rewards, and they are active until the block of the last partition. Nothing
panics. -/
theorem runBlocks_pays (deps : RewardsDeps) (config : RewardsConfig) (bank : RewardsBank)
    (calculation : RewardsCalculation) (account : ℕ → StakeAccount)
    (between : ℕ → RewardsBank → RewardsBank) (numPartitions firstSlot last : ℕ) (slots : ℕ → ℕ)
    (hdeps : deps.Lawful) (hfits : calculation.Fits bank account)
    (hnum : getRewardDistributionNumBlocks config calculation.stakeRewards = .ok numPartitions)
    (hepoch : InEpoch config firstSlot last slots) (hlast : numPartitions ≤ last)
    (hbetween : ∀ k, KeepsRewards (calculation.stakeRewards.enumeratedRewardsIter.map fun entry =>
      entry.2.stakePubkey) (between k)) :
    ∃ indices, hashRewardsIntoPartitions deps calculation.stakeRewards bank.lastBlockhash
        numPartitions = .ok indices ∧ indices.length = numPartitions ∧
      (∀ entry ∈ calculation.stakeRewards.enumeratedRewardsIter, ∃ j < numPartitions,
        (∀ j', entry.1 ∈ indices.getD j' [] ↔ j' = j) ∧ (indices.getD j []).count entry.1 = 1 ∧
        ∀ k ≤ last, ∀ b, runBlocks deps config bank calculation between k = .ok b →
          b.stakeDelegations entry.2.stakePubkey =
            if k ≤ j then bank.stakeDelegations entry.2.stakePubkey
            else some (credited (account entry.2.stakePubkey) entry.2)) ∧
      ∃ amounts : ℕ → ℕ,
        (∀ j < numPartitions, amounts j = ((indices.getD j []).map fun index =>
          (((calculation.stakeRewards.rewards[index]?).join.map
            PartitionedStakeReward.stakeReward).getD 0)).sum) ∧
        ∑ j ∈ Finset.range numPartitions, amounts j = calculation.totalStakeRewardsLamports ∧
        (∃ b, runBlocks deps config bank calculation between 0 = .ok b ∧ b.capitalization =
          (bank.capitalization + calculation.totalVoteRewardsLamports + bank.issued) %
            (u64Max + 1)) ∧
        (∀ k < last, ∃ b b', runBlocks deps config bank calculation between k = .ok b ∧
          runBlocks deps config bank calculation between (k + 1) = .ok b' ∧
          b'.capitalization = if k < numPartitions then
            ((between k b).capitalization + amounts k) % (u64Max + 1)
            else (between k b).capitalization) ∧
        ∀ k ≤ last, ∃ b, runBlocks deps config bank calculation between k = .ok b ∧
          b.blockHeight = bank.blockHeight + k ∧
          b.epochRewards.distributedRewards = calculation.totalVoteRewardsLamports +
            ∑ j ∈ Finset.range (min k numPartitions), amounts j ∧
          b.epochRewards.distributedRewards ≤ b.epochRewards.totalRewards ∧
          (b.status = .inactive ↔ numPartitions ≤ k) ∧
          (b.epochRewards.active = true ↔ k < numPartitions) := by
  -- the parameters as one epoch, over which the results about blocks are stated
  let E : RewardsEpoch := ⟨deps, config, bank, calculation, account, numPartitions⟩
  have hvalid : E.Valid := ⟨hdeps, hfits, hnum, hlast.trans_lt hepoch.last_lt⟩
  have hrun := hvalid.runBlocks hbetween
  refine ⟨E.partitions, hvalid.hashRewardsIntoPartitions, length_partitionsOf,
    fun entry hentry => ?_, E.paid, fun j hj => ?_, hvalid.sum_paid, ?_, fun k _ => ?_,
    fun k _ => ?_⟩
  · obtain ⟨hmem, hcount⟩ := hvalid.mem_partitions hentry
    refine ⟨E.partitionFor entry, hvalid.partitionFor_lt, hmem, hcount, fun k _ b hb => ?_⟩
    obtain ⟨b₁, hb₁, hafter⟩ := hrun k
    cases hb.symm.trans hb₁
    rw [hafter.accounts entry hentry, hfits.present entry hentry, accountAfter]
    by_cases hle : k ≤ E.partitionFor entry
    · rw [if_neg (not_lt.mpr hle), if_pos hle]
    · rw [if_pos (not_le.mp hle), if_neg hle]
  · rw [getD_eq_getElem?_getD, partitions, getElem?_partitionsOf hj,
      Option.getD_some, map_map]
    refine congrArg List.sum (map_congr_left fun entry hentry => ?_)
    have hget : calculation.stakeRewards.rewards[entry.1]? = some (some entry.2) :=
      mem_enumeratedRewardsIter.mp (mem_filter.mp hentry).1
    simp only [Function.comp_apply, hget]
    rfl
  · obtain ⟨b, hb, -, hcap⟩ := hvalid.calculationBlock
    exact ⟨b, hb, hcap⟩
  · obtain ⟨b, hb, hafter⟩ := hrun k
    obtain ⟨b', hb', -, hcap⟩ := hafter.next hvalid (hbetween k)
    exact ⟨b, b', hb, bind_eq_ok.mpr ⟨b, hb, hb'⟩, hcap⟩
  obtain ⟨b, hb, hafter⟩ := hrun k
  have hpos : 0 < numPartitions := hvalid.pos
  refine ⟨b, hb, hafter.blockHeight, by rw [hafter.epochRewards]; rfl, ?_, ?_, ?_⟩
  · rw [hafter.epochRewards]
    exact hvalid.distributed_le (min_le_right _ _)
  · rw [hafter.status]
    split_ifs with hzero hlt
    · exact ⟨nofun, fun h => absurd h (by omega)⟩
    · exact ⟨nofun, fun h => absurd hlt (not_lt.mpr h)⟩
    · exact ⟨fun _ => not_lt.mp hlt, fun _ => rfl⟩
  · rw [hafter.epochRewards]
    exact decide_eq_true_iff

/-! ## An epoch -/

/-- Addresses by their remainder, and a sysvar that adds amounts up to its total. -/
def remainderDeps : RewardsDeps where
  hashAddressToPartition numPartitions _ address := address % numPartitions
  distribute sysvar amount :=
    if sysvar.distributedRewards + amount ≤ sysvar.totalRewards then
      .ok { sysvar with distributedRewards := sysvar.distributedRewards + amount }
    else .error .assertion

lemma remainderDeps_lawful : remainderDeps.Lawful where
  hash_lt _ _ _ hpos := mod_lt _ hpos
  distribute_eq _ _ h := if_pos h

/-- A block after which nothing else changes. -/
def quietBlock (bank : RewardsBank) : RewardsBank :=
  { bank with blockHeight := bank.blockHeight + 1 }

lemma quietBlock_keeps {keys : List ℕ} : KeepsRewards keys quietBlock :=
  ⟨fun _ => rfl, fun _ => rfl, fun _ => rfl, fun _ _ _ => rfl, fun _ h => h⟩

/-- An epoch of 100 slots, with two stake accounts stored in a block. -/
def someConfig : RewardsConfig := ⟨false, 3, 0, 100, 100, 2⟩

/-- A stake account with a stake of 5. -/
def someStakeAccount : StakeAccount := ⟨10, ⟨1, 5, 0⟩, true⟩

/-- A bank whose addresses all have such an account, without the sysvar. -/
def someBank : RewardsBank :=
  ⟨40, 9, 1000, .inactive, ⟨0, 0, 0, 0, 0, 0, false⟩, none, 6, fun _ => some someStakeAccount, []⟩

/-- Three rewards, and a delegation without one. -/
def someCalculation : RewardsCalculation :=
  ⟨[], 4, ⟨[some ⟨20, ⟨1, 8, 7⟩, 3⟩, none, some ⟨21, ⟨1, 5, 7⟩, 0⟩, some ⟨23, ⟨1, 7, 7⟩, 2⟩], 3⟩,
    5, 100, 9⟩

lemma someCalculation_fits : someCalculation.Fits someBank fun _ => someStakeAccount where
  total := by decide
  le_rewards := by decide
  rewards_le := by decide
  nodup := by decide
  present _ _ := rfl
  payable := by
    simp only [payable_iff]
    decide

theorem runBlocks_pays_someCalculation :
    getRewardDistributionNumBlocks someConfig someCalculation.stakeRewards = .ok 2 ∧
      ∀ k ≤ 5, ∃ b, runBlocks remainderDeps someConfig someBank someCalculation
          (fun _ => quietBlock) k = .ok b ∧
        b.blockHeight = 40 + k ∧ (b.status = .inactive ↔ 2 ≤ k) := by
  have hnum : getRewardDistributionNumBlocks someConfig someCalculation.stakeRewards = .ok 2 := rfl
  have hepoch : InEpoch someConfig 200 5 fun k => 200 + k :=
    ⟨le_rfl, fun k _ => lt_succ_self _, by decide⟩
  obtain ⟨indices, -, -, -, amounts, -, -, -, -, h⟩ := runBlocks_pays remainderDeps someConfig
    someBank someCalculation (fun _ => someStakeAccount) (fun _ => quietBlock) 2 200 5
    (fun k => 200 + k) remainderDeps_lawful someCalculation_fits hnum hepoch (by decide)
    fun _ => quietBlock_keeps
  refine ⟨hnum, fun k hk => ?_⟩
  obtain ⟨b, hrun, hheight, -, -, hstatus, -⟩ := h k hk
  exact ⟨b, hrun, hheight, hstatus⟩

/-- The blocks of rewards that are the only ones, with an amount for the epoch. -/
def someBlocks (bank : RewardsBank) (rewards : List PartitionedStakeReward) (amount : ℕ) :
    ℕ → Except RewardsPanic RewardsBank :=
  runBlocks remainderDeps someConfig bank ⟨[], 0, ⟨rewards.map some, rewards.length⟩,
    (rewards.map fun reward => reward.stakeReward).sum, 100, amount⟩ fun _ => quietBlock

/-- A bank whose accounts have a given balance. -/
def bankWith (lamports : ℕ) : RewardsBank :=
  { someBank with stakeDelegations := fun _ => some { someStakeAccount with lamports := lamports } }

/-- Without the conditions of `runBlocks_pays`: a sysvar that is new adds to the capitalization, a
reward that is no `i64` panics, as do rewards above the amount of the epoch, a reward that the
balance has no room for is burned, and of two rewards of an account only one is credited. -/
theorem runBlocks_exceptions :
    (someBlocks someBank [⟨20, ⟨1, 8, 7⟩, 3⟩] 3 1).map (·.capitalization) = .ok (1000 + 3 + 6) ∧
    someBlocks someBank [⟨20, ⟨1, 2 ^ 63 + 5, 7⟩, 2 ^ 63⟩] (2 ^ 63) 1 = .error .tryFromInt ∧
    someBlocks someBank [⟨20, ⟨1, 8, 7⟩, 3⟩] 2 0 = .error .assertion ∧
    (someBlocks (bankWith u64Max) [⟨20, ⟨1, 8, 7⟩, 3⟩] 3 1).map (fun b =>
      (b.stakeDelegations 20, b.epochRewards.distributedRewards)) =
        .ok ((bankWith u64Max).stakeDelegations 20, 3) ∧
    (someBlocks someBank [⟨20, ⟨1, 8, 7⟩, 3⟩, ⟨20, ⟨1, 7, 7⟩, 2⟩] 5 1).map (fun b =>
      (b.stakeDelegations 20).map StakeAccount.lamports) = .ok (some (10 + 2)) :=
  ⟨rfl, rfl, rfl, rfl, rfl⟩

end Trezoa.Runtime
