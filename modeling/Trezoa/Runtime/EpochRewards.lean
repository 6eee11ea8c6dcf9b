import Trezoa.Lib.Fallible

/-!
# Partitioned epoch rewards

Models `runtime/src/bank/partitioned_epoch_rewards`: the rewards of an epoch are calculated in its
first block, which pays the vote accounts, and the stake accounts are paid in the blocks that
follow, one partition a block.

The hash of an address and the bookkeeping of the sysvar are in other crates, and are parameters
(`RewardsDeps`). Storing the sysvar gives its account the minimum balance of its size, which is
issued (`updateSysvarAccount`). Amounts are checked where they are added, and the capitalization
wraps, as an atomic addition does. Block heights do not overflow.
-/

namespace Trezoa.Runtime

open Lib

/-! ## Rewards -/

/-- Where the code panics. -/
inductive RewardsPanic where
  | assertion
  | overflow
  | indexOutOfRange
  | emptyReward
  | tryFromInt
  | divideByZero
deriving DecidableEq

/-- Why a reward is burned. -/
inductive DistributionError where
  | accountNotFound
  | arithmeticOverflow
  | unableToSetState
deriving DecidableEq

structure Stake where
  voterPubkey : ℕ
  delegationStake : ℕ
  creditsObserved : ℕ
deriving DecidableEq

/-- A stake account; `dataFits` if its data has room for its state. -/
structure StakeAccount where
  lamports : ℕ
  stake : Stake
  dataFits : Bool
deriving DecidableEq

/-- A reward, with the stake to be stored. -/
structure PartitionedStakeReward where
  stakePubkey : ℕ
  stake : Stake
  stakeReward : ℕ
deriving DecidableEq

/-- The rewards, with holes for delegations without one. -/
structure PartitionedStakeRewards where
  rewards : List (Option PartitionedStakeReward)
  numRewards : ℕ
deriving DecidableEq

/-- The rewards with their indices. -/
def PartitionedStakeRewards.enumeratedRewardsIter (all : PartitionedStakeRewards) :
    List (ℕ × PartitionedStakeReward) :=
  all.rewards.zipIdx.filterMap fun entry => entry.1.map fun reward => (entry.2, reward)

/-- The `EpochRewards` sysvar. -/
structure EpochRewards where
  distributionStartingBlockHeight : ℕ
  numPartitions : ℕ
  parentBlockhash : ℕ
  totalPoints : ℕ
  totalRewards : ℕ
  distributedRewards : ℕ
  active : Bool
deriving DecidableEq

inductive EpochRewardStatus where
  | calculation (distributionStartingBlockHeight : ℕ) (allStakeRewards : PartitionedStakeRewards)
  | distribution (distributionStartingBlockHeight : ℕ) (allStakeRewards : PartitionedStakeRewards)
      (partitionIndices : List (List ℕ))
  | inactive
deriving DecidableEq

/-- An entry of the reward history. -/
structure RewardInfo where
  lamports : ℕ
deriving DecidableEq

/-- An updated stake account with its reward. -/
structure StakeReward where
  stakePubkey : ℕ
  info : RewardInfo
  stakeAccount : StakeAccount
deriving DecidableEq

/-- The schedule of the epoch, and how many stake accounts are stored in a block. -/
structure RewardsConfig where
  warmup : Bool
  epoch : ℕ
  firstNormalEpoch : ℕ
  slotsPerEpoch : ℕ
  slotsInEpoch : ℕ
  stakeAccountStoresPerBlock : ℕ

/-- The part of a bank that rewards are about. `sysvarBalance` has the lamports of the account of
the sysvar, if there is one, and `minimumBalance` those that exempt its size from rent. -/
structure RewardsBank where
  blockHeight : ℕ
  lastBlockhash : ℕ
  capitalization : ℕ
  status : EpochRewardStatus
  epochRewards : EpochRewards
  sysvarBalance : Option ℕ
  minimumBalance : ℕ
  stakeDelegations : ℕ → Option StakeAccount
  rewards : List (ℕ × RewardInfo)

/-- What a calculation gives: the vote rewards and their total, the stake rewards and their total,
and the point value. -/
structure RewardsCalculation where
  voteRewards : List (ℕ × RewardInfo)
  totalVoteRewardsLamports : ℕ
  stakeRewards : PartitionedStakeRewards
  totalStakeRewardsLamports : ℕ
  points : ℕ
  rewards : ℕ

/-- Code of other crates: the partition of an address, by the number of partitions and the
blockhash, and the sysvar after an amount is distributed. -/
structure RewardsDeps where
  hashAddressToPartition : ℕ → ℕ → ℕ → ℕ
  distribute : EpochRewards → ℕ → Except RewardsPanic EpochRewards

/-- What is known of this code: partitions are in range, and an amount within the total is added. -/
structure RewardsDeps.Lawful (deps : RewardsDeps) : Prop where
  hash_lt : ∀ numPartitions blockhash address, 0 < numPartitions →
    deps.hashAddressToPartition numPartitions blockhash address < numPartitions
  distribute_eq : ∀ sysvar amount, sysvar.distributedRewards + amount ≤ sysvar.totalRewards →
    deps.distribute sysvar amount =
      .ok { sysvar with distributedRewards := sysvar.distributedRewards + amount }

def u64Max : ℕ := 2 ^ 64 - 1

def i64Max : ℕ := 2 ^ 63 - 1

/-- An addition that panics on overflow. -/
def addChecked (a b : ℕ) : Except RewardsPanic ℕ :=
  if a + b ≤ u64Max then .ok (a + b) else .error .overflow

/-! ## The calculation block -/

def rewardCalculationNumBlocks : ℕ := 1

def maxFactorOfRewardBlocksInEpoch : ℕ := 10

/-- The number of blocks that pay stake rewards. -/
def getRewardDistributionNumBlocks (config : RewardsConfig) (rewards : PartitionedStakeRewards) :
    Except RewardsPanic ℕ :=
  if config.warmup && decide (config.epoch < config.firstNormalEpoch) then .ok 1
  else if config.stakeAccountStoresPerBlock = 0 then .error .divideByZero
  else
    let numChunks := (rewards.numRewards + config.stakeAccountStoresPerBlock - 1) /
      config.stakeAccountStoresPerBlock
    .ok (max 1 (min numChunks (max (config.slotsPerEpoch / maxFactorOfRewardBlocksInEpoch) 1)))

/-- Pays the vote accounts. -/
def distributeVoteRewards (bank : RewardsBank) (calculation : RewardsCalculation) :
    Except RewardsPanic RewardsBank := do
  let total ← addChecked calculation.totalVoteRewardsLamports calculation.totalStakeRewardsLamports
  if total ≤ calculation.rewards then
    .ok { bank with
      capitalization := (bank.capitalization + calculation.totalVoteRewardsLamports) % (u64Max + 1)
      rewards := bank.rewards ++ calculation.voteRewards }
  else .error .assertion

/-- What the account of the sysvar is missing when it is stored; a new one starts with one
lamport. -/
def RewardsBank.issued (bank : RewardsBank) : ℕ :=
  max bank.minimumBalance (bank.sysvarBalance.getD 1) - bank.sysvarBalance.getD 0

/-- Stores the sysvar. -/
def updateSysvarAccount (bank : RewardsBank) (epochRewards : EpochRewards) : RewardsBank :=
  { bank with
    epochRewards := epochRewards
    sysvarBalance := some (max bank.minimumBalance (bank.sysvarBalance.getD 1))
    capitalization := (bank.capitalization + bank.issued) % (u64Max + 1) }

/-- The sysvar at the start. -/
def createEpochRewardsSysvar (bank : RewardsBank) (calculation : RewardsCalculation)
    (distributionStartingBlockHeight numPartitions : ℕ) : Except RewardsPanic RewardsBank :=
  if calculation.totalVoteRewardsLamports ≤ calculation.rewards then
    .ok (updateSysvarAccount bank
      { distributionStartingBlockHeight := distributionStartingBlockHeight
        numPartitions := numPartitions
        parentBlockhash := bank.lastBlockhash
        totalPoints := calculation.points
        totalRewards := calculation.rewards
        distributedRewards := calculation.totalVoteRewardsLamports
        active := true })
  else .error .assertion

/-- Pays the vote accounts, and leaves the stake rewards to the blocks that follow. -/
def beginPartitionedRewards (config : RewardsConfig) (bank : RewardsBank)
    (calculation : RewardsCalculation) : Except RewardsPanic RewardsBank := do
  let bank ← distributeVoteRewards bank calculation
  let distributionStartingBlockHeight := bank.blockHeight + rewardCalculationNumBlocks
  let numPartitions ← getRewardDistributionNumBlocks config calculation.stakeRewards
  createEpochRewardsSysvar
    { bank with status := .calculation distributionStartingBlockHeight calculation.stakeRewards }
    calculation distributionStartingBlockHeight numPartitions

/-! ## Partitions -/

section
variable (deps : RewardsDeps) (config : RewardsConfig)

/-- Puts a reward into its partition. -/
def pushIndex (numPartitions blockhash : ℕ) (indices : List (List ℕ))
    (entry : ℕ × PartitionedStakeReward) : Except RewardsPanic (List (List ℕ)) :=
  let partitionIndex := deps.hashAddressToPartition numPartitions blockhash entry.2.stakePubkey
  if partitionIndex < indices.length then
    .ok (indices.modify partitionIndex fun partition => partition ++ [entry.1])
  else .error .indexOutOfRange

def hashRewardsIntoPartitions (all : PartitionedStakeRewards) (blockhash numPartitions : ℕ) :
    Except RewardsPanic (List (List ℕ)) :=
  all.enumeratedRewardsIter.foldlM (pushIndex deps numPartitions blockhash)
    (List.replicate numPartitions [])

/-! ## Distribution -/

/-- The stake account with its reward, or why the reward is burned. -/
def buildUpdatedStakeReward (stakeDelegations : ℕ → Option StakeAccount)
    (reward : PartitionedStakeReward) :
    Except RewardsPanic (Except DistributionError StakeReward) :=
  match stakeDelegations reward.stakePubkey with
  | none => .ok (.error .accountNotFound)
  | some account =>
    if u64Max < account.lamports + reward.stakeReward then .ok (.error .arithmeticOverflow)
    else if min (account.stake.delegationStake + reward.stakeReward) u64Max ≠
        reward.stake.delegationStake then .error .assertion
    else if !account.dataFits then .ok (.error .unableToSetState)
    else if i64Max < reward.stakeReward then .error .tryFromInt
    else
      let lamports := account.lamports + reward.stakeReward
      .ok (.ok ⟨reward.stakePubkey, ⟨reward.stakeReward⟩,
        { account with lamports := lamports, stake := reward.stake }⟩)

structure DistributionResults where
  lamportsDistributed : ℕ
  lamportsBurned : ℕ
  updatedStakeRewards : List StakeReward

/-- Counts a reward as distributed, or as burned. -/
def countReward (results : DistributionResults) (amount : ℕ) :
    Except DistributionError StakeReward → Except RewardsPanic DistributionResults
  | .ok stakeReward =>
    (addChecked results.lamportsDistributed amount).map fun total =>
      { results with
        lamportsDistributed := total
        updatedStakeRewards := results.updatedStakeRewards ++ [stakeReward] }
  | .error _ =>
    (addChecked results.lamportsBurned amount).map fun total =>
      { results with lamportsBurned := total }

/-- One reward of a partition. -/
def storeReward (stakeDelegations : ℕ → Option StakeAccount) (all : PartitionedStakeRewards)
    (results : DistributionResults) (index : ℕ) : Except RewardsPanic DistributionResults :=
  match all.rewards[index]? with
  | none => .error .indexOutOfRange
  | some none => .error .emptyReward
  | some (some reward) =>
    buildUpdatedStakeReward stakeDelegations reward >>= countReward results reward.stakeReward

/-- Stores an account; one without lamports is dropped. -/
def storeAccount (stakeDelegations : ℕ → Option StakeAccount) (stakeReward : StakeReward) :
    ℕ → Option StakeAccount :=
  Function.update stakeDelegations stakeReward.stakePubkey
    (if stakeReward.stakeAccount.lamports = 0 then none else some stakeReward.stakeAccount)

/-- Pays the rewards of one partition. All accounts are read before any is stored. -/
def storeStakeAccountsInPartition (bank : RewardsBank) (all : PartitionedStakeRewards)
    (partitionIndices : List (List ℕ)) (partitionIndex : ℕ) :
    Except RewardsPanic (RewardsBank × DistributionResults) :=
  match partitionIndices[partitionIndex]? with
  | none => .error .indexOutOfRange
  | some indices =>
    (indices.foldlM (storeReward bank.stakeDelegations all) ⟨0, 0, []⟩).map fun results =>
      ({ bank with
        stakeDelegations := results.updatedStakeRewards.foldl storeAccount bank.stakeDelegations },
        results)

def updateEpochRewardsSysvar (bank : RewardsBank) (distributed : ℕ) :
    Except RewardsPanic RewardsBank :=
  if bank.epochRewards.active then
    (deps.distribute bank.epochRewards distributed).map (updateSysvarAccount bank)
  else .error .assertion

/-- The history has the rewards that are not zero. -/
def updateRewardHistoryInPartition (bank : RewardsBank) (stakeRewards : List StakeReward) :
    RewardsBank :=
  { bank with
    rewards := bank.rewards ++ (stakeRewards.filter fun stakeReward =>
      decide (0 < stakeReward.info.lamports)).map fun stakeReward =>
        (stakeReward.stakePubkey, stakeReward.info) }

def distributeEpochRewardsInPartition (bank : RewardsBank) (all : PartitionedStakeRewards)
    (partitionIndices : List (List ℕ)) (partitionIndex : ℕ) : Except RewardsPanic RewardsBank := do
  let stored ← storeStakeAccountsInPartition bank all partitionIndices partitionIndex
  let bank := { stored.1 with
    capitalization := (stored.1.capitalization + stored.2.lamportsDistributed) % (u64Max + 1) }
  let amount ← addChecked stored.2.lamportsDistributed stored.2.lamportsBurned
  let bank ← updateEpochRewardsSysvar deps bank amount
  .ok (updateRewardHistoryInPartition bank stored.2.updatedStakeRewards)

def setEpochRewardsSysvarToInactive (bank : RewardsBank) : Except RewardsPanic RewardsBank :=
  if bank.epochRewards.distributedRewards ≤ bank.epochRewards.totalRewards then
    .ok (updateSysvarAccount bank { bank.epochRewards with active := false })
  else .error .assertion

/-- Pays the partition of the block, if there is one. -/
def distributeAtHeight (bank : RewardsBank) (start : ℕ) (all : PartitionedStakeRewards)
    (partitionIndices : List (List ℕ)) : Except RewardsPanic RewardsBank :=
  if bank.blockHeight < start + partitionIndices.length then
    distributeEpochRewardsInPartition deps bank all partitionIndices (bank.blockHeight - start)
  else .ok bank

/-- Ends the rewards with the last partition. -/
def endRewards (bank : RewardsBank) (start : ℕ) (partitionIndices : List (List ℕ)) :
    Except RewardsPanic RewardsBank :=
  if start + partitionIndices.length ≤ bank.blockHeight + 1 then
    setEpochRewardsSysvarToInactive { bank with status := .inactive }
  else .ok bank

/-- The block of a bank whose rewards are partitioned, from the start height on. -/
def distributePartitions (bank : RewardsBank) (start : ℕ) (all : PartitionedStakeRewards)
    (partitionIndices : List (List ℕ)) : Except RewardsPanic RewardsBank :=
  if partitionIndices.length < config.slotsInEpoch then
    distributeAtHeight deps bank start all partitionIndices >>= fun bank =>
      endRewards bank start partitionIndices
  else .error .assertion

/-- What each block does for the rewards of the epoch. -/
def distributePartitionedEpochRewards (bank : RewardsBank) : Except RewardsPanic RewardsBank :=
  match bank.status with
  | .inactive => .ok bank
  | .calculation start all =>
    if bank.blockHeight < start then .ok bank
    else
      hashRewardsIntoPartitions deps all bank.epochRewards.parentBlockhash
        bank.epochRewards.numPartitions >>= fun partitionIndices =>
          distributePartitions deps config
            { bank with status := .distribution start all partitionIndices } start all
            partitionIndices
  | .distribution start all partitionIndices =>
    if bank.blockHeight < start then .ok bank
    else distributePartitions deps config bank start all partitionIndices

/-- The calculation block. -/
def calculationBlock (bank : RewardsBank) (calculation : RewardsCalculation) :
    Except RewardsPanic RewardsBank :=
  beginPartitionedRewards config bank calculation >>= distributePartitionedEpochRewards deps config

/-- The bank after the rewards of block `k`, counted from the calculation block. Between two blocks
the bank changes otherwise (`between`). -/
def runBlocks (bank : RewardsBank) (calculation : RewardsCalculation)
    (between : ℕ → RewardsBank → RewardsBank) : ℕ → Except RewardsPanic RewardsBank
  | 0 => calculationBlock deps config bank calculation
  | k + 1 => runBlocks bank calculation between k >>= fun bank =>
    distributePartitionedEpochRewards deps config (between k bank)

end
end Trezoa.Runtime
