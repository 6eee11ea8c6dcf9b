import Trezoa.Votor.Messages

/-!
# Epoch stakes

The part of `runtime/src/epoch_stakes.rs` that the consensus pool reads: the validators of an epoch
by rank, their stakes and the total stake.

`VersionedEpochStakes` carries what its constructor establishes. The ranks come from the entries of
a map from vote accounts to stakes, so no account has two ranks; accounts without stake get no rank;
the total sums the stakes of all vote accounts.
-/

namespace Trezoa.Votor

/-- `u64::MAX`. -/
def u64Max : ℕ := 2 ^ 64 - 1

structure VersionedEpochStakes where
  /-- `bls_pubkey_to_rank_map().sorted_pubkeys`: the vote account of each rank. -/
  sortedPubkeys : List Pubkey
  voteAccountStake : Pubkey → ℕ
  totalStake : ℕ
  nodup : sortedPubkeys.Nodup
  stake_pos : ∀ pubkey ∈ sortedPubkeys, 0 < voteAccountStake pubkey
  stakes_le : (sortedPubkeys.map voteAccountStake).sum ≤ totalStake
  totalStake_le : totalStake ≤ u64Max

namespace VersionedEpochStakes

/-- `bls_pubkey_to_rank_map().get_pubkey(rank)`. -/
def getPubkey (self : VersionedEpochStakes) (rank : ℕ) : Option Pubkey :=
  self.sortedPubkeys[rank]?

/-- The validators. -/
def validators (self : VersionedEpochStakes) : Finset Pubkey := self.sortedPubkeys.toFinset

/-- The stake of the validator with a rank. -/
def rankStake (self : VersionedEpochStakes) (rank : ℕ) : ℕ :=
  (self.getPubkey rank).elim 0 self.voteAccountStake

variable {self : VersionedEpochStakes} {rank rank' : ℕ} {pubkey : Pubkey}

lemma mem_of_getPubkey (h : self.getPubkey rank = some pubkey) : pubkey ∈ self.sortedPubkeys :=
  List.mem_of_getElem? h

/-- A vote account has one rank. -/
lemma rank_unique (h : self.getPubkey rank = some pubkey)
    (h' : self.getPubkey rank' = some pubkey) :
    rank = rank' := by
  obtain ⟨hlt, heq⟩ := List.getElem?_eq_some_iff.mp h
  obtain ⟨hlt', heq'⟩ := List.getElem?_eq_some_iff.mp h'
  exact (self.nodup.getElem_inj_iff).mp (heq.trans heq'.symm)

/-- The stakes of the validators sum to at most the total stake. -/
lemma sum_validators_le : ∑ pubkey ∈ self.validators, self.voteAccountStake pubkey ≤
    self.totalStake := by
  unfold validators
  rw [List.sum_toFinset _ self.nodup]
  exact self.stakes_le

/-- There is stake if there is a validator. -/
lemma totalStake_pos (h : pubkey ∈ self.sortedPubkeys) : 0 < self.totalStake := by
  refine lt_of_lt_of_le ?_ self.stakes_le
  exact (self.stake_pos pubkey h).trans_le (List.single_le_sum (by simp) _ (List.mem_map_of_mem h))

end VersionedEpochStakes

/-- Two validators, with 40 and with 60 percent of the stake. -/
def twoValidators : VersionedEpochStakes where
  sortedPubkeys := [0, 1]
  voteAccountStake := fun pubkey => if pubkey = 0 then 40 else 60
  totalStake := 100
  nodup := by decide
  stake_pos := by simp
  stakes_le := by simp
  totalStake_le := by norm_num [u64Max]

end Trezoa.Votor
