import Trezoa.Votor.PoolSteps

/-!
# The stake behind a certificate

What the stake counters and the vote lists of a vote pool say about a certificate type.
-/

namespace Trezoa.Votor

open Lib List CertificateType InternalVotePool VersionedEpochStakes

variable {σ π β : Type}

/-- The ranks that are set in one of the bitmaps of a certificate. -/
def aggregatedRanks (bitmap0 bitmap1 : Bitmap) : Finset ℕ :=
  (Finset.range maximumValidators).filter fun rank => (bitmap0 ||| bitmap1).getLsbD rank

lemma mem_aggregatedRanks {bitmap0 bitmap1 : Bitmap} {rank : ℕ} :
    rank ∈ aggregatedRanks bitmap0 bitmap1 ↔
      bitmap0.getLsbD rank = true ∨ bitmap1.getLsbD rank = true := by
  simp only [aggregatedRanks, Finset.mem_filter, Finset.mem_range, BitVec.getLsbD_or,
    Bool.or_eq_true, and_iff_right_iff_imp]
  rintro (h | h) <;> exact BitVec.lt_of_getLsbD h

namespace VotePool

variable {stakes : VersionedEpochStakes} {pool : VotePool σ} {certType : CertificateType}
  {backend : Backend σ π β} {cert : Certificate σ β}

/-- The stored votes that a certificate can also be made of. -/
def fallbackEntries (pool : VotePool σ) (certType : CertificateType) :
    List (Pubkey × VoteMessage σ) :=
  certType.fallbackVote.elim [] pool.votes.entries

/-- The stored votes that a certificate is made of. -/
def support (pool : VotePool σ) (certType : CertificateType) : List (Pubkey × VoteMessage σ) :=
  pool.votes.entries certType.mainVote ++ pool.fallbackEntries certType

/-- The stake of the stored votes. A validator with both kinds of votes counts twice. -/
def summedStake (stakes : VersionedEpochStakes) (pool : VotePool σ) (certType : CertificateType) :
    ℕ :=
  ((pool.support certType).map fun e => stakes.voteAccountStake e.1).sum

lemma supporters_eq :
    pool.supporters certType = ((pool.support certType).map Prod.fst).toFinset := by
  unfold supporters support fallbackEntries CertificateType.votes voters
  cases certType.fallbackVote <;> simp

lemma supporters_new (slot : ℕ) : (new slot : VotePool σ).supporters certType = ∅ := by
  simp [supporters, new, voters, entries_new]

/-- A vote of a certificate is in the table. -/
lemma exists_mem_entries_of_mem_support {e : Pubkey × VoteMessage σ}
    (he : e ∈ pool.support certType) :
    ∃ vote ∈ certType.votes, e ∈ pool.votes.entries vote := by
  unfold support fallbackEntries at he
  unfold CertificateType.votes
  cases hvote : certType.fallbackVote <;> simp_all

/-- The builder gets the votes of the table. -/
lemma buildFrom_eq : ConsensusPool.buildFrom backend pool certType =
    buildCertificate backend certType ((pool.votes.entries certType.mainVote).map Prod.snd)
      ((pool.fallbackEntries certType).map Prod.snd) := by
  unfold ConsensusPool.buildFrom fallbackEntries
  cases certType.fallbackVote <;> simp [getVotes, getVotes_eq]

/-- Every validator counts at least once. -/
lemma supportStake_le_summedStake : pool.supportStake stakes certType ≤
    pool.summedStake stakes certType := by
  unfold supportStake summedStake
  rw [supporters_eq]
  refine (sum_toFinset_le_sum _).trans (le_of_eq ?_)
  rw [map_map]
  rfl

/-- Every validator counts once if no validator comes twice. -/
lemma supportStake_eq_summedStake (h : ((pool.support certType).map Prod.fst).Nodup) :
    pool.supportStake stakes certType = pool.summedStake stakes certType := by
  unfold supportStake summedStake
  rw [supporters_eq, sum_toFinset _ h, map_map]
  rfl

namespace Tallies

variable (h : Tallies stakes pool) (hslot : certType.slot = pool.slot)
include h hslot

lemma vote_of_mem_main : ∀ msg ∈ (pool.votes.entries certType.mainVote).map Prod.snd,
    msg.vote = certType.mainVote :=
  forall_mem_map.mpr (h.consistent.filed _ (certType.slot_mainVote.trans (hslot.trans h.slot.symm)))

lemma vote_of_mem_fallback : ∀ msg ∈ (pool.fallbackEntries certType).map Prod.snd,
    certType.fallbackVote = some msg.vote := by
  refine forall_mem_map.mpr fun e he => ?_
  unfold fallbackEntries at he
  cases hvote : certType.fallbackVote with
  | none => simp [hvote] at he
  | some vote =>
    rw [hvote] at he
    rw [h.consistent.filed vote ((slot_fallbackVote hvote).trans (hslot.trans h.slot.symm)) e he]

/-- A stored vote has the rank of its voter. -/
lemma getPubkey_of_mem_support {e : Pubkey × VoteMessage σ} (he : e ∈ pool.support certType) :
    stakes.getPubkey e.2.rank = some e.1 := by
  obtain ⟨vote, hvote, he⟩ := exists_mem_entries_of_mem_support he
  exact h.ranked vote ((slot_of_mem_votes hvote).trans hslot) e he

/-- The counters hold the stake of the stored votes. -/
theorem accumulatedStake_eq : ConsensusPool.accumulatedStake pool certType =
    min (pool.summedStake stakes certType) u64Max := by
  have hmain := h.stake certType.mainVote (certType.slot_mainVote.trans hslot)
  unfold ConsensusPool.accumulatedStake summedStake support fallbackEntries
  rw [hmain, map_append, sum_append]
  cases hvote : certType.fallbackVote with
  | none => simp [saturatingAdd_min, voters, Function.comp_def]
  | some vote =>
    have hfallback := h.stake vote ((slot_fallbackVote hvote).trans hslot)
    simp [hfallback, saturatingAdd_min_min, voters, Function.comp_def]

/-- The limit is reached by the counters if it is by the stored votes. -/
lemma limit_le_accumulatedStake_iff :
    certType.limit * stakes.totalStake ≤ 100 * ConsensusPool.accumulatedStake pool certType ↔
      certType.limit * stakes.totalStake ≤ 100 * pool.summedStake stakes certType := by
  rw [h.accumulatedStake_eq hslot]
  exact le_percent_min_iff certType.limit_le stakes.totalStake_le

/-- A validator with both kinds of votes is one whose rank is in both bitmaps. -/
lemma rank_mem_of_voter_mem {voter : Pubkey}
    (hmain : voter ∈ (pool.votes.entries certType.mainVote).map Prod.fst)
    (hfallback : voter ∈ (pool.fallbackEntries certType).map Prod.fst) :
    ∃ rank ∈ ((pool.votes.entries certType.mainVote).map Prod.snd).map (·.rank),
      rank ∈ ((pool.fallbackEntries certType).map Prod.snd).map (·.rank) := by
  obtain ⟨e, he, rfl⟩ := mem_map.mp hmain
  obtain ⟨e', he', heq⟩ := mem_map.mp hfallback
  have hrank := h.getPubkey_of_mem_support hslot (mem_append_left _ he)
  have hrank' := h.getPubkey_of_mem_support hslot (mem_append_right _ he')
  rw [heq] at hrank'
  refine ⟨e.2.rank, ?_, ?_⟩
  · exact mem_map_of_mem (mem_map_of_mem he)
  · rw [rank_unique hrank hrank']
    exact mem_map_of_mem (mem_map_of_mem he')

/-- No voter comes twice in a list of the table. -/
lemma nodup_main : ((pool.votes.entries certType.mainVote).map Prod.fst).Nodup :=
  h.consistent.nodup _ (certType.slot_mainVote.trans (hslot.trans h.slot.symm))

lemma nodup_fallback : ((pool.fallbackEntries certType).map Prod.fst).Nodup := by
  unfold fallbackEntries
  cases hvote : certType.fallbackVote with
  | none => exact nodup_nil
  | some vote =>
    exact h.consistent.nodup vote ((slot_fallbackVote hvote).trans (hslot.trans h.slot.symm))

/-- If no voter comes twice, no rank does. -/
lemma nodup_ranks {entries : List (Pubkey × VoteMessage σ)}
    (hsubset : entries ⊆ pool.support certType) (hnodup : (entries.map Prod.fst).Nodup) :
    (entries.map (·.2.rank)).Nodup := by
  rw [List.Nodup, pairwise_map] at hnodup ⊢
  refine hnodup.imp_of_mem fun he he' hne heq => hne ?_
  have hrank := h.getPubkey_of_mem_support hslot (hsubset he)
  have hrank' := h.getPubkey_of_mem_support hslot (hsubset he')
  rw [heq, hrank'] at hrank
  exact (Option.some.inj hrank).symm

/-- The ranks of the stored votes have the stake of their voters. -/
lemma sum_rankStake (hnodup : ((pool.support certType).map Prod.fst).Nodup) :
    ∑ rank ∈ ((pool.support certType).map (·.2.rank)).toFinset, stakes.rankStake rank =
      pool.summedStake stakes certType := by
  rw [sum_toFinset _ (h.nodup_ranks hslot (List.Subset.refl _) hnodup), map_map]
  unfold summedStake
  congr 1
  refine map_congr_left fun e he => ?_
  show stakes.rankStake e.2.rank = stakes.voteAccountStake e.1
  rw [rankStake, h.getPubkey_of_mem_support hslot he, Option.elim_some]

lemma certType_of_build (hbuild : ConsensusPool.buildFrom backend pool certType = .ok (.ok cert)) :
    cert.certType = certType := by
  rw [buildFrom_eq] at hbuild
  exact (buildCertificate_ok (h.vote_of_mem_main hslot) (h.vote_of_mem_fallback hslot) hbuild).1

/-- A certificate that was built holds ranks with the stake of the stored votes, and no validator
counts twice. -/
theorem build_ok (hrejects : backend.RejectsDoubles)
    (hbuild : ConsensusPool.buildFrom backend pool certType = .ok (.ok cert)) :
    cert.certType = certType ∧
      pool.supportStake stakes certType = pool.summedStake stakes certType ∧
      ∃ bitmap0 bitmap1, backend.Encodes cert.bitmap bitmap0 bitmap1 ∧
        ∑ rank ∈ aggregatedRanks bitmap0 bitmap1, stakes.rankStake rank =
          pool.summedStake stakes certType := by
  rw [buildFrom_eq] at hbuild
  obtain ⟨htype, bitmap0, bitmap1, hencodes, hbits0, hbits1⟩ :=
    buildCertificate_ok (h.vote_of_mem_main hslot) (h.vote_of_mem_fallback hslot) hbuild
  have hnodup : ((pool.support certType).map Prod.fst).Nodup := by
    rw [support, map_append]
    refine (h.nodup_main hslot).append (h.nodup_fallback hslot) fun voter hmain hfallback => ?_
    obtain ⟨rank, hrank0, hrank1⟩ := h.rank_mem_of_voter_mem hslot hmain hfallback
    exact hencodes.disjoint hrejects ((hbits0 rank).mpr hrank0) ((hbits1 rank).mpr hrank1)
  refine ⟨htype, supportStake_eq_summedStake hnodup, bitmap0, bitmap1, hencodes, ?_⟩
  rw [← h.sum_rankStake hslot hnodup]
  refine Finset.sum_congr (Finset.ext fun rank => ?_) fun _ _ => rfl
  rw [mem_aggregatedRanks, hbits0, hbits1, support]
  simp

/-- A vote of the list can be aggregated. -/
lemma aggregable {valid : σ → Prop} (hsignatures : backend.Aggregates valid)
    {entries : List (Pubkey × VoteMessage σ)} (hsubset : entries ⊆ pool.support certType)
    (hnodup : (entries.map Prod.fst).Nodup)
    (hsound : ∀ e ∈ pool.support certType, e.2.rank < maximumValidators ∧ valid e.2.signature) :
    Aggregable backend (entries.map Prod.snd) where
  nodup := by
    rw [map_map]
    exact h.nodup_ranks hslot hsubset hnodup
  rank_lt := forall_mem_map.mpr fun e he => (hsound e (hsubset he)).1
  signatures signature := by
    refine hsignatures signature _ ?_
    rw [map_map]
    exact forall_mem_map.mpr fun e he => (hsound e (hsubset he)).2

/-- Building a certificate returns, and the certificate is built if no validator has both kinds of
votes. -/
theorem build_returns (hencodes : backend.EncodesRanks) {valid : σ → Prop}
    (hsignatures : backend.Aggregates valid)
    (hsound : ∀ e ∈ pool.support certType, e.2.rank < maximumValidators ∧ valid e.2.signature) :
    ∃ result, ConsensusPool.buildFrom backend pool certType = .ok result ∧
      (((pool.support certType).map Prod.fst).Nodup → ∃ cert, result = .ok cert) := by
  rw [buildFrom_eq]
  obtain ⟨result, hresult, hbuilt⟩ := buildCertificate_of_aggregable hencodes
    (h.vote_of_mem_main hslot) (h.vote_of_mem_fallback hslot)
    (h.aggregable hslot hsignatures (subset_append_left _ _) (h.nodup_main hslot) hsound)
    (h.aggregable hslot hsignatures (subset_append_right _ _) (h.nodup_fallback hslot) hsound)
  refine ⟨result, hresult, fun hnodup => hbuilt fun rank hmain hfallback => ?_⟩
  have hranks := h.nodup_ranks hslot (List.Subset.refl _) hnodup
  rw [support, map_append] at hranks
  rw [map_map] at hmain hfallback
  exact disjoint_of_nodup_append hranks hmain hfallback

end Tallies
end VotePool

/-! ## The vote pools of a consensus pool -/

namespace ConsensusPool

variable {backend : Backend σ π β} {epochs : Epochs} {pool pool' pool₁ : ConsensusPool σ β}
  {message : VoteMessage σ} {stakes : VersionedEpochStakes} {votePool : VotePool σ}
  {certType : CertificateType} {c : Call σ β} {certs : List (Certificate σ β)}

/-- Every vote pool is filed under its slot and tallies the stakes of the epoch of the slot. -/
def Tallied (epochs : Epochs) (pool : ConsensusPool σ β) : Prop :=
  ∀ (slot : ℕ) (votePool : VotePool σ), pool.votePools[slot]? = some votePool →
    votePool.slot = slot ∧ ∃ stakes, epochs.stakesAt slot = some stakes ∧ votePool.Tallies stakes

lemma tallied_newFromRootBank (rootBlock : Block) :
    Tallied epochs (newFromRootBank rootBlock : ConsensusPool σ β) := by
  intro slot votePool h
  simp [newFromRootBank] at h

/-- The vote pool of a slot. -/
def votePoolOf (pool : ConsensusPool σ β) (slot : ℕ) : VotePool σ :=
  pool.votePools[slot]?.getD (.new slot)

lemma votePoolOf_of_getElem? {slot : ℕ} (h : pool.votePools[slot]? = some votePool) :
    pool.votePoolOf slot = votePool := by
  rw [votePoolOf, h, Option.getD_some]

lemma Tallied.votePoolOf (h : Tallied epochs pool) {slot : ℕ}
    (hstakes : epochs.stakesAt slot = some stakes) :
    (pool.votePoolOf slot).slot = slot ∧ (pool.votePoolOf slot).Tallies stakes := by
  cases hpool : pool.votePools[slot]? with
  | none =>
    rw [ConsensusPool.votePoolOf, hpool, Option.getD_none]
    exact ⟨rfl, VotePool.tallies_new slot⟩
  | some votePool =>
    rw [votePoolOf_of_getElem? hpool]
    obtain ⟨hslot, stakes', hstakes', htallies⟩ := h slot votePool hpool
    rw [hstakes] at hstakes'
    cases hstakes'
    exact ⟨hslot, htallies⟩

namespace StoresVote

variable (h : StoresVote epochs message pool stakes votePool pool₁)
include h

lemma totalStake_pos : 0 < stakes.totalStake := by
  obtain ⟨voter, total, hvoter, -⟩ := h.addVote
  exact VersionedEpochStakes.totalStake_pos (VersionedEpochStakes.mem_of_getPubkey hvoter)

lemma getElem?_votePools (slot : ℕ) : pool₁.votePools[slot]? =
    if message.vote.slot = slot then some votePool else pool.votePools[slot]? := by
  rw [h.votePools, OrdMap.getElem?_insert]

/-- The stored vote is the only change of the vote pool of its slot. -/
lemma stores (hpool : Tallied epochs pool) :
    ∃ voter, stakes.getPubkey message.rank = some voter ∧
      (pool.votePoolOf message.vote.slot).votes.Stores voter message votePool.votes ∧
      message.vote.slot = (pool.votePoolOf message.vote.slot).votes.slot ∧
      votePool.slot = message.vote.slot ∧ votePool.Tallies stakes := by
  obtain ⟨voter, total, hvoter, hadd⟩ := h.addVote
  obtain ⟨hslot, htallies⟩ := hpool.votePoolOf h.stakesAt
  have hslot₀ := hslot.symm.trans htallies.slot.symm
  obtain ⟨hstores, hslot', -⟩ := VotePool.addVote_ok hslot₀ hadd
  exact ⟨voter, hvoter, hstores, hslot₀, hslot'.trans hslot,
    htallies.addVote hslot.symm hvoter hadd⟩

/-- Storing a vote keeps the vote pools tallied. -/
lemma tallied (hpool : Tallied epochs pool) : Tallied epochs pool₁ := by
  intro slot votePool' hpool'
  rw [h.getElem?_votePools] at hpool'
  split at hpool'
  · next heq =>
    cases hpool'
    subst heq
    obtain ⟨voter, -, -, -, hslot, htallies⟩ := h.stores hpool
    exact ⟨hslot, stakes, h.stakesAt, htallies⟩
  · exact hpool slot votePool' hpool'

/-- The supporters of a certificate stay. -/
lemma supportStake_le (hpool : Tallied epochs pool) (hslot : certType.slot = message.vote.slot) :
    (pool.votePoolOf message.vote.slot).supportStake stakes certType ≤
      votePool.supportStake stakes certType := by
  obtain ⟨voter, -, hstores, hslot₀, -⟩ := h.stores hpool
  refine Finset.sum_le_sum_of_subset fun pubkey hpubkey => ?_
  exact (VotePool.mem_supporters_of_stores hstores (hslot.trans hslot₀)).mpr (.inr hpubkey)

end StoresVote

lemma Tallied.pruneOldState (hpool : Tallied epochs pool) (rootSlot : ℕ) :
    Tallied epochs (pool.pruneOldState rootSlot) := by
  intro slot votePool h
  rw [getElem?_votePools_pruneOldState] at h
  split at h
  · exact hpool slot votePool h
  · cases h

/-- Every step keeps the vote pools tallied. -/
theorem Step.tallied (h : Step backend epochs pool c pool' certs) (hpool : Tallied epochs pool) :
    Tallied epochs pool' := by
  cases h with
  | turnedAway hsame => exact fun slot votePool h => hpool slot votePool (hsame.votePools slot ▸ h)
  | stored _ hstores => exact hstores.tallied hpool
  | built _ hstores _ hinserts =>
    rw [Tallied, hinserts.votePools]
    exact hstores.tallied hpool
  | received _ hinserts =>
    rw [Tallied, hinserts.votePools]
    exact hpool
  | pruned => exact hpool.pruneOldState _

end ConsensusPool
end Trezoa.Votor
