import Trezoa.Lib.Fallible
import Trezoa.Votor.VotePool

/-!
# What a vote pool holds

The votes of a slot as a table from votes to the voters that cast them, and what the admission rules
of the vote pool say about it.
-/

namespace Trezoa.Votor

open Lib List OrdMap Std.TreeMap CertificateType

variable {σ : Type}

/-- Two votes of one slot that the pool does not hold from the same voter. -/
def Vote.Contradicts : Vote → Vote → Prop
  | .notarize _ blockId, .notarize _ blockId' => blockId ≠ blockId'
  | .genesis _ blockId, .genesis _ blockId' => blockId ≠ blockId'
  | .notarize _ _, .skip _ | .skip _, .notarize _ _ => True
  | .finalize _, .skip _ | .skip _, .finalize _ => True
  | .finalize _, .skipFallback _ | .skipFallback _, .finalize _ => True
  | .finalize _, .notarizeFallback _ _ | .notarizeFallback _ _, .finalize _ => True
  | _, _ => False

lemma Vote.Contradicts.symm {vote vote' : Vote} (h : vote.Contradicts vote') :
    vote'.Contradicts vote := by
  cases vote <;> cases vote' <;> first | exact h | exact Ne.symm h

namespace InternalVotePool

variable {self pool pool' : InternalVotePool σ} {voter : Pubkey} {msg : VoteMessage σ} {vote : Vote}

/-! ## The table of votes -/

/-- The stored messages of a vote with their voters. -/
def entries (self : InternalVotePool σ) : Vote → List (Pubkey × VoteMessage σ)
  | .finalize _ => self.finalize.toList
  | .notarize _ blockId => self.notar.toList.filter (·.2.vote.blockId = some blockId)
  | .notarizeFallback _ blockId =>
    self.notarFallback.toList.filterMap fun e => e.2[blockId]?.map (e.1, ·)
  | .skip _ => self.skip.toList
  | .skipFallback _ => self.skipFallback.toList
  | .genesis _ blockId => self.genesis.toList.filter (·.2.vote.blockId = some blockId)

/-- `get_votes` returns the messages of the table. -/
lemma getVotes_eq : self.getVotes vote = (self.entries vote).map Prod.snd := by
  cases vote with
  | notarizeFallback slot blockId =>
    simp only [getVotes, entries, OrdMap.values, filterMap_map, map_filterMap]
    congr 1
    funext e
    show e.2[blockId]? = Option.map Prod.snd (Option.map (e.1, ·) e.2[blockId]?)
    cases e.2[blockId]? <;> rfl
  | notarize slot blockId =>
    simp only [getVotes, OrdMap.values, filter_map]
    rfl
  | genesis slot blockId =>
    simp only [getVotes, OrdMap.values, filter_map]
    rfl
  | finalize slot => rfl
  | skip slot => rfl
  | skipFallback slot => rfl

/-- The voters of a vote. -/
def voters (self : InternalVotePool σ) (vote : Vote) : List Pubkey :=
  (self.entries vote).map Prod.fst

lemma mem_voters : voter ∈ self.voters vote ↔ ∃ msg, (voter, msg) ∈ self.entries vote := by
  simp [voters]

/-- `pool'` is `pool` with the vote of `voter` added to the table. The vote is new, and it
contradicts no vote of the voter. -/
structure Stores (pool : InternalVotePool σ) (voter : Pubkey) (msg : VoteMessage σ)
    (pool' : InternalVotePool σ) : Prop where
  slot : pool'.slot = pool.slot
  entries : ∀ vote : Vote, vote.slot = pool.slot → (pool'.entries vote).Perm
    (if vote = msg.vote then (voter, msg) :: pool.entries vote else pool.entries vote)
  fresh : voter ∉ pool.voters msg.vote
  admitted : ∀ vote : Vote, vote.Contradicts msg.vote → voter ∉ pool.voters vote

section membership
variable {slot : ℕ} {blockId : Hash}

/-- The voter has an entry in the map of the vote. -/
def Filed (pool : InternalVotePool σ) (voter : Pubkey) : Vote → Prop
  | .finalize _ => voter ∈ pool.finalize
  | .notarize _ _ => voter ∈ pool.notar
  | .notarizeFallback _ _ => voter ∈ pool.notarFallback
  | .skip _ => voter ∈ pool.skip
  | .skipFallback _ => voter ∈ pool.skipFallback
  | .genesis _ _ => voter ∈ pool.genesis

lemma getElem?_of_mem_voters_notarizeFallback
    (h : voter ∈ pool.voters (.notarizeFallback slot blockId)) :
    ∃ votes, pool.notarFallback[voter]? = some votes ∧ blockId ∈ votes := by
  obtain ⟨msg, hmsg⟩ := mem_voters.mp h
  obtain ⟨⟨voter', votes⟩, hmem, heq⟩ := mem_filterMap.mp hmsg
  obtain ⟨msg', hmsg', hpair⟩ := Option.map_eq_some_iff.mp heq
  cases hpair
  refine ⟨votes, mem_toList_iff_getElem?_eq_some.mp hmem, ?_⟩
  rw [mem_iff_isSome_getElem?, hmsg']
  rfl

lemma filed_of_mem_voters (h : voter ∈ pool.voters vote) : pool.Filed voter vote := by
  obtain ⟨msg, hmsg⟩ := mem_voters.mp h
  cases vote with
  | finalize slot => exact mem_iff_exists_mem_toList.mpr ⟨msg, hmsg⟩
  | skip slot => exact mem_iff_exists_mem_toList.mpr ⟨msg, hmsg⟩
  | skipFallback slot => exact mem_iff_exists_mem_toList.mpr ⟨msg, hmsg⟩
  | notarize slot blockId => exact mem_iff_exists_mem_toList.mpr ⟨msg, mem_of_mem_filter hmsg⟩
  | genesis slot blockId => exact mem_iff_exists_mem_toList.mpr ⟨msg, mem_of_mem_filter hmsg⟩
  | notarizeFallback slot blockId =>
    obtain ⟨votes, hvotes, -⟩ := getElem?_of_mem_voters_notarizeFallback h
    rw [Filed, mem_iff_isSome_getElem?, hvotes]
    rfl

end membership

/-! ## Adding a vote -/

section insert
variable {map : OrdMap Pubkey (VoteMessage σ)}
  {f : OrdMap Pubkey (VoteMessage σ) → InternalVotePool σ}

lemma insertVote_ok (h : (do return f (← insertVote map voter msg)) = .ok pool') :
    voter ∉ map ∧ f (map.insert voter msg) = pool' := by
  unfold insertVote at h
  split at h <;> cases h
  next hnew => exact ⟨hnew, rfl⟩

lemma insertBlockVote_ok {blockId : Hash}
    (h : (do return f (← insertBlockVote map voter blockId msg)) = .ok pool') :
    voter ∉ map ∧ f (map.insert voter msg) = pool' := by
  unfold insertBlockVote at h
  rw [mem_iff_isSome_getElem?]
  split at h
  · split at h <;> cases h
  · next hnone =>
    cases h
    simp [hnone]

end insert

/-- A vote for a block comes into the list of its block. -/
lemma filter_insert_perm {map : OrdMap Pubkey (VoteMessage σ)} {blockId blockId' : Hash}
    (hnew : voter ∉ map) (hblock : msg.vote.blockId = some blockId) :
    ((map.insert voter msg).toList.filter (·.2.vote.blockId = some blockId')).Perm
      (if blockId' = blockId then
        (voter, msg) :: map.toList.filter (·.2.vote.blockId = some blockId')
      else map.toList.filter (·.2.vote.blockId = some blockId')) := by
  refine ((toList_insert_perm_of_notMem hnew).filter _).trans (.of_eq ?_)
  rw [filter_cons]
  by_cases heq : blockId' = blockId
  · simp [heq, hblock]
  · simp [heq, hblock, Ne.symm heq]

/-- A notarize fallback vote comes into the list of its block. -/
lemma insertNotarFallback_ok {map map' : OrdMap Pubkey (OrdMap Hash (VoteMessage σ))}
    {blockId : Hash} (h : insertNotarFallback map voter blockId msg = .ok map') :
    (∀ votes, map[voter]? = some votes → blockId ∉ votes) ∧
      ∀ blockId', (map'.toList.filterMap fun e => e.2[blockId']?.map (e.1, ·)).Perm
        (if blockId' = blockId then
          (voter, msg) :: map.toList.filterMap fun e => e.2[blockId']?.map (e.1, ·)
        else map.toList.filterMap fun e => e.2[blockId']?.map (e.1, ·)) := by
  unfold insertNotarFallback at h
  split at h
  · next hnone =>
    cases h
    have hnew : voter ∉ map := by
      rw [mem_iff_isSome_getElem?, hnone]
      simp
    refine ⟨by simp [hnone], fun blockId' => ?_⟩
    refine ((toList_insert_perm_of_notMem hnew).filterMap _).trans (.of_eq ?_)
    rw [filterMap_cons]
    by_cases heq : blockId' = blockId
    · simp [heq]
    · simp [heq, Ne.symm heq]
  next votes hvotes =>
  split_ifs at h with hdup hmax
  cases h
  refine ⟨fun votes' hvotes' => ?_, fun blockId' => ?_⟩
  · rw [hvotes] at hvotes'
    cases hvotes'
    exact hdup
  -- the entry of the voter is replaced; the other entries are the same before and after
  obtain ⟨rest, hbefore, hafter⟩ := toList_insert_perm_of_getElem?
    (v := votes.insert blockId msg) hvotes
  have hbefore := hbefore.filterMap fun e => e.2[blockId']?.map (e.1, ·)
  refine (hafter.filterMap _).trans ?_
  rw [filterMap_cons] at hbefore ⊢
  by_cases heq : blockId' = blockId
  · have habsent : votes[blockId']? = none := by
      rw [heq, getElem?_eq_none hdup]
    simp only [habsent] at hbefore
    rw [if_pos heq, OrdMap.getElem?_insert, if_pos heq.symm]
    exact hbefore.symm.cons _
  · rw [if_neg heq, OrdMap.getElem?_insert, if_neg (Ne.symm heq)]
    exact hbefore.symm

/-- The guards look only at whether the voter has an entry in a map. -/
lemma Stores.of_not_filed (hslot : pool'.slot = pool.slot)
    (hentries : ∀ vote : Vote, vote.slot = pool.slot → (pool'.entries vote).Perm
      (if vote = msg.vote then (voter, msg) :: pool.entries vote else pool.entries vote))
    (hnew : ¬pool.Filed voter msg.vote)
    (hguard : ∀ vote : Vote, vote.Contradicts msg.vote → ¬pool.Filed voter vote) :
    Stores pool voter msg pool' :=
  ⟨hslot, hentries, fun hmem => hnew (filed_of_mem_voters hmem),
    fun vote hcontradicts hmem => hguard vote hcontradicts (filed_of_mem_voters hmem)⟩

/-- A vote that is added is stored. -/
theorem addVote_stores (hslot : msg.vote.slot = pool.slot)
    (h : pool.addVote voter msg = .ok pool') : Stores pool voter msg pool' := by
  obtain ⟨vote, signature, rank⟩ := msg
  unfold addVote at h
  cases vote with
  | skip slot =>
    simp only at h
    split_ifs at h with hguard
    obtain ⟨hnew, rfl⟩ := insertVote_ok h
    refine .of_not_filed rfl (fun vote hv => ?_) hnew fun vote hcontradicts hfiled => ?_
    · cases vote with
      | skip slot' =>
        obtain rfl : slot' = slot := hv.trans hslot.symm
        rw [if_pos rfl]
        exact toList_insert_perm_of_notMem hnew
      | _ => exact .of_eq (if_neg (by simp)).symm
    · cases vote <;> first | exact hcontradicts.elim | skip
      · exact hguard (.inl hfiled)
      · exact hguard (.inr hfiled)
  | skipFallback slot =>
    simp only at h
    split_ifs at h with hguard
    obtain ⟨hnew, rfl⟩ := insertVote_ok h
    refine .of_not_filed rfl (fun vote hv => ?_) hnew fun vote hcontradicts hfiled => ?_
    · cases vote with
      | skipFallback slot' =>
        obtain rfl : slot' = slot := hv.trans hslot.symm
        rw [if_pos rfl]
        exact toList_insert_perm_of_notMem hnew
      | _ => exact .of_eq (if_neg (by simp)).symm
    · cases vote <;> first | exact hcontradicts.elim | skip
      · exact hguard hfiled
  | finalize slot =>
    simp only at h
    split_ifs at h with hguard hguard'
    obtain ⟨hnew, rfl⟩ := insertVote_ok h
    refine .of_not_filed rfl (fun vote hv => ?_) hnew fun vote hcontradicts hfiled => ?_
    · cases vote with
      | finalize slot' =>
        obtain rfl : slot' = slot := hv.trans hslot.symm
        rw [if_pos rfl]
        exact toList_insert_perm_of_notMem hnew
      | _ => exact .of_eq (if_neg (by simp)).symm
    · cases vote <;> first | exact hcontradicts.elim | skip
      · exact hguard (.inl hfiled)
      · exact hguard' hfiled
      · exact hguard (.inr hfiled)
  | notarize slot blockId =>
    simp only at h
    split_ifs at h with hguard
    obtain ⟨hnew, rfl⟩ := insertBlockVote_ok h
    refine .of_not_filed rfl (fun vote hv => ?_) hnew fun vote hcontradicts hfiled => ?_
    · cases vote with
      | notarize slot' blockId' =>
        obtain rfl : slot' = slot := hv.trans hslot.symm
        simp only [Vote.notarize.injEq, true_and]
        exact filter_insert_perm hnew rfl
      | _ => exact .of_eq (if_neg (by simp)).symm
    · cases vote <;> first | exact hcontradicts.elim | skip
      · exact hnew hfiled
      · exact hguard hfiled
  | genesis slot blockId =>
    obtain ⟨hnew, rfl⟩ := insertBlockVote_ok h
    refine .of_not_filed rfl (fun vote hv => ?_) hnew fun vote hcontradicts hfiled => ?_
    · cases vote with
      | genesis slot' blockId' =>
        obtain rfl : slot' = slot := hv.trans hslot.symm
        simp only [Vote.genesis.injEq, true_and]
        exact filter_insert_perm hnew rfl
      | _ => exact .of_eq (if_neg (by simp)).symm
    · cases vote <;> first | exact hcontradicts.elim | skip
      · exact hnew hfiled
  | notarizeFallback slot blockId =>
    simp only at h
    split_ifs at h with hguard
    obtain ⟨map, hinsert, h⟩ := bind_eq_ok.mp h
    cases h
    obtain ⟨hnew, hperm⟩ := insertNotarFallback_ok hinsert
    refine ⟨rfl, fun vote hv => ?_, ?_, fun vote hcontradicts hmem => ?_⟩
    · cases vote with
      | notarizeFallback slot' blockId' =>
        obtain rfl : slot' = slot := hv.trans hslot.symm
        simp only [Vote.notarizeFallback.injEq, true_and]
        exact hperm blockId'
      | _ => exact .of_eq (if_neg (by simp)).symm
    · intro hmem
      obtain ⟨votes, hvotes, hblock⟩ := getElem?_of_mem_voters_notarizeFallback hmem
      exact hnew votes hvotes hblock
    · cases vote <;> first | exact hcontradicts.elim | skip
      · exact hguard (filed_of_mem_voters hmem)

/-! ## Any number of votes -/

/-- The table of a pool: every message stands under its own vote, no voter is counted twice for a
vote, and no voter has two contradicting votes. -/
structure Consistent (pool : InternalVotePool σ) : Prop where
  filed : ∀ vote : Vote, vote.slot = pool.slot → ∀ e ∈ pool.entries vote, e.2.vote = vote
  nodup : ∀ vote : Vote, vote.slot = pool.slot → (pool.voters vote).Nodup
  consistent : ∀ vote vote' : Vote, vote.slot = pool.slot → vote'.slot = pool.slot →
    vote.Contradicts vote' → ∀ voter ∈ pool.voters vote, voter ∉ pool.voters vote'

lemma entries_new (slot : ℕ) (vote : Vote) : (new slot : InternalVotePool σ).entries vote = [] := by
  cases vote <;> rfl

lemma consistent_new (slot : ℕ) : Consistent (new slot : InternalVotePool σ) := by
  constructor <;> simp [voters, entries_new]

namespace Stores

section
variable (h : Stores pool voter msg pool')
include h

/-- The entries after a vote was added. -/
lemma mem_entries (hvote : vote.slot = pool.slot) {e : Pubkey × VoteMessage σ} :
    e ∈ pool'.entries vote ↔ vote = msg.vote ∧ e = (voter, msg) ∨ e ∈ pool.entries vote := by
  rw [(h.entries vote hvote).mem_iff]
  split <;> simp_all

/-- The voters after a vote was added. -/
lemma voters_perm (hvote : vote.slot = pool.slot) :
    (pool'.voters vote).Perm
      (if vote = msg.vote then voter :: pool.voters vote else pool.voters vote) := by
  refine ((h.entries vote hvote).map Prod.fst).trans (.of_eq ?_)
  split <;> rfl

lemma mem_voters (hvote : vote.slot = pool.slot) {k : Pubkey} :
    k ∈ pool'.voters vote ↔ vote = msg.vote ∧ k = voter ∨ k ∈ pool.voters vote := by
  rw [(h.voters_perm hvote).mem_iff]
  split <;> simp_all

/-- Adding a vote keeps the table consistent. -/
theorem consistent (hpool : pool.Consistent) : pool'.Consistent where
  filed vote hvote e he := by
    rw [h.slot] at hvote
    rcases (h.mem_entries hvote).mp he with ⟨rfl, rfl⟩ | he
    · rfl
    · exact hpool.filed vote hvote e he
  nodup vote hvote := by
    rw [h.slot] at hvote
    rw [(h.voters_perm hvote).nodup_iff]
    split
    · next heq =>
      subst heq
      exact nodup_cons.mpr ⟨h.fresh, hpool.nodup _ hvote⟩
    · exact hpool.nodup vote hvote
  consistent vote vote' hvote hvote' hcontradicts k hk hk' := by
    rw [h.slot] at hvote hvote'
    rcases (h.mem_voters hvote).mp hk with ⟨rfl, rfl⟩ | hk
    · rcases (h.mem_voters hvote').mp hk' with ⟨rfl, -⟩ | hk'
      · -- a vote does not contradict itself
        revert hcontradicts
        cases msg.vote <;> simp [Vote.Contradicts]
      · exact h.admitted vote' hcontradicts.symm hk'
    · rcases (h.mem_voters hvote').mp hk' with ⟨rfl, rfl⟩ | hk'
      · exact h.admitted vote hcontradicts hk
      · exact hpool.consistent vote vote' hvote hvote' hcontradicts k hk hk'

end
end Stores
end InternalVotePool

open InternalVotePool

/-! ## Stakes -/

/-- The stake of a vote goes up by the stake of the voter. -/
lemma Stakes.getStake_addStake {self : Stakes} {voterStake : ℕ} {vote vote' : Vote}
    (hslot : vote'.slot = vote.slot) :
    (self.addStake voterStake vote).getStake vote' =
      if vote' = vote then saturatingAdd u64Max (self.getStake vote') voterStake
      else self.getStake vote' := by
  have hblock : ∀ (map : OrdMap Hash ℕ) (blockId blockId' : Hash),
      (addBlockStake map blockId voterStake)[blockId']?.getD 0 =
        if blockId' = blockId then saturatingAdd u64Max (map[blockId']?.getD 0) voterStake
        else map[blockId']?.getD 0 := by
    intro map blockId blockId'
    unfold addBlockStake
    rw [OrdMap.getElem?_insert]
    split_ifs <;> simp_all
  cases vote <;> cases vote' <;> cases hslot <;> simp [addStake, getStake, hblock]

namespace VotePool

variable {stakes : VersionedEpochStakes} {pool pool' : VotePool σ} {voter : Pubkey}
  {voterStake total : ℕ} {msg : VoteMessage σ} {vote : Vote} {certType : CertificateType}

/-- The table of a vote pool with the stakes of an epoch: the messages carry the ranks of their
voters, and a counter holds the stake of the voters of its vote. -/
structure Tallies (stakes : VersionedEpochStakes) (pool : VotePool σ) : Prop where
  slot : pool.votes.slot = pool.slot
  consistent : pool.votes.Consistent
  ranked : ∀ vote : Vote, vote.slot = pool.slot → ∀ e ∈ pool.votes.entries vote,
    stakes.getPubkey e.2.rank = some e.1
  stake : ∀ vote : Vote, vote.slot = pool.slot →
    pool.getStake vote = min ((pool.votes.voters vote).map stakes.voteAccountStake).sum u64Max

lemma tallies_new (slot : ℕ) : Tallies stakes (new slot : VotePool σ) where
  slot := rfl
  consistent := consistent_new slot
  ranked vote _ e he := by simp [new, entries_new] at he
  stake vote _ := by
    have hzero : (new slot : VotePool σ).getStake vote = 0 := by
      cases vote <;> simp [getStake, Stakes.getStake, new, Stakes.new]
    rw [hzero]
    simp [voters, new, entries_new]

/-- What a vote that is added does to the pool. -/
lemma addVote_ok (hslot : msg.vote.slot = pool.votes.slot)
    (h : pool.addVote voter voterStake msg = .ok (total, pool')) :
    pool.votes.Stores voter msg pool'.votes ∧ pool'.slot = pool.slot ∧
      pool'.stakes = pool.stakes.addStake voterStake msg.vote ∧
      total = pool'.getStake msg.vote := by
  obtain ⟨votes, hvotes, h⟩ := bind_eq_ok.mp h
  cases h
  exact ⟨addVote_stores hslot hvotes, rfl, rfl, rfl⟩

/-- Adding a vote of a validator with its stake keeps the tally. -/
theorem Tallies.addVote (htally : Tallies stakes pool) (hslot : msg.vote.slot = pool.slot)
    (hrank : stakes.getPubkey msg.rank = some voter)
    (h : pool.addVote voter (stakes.voteAccountStake voter) msg = .ok (total, pool')) :
    Tallies stakes pool' := by
  obtain ⟨hstores, hslot', hstakes, -⟩ := addVote_ok (hslot.trans htally.slot.symm) h
  constructor
  · rw [hstores.slot, htally.slot, hslot']
  · exact hstores.consistent htally.consistent
  · intro vote hvote e he
    rw [hslot'] at hvote
    rcases (hstores.mem_entries (hvote.trans htally.slot.symm)).mp he with ⟨-, rfl⟩ | he
    · exact hrank
    · exact htally.ranked vote hvote e he
  intro vote hvote
  rw [hslot'] at hvote
  have hperm := hstores.voters_perm (hvote.trans htally.slot.symm)
  rw [getStake, hstakes, Stakes.getStake_addStake (hvote.trans hslot.symm),
    (hperm.map stakes.voteAccountStake).sum_eq]
  have hold := htally.stake vote hvote
  unfold getStake at hold
  split
  · rw [hold, saturatingAdd_min, map_cons, sum_cons, Nat.add_comm]
  · exact hold

/-! ## The supporters of a certificate -/

/-- The validators with a stored vote that a certificate is made of. -/
def supporters (pool : VotePool σ) (certType : CertificateType) : Finset Pubkey :=
  (certType.votes.flatMap pool.votes.voters).toFinset

/-- The stake of the supporters. Each of them counts once. -/
def supportStake (stakes : VersionedEpochStakes) (pool : VotePool σ)
    (certType : CertificateType) : ℕ :=
  ∑ pubkey ∈ pool.supporters certType, stakes.voteAccountStake pubkey

lemma mem_supporters {pubkey : Pubkey} :
    pubkey ∈ pool.supporters certType ↔ ∃ vote ∈ certType.votes, pubkey ∈ pool.votes.voters
    vote := by
  simp [supporters]

/-- A vote comes with its voter as a new supporter of the certificates it counts toward. -/
lemma mem_supporters_of_stores (h : pool.votes.Stores voter msg pool'.votes)
    (hslot : certType.slot = pool.votes.slot) {pubkey : Pubkey} :
    pubkey ∈ pool'.supporters certType ↔
      msg.vote ∈ certType.votes ∧ pubkey = voter ∨ pubkey ∈ pool.supporters certType := by
  simp only [mem_supporters]
  constructor
  · rintro ⟨vote, hvote, hmem⟩
    rcases (h.mem_voters ((slot_of_mem_votes hvote).trans hslot)).mp hmem with
      ⟨rfl, rfl⟩ | hmem
    · exact .inl ⟨hvote, rfl⟩
    · exact .inr ⟨vote, hvote, hmem⟩
  rintro (⟨hvote, rfl⟩ | ⟨vote, hvote, hmem⟩)
  · refine ⟨msg.vote, hvote, ?_⟩
    exact (h.mem_voters ((slot_of_mem_votes hvote).trans hslot)).mpr (.inl ⟨rfl, rfl⟩)
  · refine ⟨vote, hvote, ?_⟩
    exact (h.mem_voters ((slot_of_mem_votes hvote).trans hslot)).mpr (.inr hmem)

/-- The supporters are validators. -/
lemma Tallies.supporters_subset (h : Tallies stakes pool) (hslot : certType.slot = pool.slot) :
    pool.supporters certType ⊆ stakes.validators := by
  intro pubkey hpubkey
  obtain ⟨vote, hvote, hmem⟩ := mem_supporters.mp hpubkey
  obtain ⟨msg, hmsg⟩ := mem_voters.mp hmem
  have hrank := h.ranked vote ((slot_of_mem_votes hvote).trans hslot) _ hmsg
  exact mem_toFinset.mpr (stakes.mem_of_getPubkey hrank)

/-- Certificates of contradicting votes have no common supporter. -/
lemma Tallies.disjoint_supporters (h : Tallies stakes pool) {certType' : CertificateType}
    (hslot : certType.slot = pool.slot) (hslot' : certType'.slot = pool.slot)
    (hcontradicts : ∀ vote ∈ certType.votes, ∀ vote' ∈ certType'.votes, vote.Contradicts vote')
    {pubkey : Pubkey} (hpubkey : pubkey ∈ pool.supporters certType) :
    pubkey ∉ pool.supporters certType' := by
  intro hpubkey'
  obtain ⟨vote, hvote, hmem⟩ := mem_supporters.mp hpubkey
  obtain ⟨vote', hvote', hmem'⟩ := mem_supporters.mp hpubkey'
  refine h.consistent.consistent vote vote' ?_ ?_ (hcontradicts vote hvote vote' hvote') _
    hmem hmem'
  · rw [slot_of_mem_votes hvote, hslot, h.slot]
  · rw [slot_of_mem_votes hvote', hslot', h.slot]

end VotePool
end Trezoa.Votor
