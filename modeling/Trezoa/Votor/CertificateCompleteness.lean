import Trezoa.Votor.CertificateQuorum
import Trezoa.Votor.ParentReady

/-!
# When every quorum has its certificate

`build_certs` adds up the two stake counters of a certificate and returns with the first error. A
validator with a vote and a fallback vote for the same certificate is counted twice by the sum, and
the encoder rejects it: no certificate of the vote is inserted then, not even one that has a quorum
and could be built.

* `quorumsCertified_lost`: votes after which this does not hold.
* `VoteMeets`, `Meets`: the condition on votes, and on the calls of a run, under which it does
  (`quorumsCertified_of_meets`): the vote can be aggregated, no validator comes twice in a
  certificate whose counters have reached the limit, and no fourth block of a slot is certified.
-/

namespace Trezoa.Votor

open Lib VotePool

variable {σ π β : Type}

/-! ## The condition -/

/-- The block that the certificates of a vote add to the parent ready tracker. -/
def Vote.trackedBlock : Vote → Option Block
  | .notarize slot blockId | .notarizeFallback slot blockId => some (slot, blockId)
  | .finalize _ | .skip _ | .skipFallback _ | .genesis _ _ => none

/-- The block that a certificate adds to the parent ready tracker. -/
def CertificateType.trackedBlock : CertificateType → Option Block
  | .notarize slot blockId | .notarizeFallback slot blockId => some (slot, blockId)
  | .finalizeFast slot blockId => some (slot, blockId)
  | .finalize _ | .skip _ | .genesis _ _ => none

lemma CertificateType.trackedBlock_of_mem {vote : Vote} {certType : CertificateType}
    (h : certType ∈ voteToCertificateIds vote) : certType.trackedBlock = vote.trackedBlock := by
  cases vote <;> cases certType <;> simp_all [voteToCertificateIds, Vote.trackedBlock, trackedBlock]

/-- The tracker takes a block: it is below the root, it is there, or its slot has fewer blocks than
the bound. -/
def ParentReadyTracker.HasRoom (tracker : ParentReadyTracker) (block : Block) : Prop :=
  block.1 ≤ tracker.root ∨ block ∈ (tracker.status block.1).notarFallbacks ∨
    (tracker.status block.1).notarFallbacks.length < maxEntriesPerPubkeyForNotarizeLite

/-- A block that the tracker takes is added, and taken again. -/
lemma ParentReadyTracker.HasRoom.returns {tracker : ParentReadyTracker} {block : Block}
    (h : tracker.HasRoom block) (events : List VotorEvent) :
    ∃ w', addNewNotarFallbackOrStronger (tracker, events) block = .ok w' ∧ w'.1.HasRoom block := by
  by_cases hroot : block.1 ≤ tracker.root
  · exact ⟨_, if_pos hroot, .inl hroot⟩
  by_cases hmem : block ∈ (tracker.status block.1).notarFallbacks
  · exact ⟨_, (if_neg hroot).trans (if_pos hmem), .inr (.inl hmem)⟩
  have hlength := (h.resolve_left hroot).resolve_left hmem
  have hpushed : ((tracker.pushNotarFallback block).status block.1).notarFallbacks =
      (tracker.status block.1).notarFallbacks ++ [block] :=
    notarFallbacks_pushNotarFallback.trans (if_pos rfl)
  obtain ⟨w', hw', hadds⟩ := @addNewNotarFallbackOrStronger_adds (tracker, events) _
    (not_le.mp hroot) hmem (by rwa [hpushed, List.length_append])
  refine ⟨w', hw', .inr (.inl ?_)⟩
  rw [hadds.notarFallbacks, hpushed]
  simp

/-- The voters of `vote'` once `voter` has also voted `vote`. -/
def VotePool.votersWith (pool : VotePool σ) (voter : Pubkey) (vote vote' : Vote) : List Pubkey :=
  if vote' = vote then voter :: pool.votes.voters vote' else pool.votes.voters vote'

/-- The voters of all votes that a certificate is made of once `voter` has also voted `vote`. -/
def VotePool.supportWith (pool : VotePool σ) (voter : Pubkey) (vote : Vote)
    (certType : CertificateType) : List Pubkey :=
  certType.votes.flatMap (pool.votersWith voter vote)

namespace ConsensusPool

variable {backend : Backend σ π β} {epochs : Epochs} {rootBlock : Block} {valid : σ → Prop}
  {pool pool' pool₁ : ConsensusPool σ β} {events : List VotorEvent} {w w' : WithEvents σ β}
  {session : Session σ β} {calls : List (Call σ β)} {c : Call σ β}
  {certs : List (Certificate σ β)} {rootSlot : ℕ} {myVotePubkey voter : Pubkey}
  {message : VoteMessage σ} {stakes : VersionedEpochStakes} {votePool : VotePool σ}
  {cert : Certificate σ β} {certType : CertificateType} {block : Block}

/-- Every certificate whose supporters reach the limit is completed. -/
def QuorumsCertified (epochs : Epochs) (pool : ConsensusPool σ β) : Prop :=
  ∀ votePool stakes certType, pool.votePools[certType.slot]? = some votePool →
    epochs.stakesAt certType.slot = some stakes →
    certType.limit * stakes.totalStake ≤ 100 * votePool.supportStake stakes certType →
    certType ∈ pool.completedCertificates

/-- With the vote of `voter`, the counters of a certificate reach its limit. -/
def Reaches (pool : ConsensusPool σ β) (stakes : VersionedEpochStakes) (voter : Pubkey)
    (vote : Vote) (certType : CertificateType) : Prop :=
  certType ∈ voteToCertificateIds vote ∧ certType ∉ pool.completedCertificates ∧
    certType.limit * stakes.totalStake ≤
      100 * (((pool.votePoolOf vote.slot).supportWith voter vote certType).map
        stakes.voteAccountStake).sum

/-- With the vote of `voter`, the supporters of a certificate reach its limit. -/
def Due (pool : ConsensusPool σ β) (stakes : VersionedEpochStakes) (voter : Pubkey)
    (vote : Vote) (certType : CertificateType) : Prop :=
  certType ∈ voteToCertificateIds vote ∧ certType ∉ pool.completedCertificates ∧
    certType.limit * stakes.totalStake ≤
      100 * ∑ pubkey ∈ ((pool.votePoolOf vote.slot).supportWith voter vote certType).toFinset,
        stakes.voteAccountStake pubkey

/-- The condition on a vote that is added to a pool. -/
structure VoteMeets (valid : σ → Prop) (epochs : Epochs) (pool : ConsensusPool σ β)
    (message : VoteMessage σ) : Prop where
  rank_lt : message.rank < maximumValidators
  signature : valid message.signature
  /-- If the vote completes a quorum, no validator comes twice in a certificate whose counters reach
  the limit. -/
  separate : ∀ stakes voter, epochs.stakesAt message.vote.slot = some stakes →
    stakes.getPubkey message.rank = some voter →
    voter ∉ (pool.votePoolOf message.vote.slot).votes.voters message.vote →
    (∃ certType, pool.Due stakes voter message.vote certType) →
    ∀ certType, pool.Reaches stakes voter message.vote certType →
      ((pool.votePoolOf message.vote.slot).supportWith voter message.vote certType).Nodup
  /-- If the vote makes a certificate of a block, the parent ready tracker takes the block. -/
  room : ∀ stakes voter, epochs.stakesAt message.vote.slot = some stakes →
    stakes.getPubkey message.rank = some voter →
    voter ∉ (pool.votePoolOf message.vote.slot).votes.voters message.vote →
    (∃ certType, pool.Reaches stakes voter message.vote certType) →
    ∀ block ∈ message.vote.trackedBlock, pool.parentReadyTracker.HasRoom block

/-- The condition on a call. A message that is turned away need not meet any. -/
def CallMeets (valid : σ → Prop) (epochs : Epochs) (pool : ConsensusPool σ β) : Call σ β → Prop
  | .addMessage rootSlot _ (.vote message) => rootSlot ≤ message.vote.slot →
    (∃ stakes votePool pool₁, StoresVote epochs message pool stakes votePool pool₁) →
      VoteMeets valid epochs pool message
  | .addMessage rootSlot _ (.certificate cert) => rootSlot ≤ cert.certType.slot →
    cert.certType ∉ pool.completedCertificates →
      ∀ block ∈ cert.certType.trackedBlock, pool.parentReadyTracker.HasRoom block
  | .pruneOldState _ => True

/-- All calls meet the condition, each in the state that it is made in. -/
def Meets (backend : Backend σ π β) (valid : σ → Prop) (epochs : Epochs) :
    Session σ β → List (Call σ β) → Prop
  | _, [] => True
  | session, c :: calls => CallMeets valid epochs session.pool c ∧
      ∀ session', call backend epochs session c = .ok session' →
        Meets backend valid epochs session' calls

/-! ## Inserting certificates does not panic -/

lemma addNewNotarFallbackOrStronger_returns (block : Block)
    (hroom : w.1.parentReadyTracker.HasRoom block) :
    ∃ w', addNewNotarFallbackOrStronger w block = .ok w' ∧
      w'.1.parentReadyTracker.HasRoom block := by
  obtain ⟨⟨tracker, events⟩, hok, hroom'⟩ := hroom.returns w.2
  exact ⟨_, bind_eq_ok.mpr ⟨_, hok, rfl⟩, hroom'⟩

lemma addNewSkip_returns (slot : ℕ) : ∃ w', addNewSkip w slot = .ok w' := by
  have hadd : ∃ w', ParentReadyTracker.addNewSkip (w.1.parentReadyTracker, w.2) slot = .ok w' := by
    rcases le_or_gt slot w.1.parentReadyTracker.root with hle | hroot
    · exact ⟨_, if_pos hle⟩
    · obtain ⟨w', hw', -⟩ := @ParentReadyTracker.addNewSkip_adds (_, w.2) _ hroot
      exact ⟨w', hw'⟩
  obtain ⟨⟨tracker, events⟩, hok⟩ := hadd
  exact ⟨_, bind_eq_ok.mpr ⟨_, hok, rfl⟩⟩

@[simp] lemma parentReadyTracker_raiseFinalizedSlot (slot : ℕ) :
    (pool.raiseFinalizedSlot slot).parentReadyTracker = pool.parentReadyTracker := by
  unfold raiseFinalizedSlot
  split <;> rfl

@[simp] lemma parentReadyTracker_raiseFinalizedWithNotarize {slot : ℕ} :
    (pool.raiseFinalizedWithNotarize slot).parentReadyTracker = pool.parentReadyTracker := by
  unfold raiseFinalizedWithNotarize
  split <;> rfl

/-- A certificate is inserted if the tracker takes its block, and it takes the block again. -/
lemma insertCertificate_returns (cert : Certificate σ β)
    (hroom : ∀ block ∈ cert.certType.trackedBlock, w.1.parentReadyTracker.HasRoom block) :
    ∃ w', insertCertificate w cert = .ok w' ∧
      ∀ block ∈ cert.certType.trackedBlock, w'.1.parentReadyTracker.HasRoom block := by
  unfold insertCertificate
  cases hcert : cert.certType <;>
    simp only [hcert, CertificateType.trackedBlock, Option.mem_def, reduceCtorEq, false_imp_iff,
      implies_true, and_true, Option.some.injEq, forall_eq'] at hroom ⊢
  case genesis slot blockId => exact ⟨_, rfl⟩
  case skip slot => exact addNewSkip_returns slot
  case finalize slot => split <;> exact ⟨_, rfl⟩
  case notarizeFallback slot blockId =>
    exact addNewNotarFallbackOrStronger_returns (slot, blockId) hroom
  case notarize slot blockId =>
    obtain ⟨⟨pool₁, events₁⟩, hw', hroom'⟩ := addNewNotarFallbackOrStronger_returns
      (w := (w.1.complete cert, w.2 ++ [.blockNotarized (slot, blockId)])) (slot, blockId) hroom
    simp only [complete, hcert] at hw'
    rw [hw']
    by_cases hfin : pool₁.isFinalized slot
    · exact ⟨_, if_pos hfin, by simpa using hroom'⟩
    · exact ⟨_, if_neg hfin, hroom'⟩
  case finalizeFast slot blockId =>
    obtain ⟨⟨pool₁, events₁⟩, hw', hroom'⟩ := addNewNotarFallbackOrStronger_returns
      (w := (w.1.complete cert, w.2 ++ [.finalized (slot, blockId) true])) (slot, blockId) hroom
    simp only [complete, hcert] at hw'
    rw [hw']
    rw [← parentReadyTracker_raiseFinalizedSlot slot] at hroom'
    by_cases hall : (pool₁.raiseFinalizedSlot slot).highestFinalizedWithNotarize.all (·.1 ≤ slot)
    · exact ⟨_, if_pos hall, hroom'⟩
    · exact ⟨_, if_neg hall, hroom'⟩

/-- The certificates of one block are inserted if the tracker takes the block. -/
lemma foldlM_insertCertificate_returns {tracked : Option Block}
    (hcerts : ∀ cert ∈ certs, cert.certType.trackedBlock = tracked)
    (hroom : ∀ block ∈ tracked, w.1.parentReadyTracker.HasRoom block) :
    ∃ w', certs.foldlM insertCertificate w = .ok w' := by
  obtain ⟨w', hw', -⟩ := foldlM_returns
    (fun w : ConsensusPool σ β × List VotorEvent =>
      ∀ block ∈ tracked, w.1.parentReadyTracker.HasRoom block)
    (fun w hroom cert hcert => by
      rw [← hcerts cert hcert] at hroom ⊢
      exact insertCertificate_returns cert hroom) hroom
  exact ⟨w', hw'⟩

/-! ## The stake after a vote -/

namespace StoresVote

variable (h : StoresVote epochs message pool stakes votePool pool₁) (hpool : Tallied epochs pool)
  (hvoter : stakes.getPubkey message.rank = some voter)
include h hpool hvoter

/-- The voters of a certificate after the vote was stored. -/
lemma support_perm (hslot : certType.slot = message.vote.slot) :
    ((votePool.support certType).map Prod.fst).Perm
      ((pool.votePoolOf message.vote.slot).supportWith voter message.vote certType) := by
  obtain ⟨voter', hvoter', hstores, hslot₀, -⟩ := h.stores hpool
  cases hvoter.symm.trans hvoter'
  have hperm : ∀ vote ∈ certType.votes, (votePool.votes.voters vote).Perm
      ((pool.votePoolOf message.vote.slot).votersWith voter message.vote vote) := fun vote hvote =>
    hstores.voters_perm ((CertificateType.slot_of_mem_votes hvote).trans (hslot.trans hslot₀))
  have heq : (votePool.support certType).map Prod.fst =
      certType.votes.flatMap votePool.votes.voters := by
    unfold support fallbackEntries CertificateType.votes InternalVotePool.voters
    cases certType.fallbackVote <;> simp
  rw [heq]
  exact List.Perm.flatMap_left _ hperm

lemma fresh : voter ∉ (pool.votePoolOf message.vote.slot).votes.voters message.vote := by
  obtain ⟨voter', hvoter', hstores, -⟩ := h.stores hpool
  cases hvoter.symm.trans hvoter'
  exact hstores.fresh

/-- The counters reach the limit of a certificate after the vote was stored. -/
lemma reaches_iff : pool.Reaches stakes voter message.vote certType ↔
    certType ∈ voteToCertificateIds message.vote ∧
      pool₁.Attempted votePool stakes.totalStake certType := by
  refine and_congr_right fun hmem => ?_
  have hslot := slot_of_mem_voteToCertificateIds hmem
  obtain ⟨voter', -, -, -, hslot', htallies⟩ := h.stores hpool
  rw [Attempted, htallies.limit_le_accumulatedStake_iff (hslot.trans hslot'.symm),
    h.completedCertificates, summedStake,
    ← ((h.support_perm hpool hvoter hslot).map stakes.voteAccountStake).sum_eq, List.map_map]
  rfl

/-- The supporters reach the limit of a certificate after the vote was stored. -/
lemma due_iff : pool.Due stakes voter message.vote certType ↔
    certType ∈ voteToCertificateIds message.vote ∧ certType ∉ pool.completedCertificates ∧
      certType.limit * stakes.totalStake ≤ 100 * votePool.supportStake stakes certType := by
  refine and_congr_right fun hmem => ?_
  rw [supportStake, supporters_eq, List.toFinset_eq_of_perm _ _
    (h.support_perm hpool hvoter (slot_of_mem_voteToCertificateIds hmem))]

omit hvoter in
/-- The supporters of a certificate that the vote does not count toward stay the same. -/
lemma supportStake_eq (hslot : certType.slot = message.vote.slot)
    (hmem : certType ∉ voteToCertificateIds message.vote) :
    votePool.supportStake stakes certType =
      (pool.votePoolOf message.vote.slot).supportStake stakes certType := by
  obtain ⟨voter', -, hstores, hslot₀, -⟩ := h.stores hpool
  refine Finset.sum_congr (Finset.ext fun pubkey => ?_) fun _ _ => rfl
  rw [mem_supporters_of_stores hstores (hslot.trans hslot₀), ← mem_voteToCertificateIds]
  simp [hmem]

end StoresVote

/-! ## Steps -/

/-- The invariant: the vote pools tally, the stored votes can be aggregated, and every quorum has
its certificate. -/
structure Sound (valid : σ → Prop) (epochs : Epochs) (pool : ConsensusPool σ β) : Prop where
  tallied : Tallied epochs pool
  aggregable : ∀ (slot : ℕ) (votePool : VotePool σ), pool.votePools[slot]? = some votePool →
    ∀ vote : Vote, vote.slot = slot → ∀ e ∈ votePool.votes.entries vote,
      e.2.rank < maximumValidators ∧ valid e.2.signature
  certified : QuorumsCertified epochs pool

/-- The votes of a slot can be aggregated. -/
lemma Sound.of_mem_votePoolOf (h : Sound valid epochs pool) {vote : Vote}
    {e : Pubkey × VoteMessage σ} (he : e ∈ (pool.votePoolOf vote.slot).votes.entries vote) :
    e.2.rank < maximumValidators ∧ valid e.2.signature := by
  cases hvotePool : pool.votePools[vote.slot]? with
  | none =>
    rw [votePoolOf, hvotePool, Option.getD_none, new, InternalVotePool.entries_new] at he
    cases he
  | some votePool =>
    rw [votePoolOf_of_getElem? hvotePool] at he
    exact h.aggregable vote.slot votePool hvotePool vote rfl e he

namespace StoresVote

variable (h : StoresVote epochs message pool stakes votePool pool₁)
  (hsound : Sound valid epochs pool)
include h hsound

/-- The votes of the slot can be aggregated with the one that was stored. -/
lemma of_mem_entries (hmeets : VoteMeets valid epochs pool message) {vote : Vote}
    (hvote : vote.slot = message.vote.slot) {e : Pubkey × VoteMessage σ}
    (he : e ∈ votePool.votes.entries vote) :
    e.2.rank < maximumValidators ∧ valid e.2.signature := by
  obtain ⟨voter, -, hstores, hslot₀, -⟩ := h.stores hsound.tallied
  rcases (hstores.mem_entries (hvote.trans hslot₀)).mp he with ⟨-, rfl⟩ | he
  · exact ⟨hmeets.rank_lt, hmeets.signature⟩
  · rw [← hvote] at he
    exact hsound.of_mem_votePoolOf he

/-- After a vote was stored, the invariant holds if the certificates that are due were completed. -/
lemma sound (hmeets : VoteMeets valid epochs pool message)
    (hvoter : stakes.getPubkey message.rank = some voter)
    (hvotePools : pool'.votePools = pool₁.votePools)
    (hcompleted : ∀ certType ∈ pool.completedCertificates, certType ∈ pool'.completedCertificates)
    (hdue : ∀ certType, pool.Due stakes voter message.vote certType →
      certType ∈ pool'.completedCertificates) :
    Sound valid epochs pool' := by
  refine ⟨?_, fun slot votePool' hvotePool' vote hvote e he => ?_,
    fun votePool' stakes' certType hvotePool' hstakes' hlimit => ?_⟩
  · rw [Tallied, hvotePools]
    exact h.tallied hsound.tallied
  · rw [hvotePools, h.getElem?_votePools] at hvotePool'
    split at hvotePool'
    · next hslot =>
      cases hvotePool'
      exact h.of_mem_entries hsound hmeets (hvote.trans hslot.symm) he
    · exact hsound.aggregable slot votePool' hvotePool' vote hvote e he
  rw [hvotePools, h.getElem?_votePools] at hvotePool'
  split at hvotePool'
  · next hslot =>
    cases hvotePool'
    cases (hslot ▸ h.stakesAt).symm.trans hstakes'
    by_cases hmem : certType ∈ voteToCertificateIds message.vote
    · by_cases hold : certType ∈ pool.completedCertificates
      · exact hcompleted certType hold
      · exact hdue certType ((h.due_iff hsound.tallied hvoter).mpr ⟨hmem, hold, hlimit⟩)
    -- the vote does not count toward the certificate, so its quorum was there before
    · rw [h.supportStake_eq hsound.tallied hslot.symm hmem, hslot] at hlimit
      cases hvotePool : pool.votePools[certType.slot]? with
      | none =>
        have hpos := Nat.mul_pos certType.limit_pos h.totalStake_pos
        rw [votePoolOf, hvotePool, Option.getD_none, supportStake,
          supporters_new, Finset.sum_empty] at hlimit
        omega
      | some votePool₀ =>
        rw [votePoolOf_of_getElem? hvotePool] at hlimit
        exact hcompleted certType (hsound.certified votePool₀ _ certType hvotePool hstakes' hlimit)
  · exact hcompleted certType
      (hsound.certified votePool' stakes' certType hvotePool' hstakes' hlimit)

end StoresVote

/-- What a message that is turned away leaves. -/
lemma Sound.same (h : Sound valid epochs pool) (hsame : Same pool pool') :
    Sound valid epochs pool' where
  tallied slot votePool hvotePool := h.tallied slot votePool (hsame.votePools slot ▸ hvotePool)
  aggregable slot votePool hvotePool :=
    h.aggregable slot votePool (hsame.votePools slot ▸ hvotePool)
  certified votePool stakes certType hvotePool hstakes hlimit := by
    rw [hsame.completedCertificates]
    exact h.certified votePool stakes certType (hsame.votePools _ ▸ hvotePool) hstakes hlimit

/-- A vote that meets the condition keeps the invariant. -/
theorem addVote_sound (rootSlot : ℕ) (myVotePubkey : Pubkey) (events : List VotorEvent)
    (hencodes : backend.EncodesRanks) (hsignatures : backend.Aggregates valid)
    (hsound : Sound valid epochs pool) (hmeets : CallMeets valid epochs pool
      (.addMessage rootSlot myVotePubkey (.vote message))) :
    ∃ result w', addVote backend epochs rootSlot myVotePubkey message (pool, events) =
      .ok (result, w') ∧ Sound valid epochs w'.1 := by
  rcases addVote_eq backend epochs pool events rootSlot myVotePubkey message with
    ⟨result, pool', heq, hsame, -⟩ | ⟨stakes, votePool, pool₁, events₁, hroot, hstores, heq⟩
  · exact ⟨result, (pool', events), heq, hsound.same hsame⟩
  replace hmeets := hmeets hroot ⟨stakes, votePool, pool₁, hstores⟩
  obtain ⟨voter, hvoter, -, -, hslot', htallies⟩ := hstores.stores hsound.tallied
  have hfresh := hstores.fresh hsound.tallied hvoter
  have hslot : ∀ certType ∈ voteToCertificateIds message.vote, certType.slot = votePool.slot :=
    fun certType hmem => (slot_of_mem_voteToCertificateIds hmem).trans hslot'.symm
  -- building a certificate returns, without an error if no validator comes twice
  have hbuild : ∀ certType ∈ voteToCertificateIds message.vote,
      ∃ result, buildFrom backend votePool certType = .ok result ∧
        (((pool.votePoolOf message.vote.slot).supportWith voter message.vote certType).Nodup →
          ∃ cert, result = .ok cert) := by
    intro certType hmem
    have hslot₁ := slot_of_mem_voteToCertificateIds hmem
    rw [← (hstores.support_perm hsound.tallied hvoter hslot₁).nodup_iff]
    refine htallies.build_returns (hslot certType hmem) hencodes hsignatures fun e he => ?_
    obtain ⟨vote, hvote, he⟩ := exists_mem_entries_of_mem_support he
    exact hstores.of_mem_entries hsound hmeets
      ((CertificateType.slot_of_mem_votes hvote).trans hslot₁) he
  have hreturns : ∀ certType ∈ voteToCertificateIds message.vote,
      pool₁.Attempted votePool stakes.totalStake certType →
        ∃ result, buildFrom backend votePool certType = .ok result := by
    intro certType hmem _
    obtain ⟨result, hresult, -⟩ := hbuild certType hmem
    exact ⟨result, hresult⟩
  obtain ⟨result, hloop, hresult⟩ := buildCertsLoop_returns hreturns
  rw [heq, hloop]
  cases result with
  | error e =>
    obtain ⟨certs, hcerts⟩ | ⟨certType, hmem, hattempted, e', herror⟩ := hresult
    · cases hcerts
    -- no certificate was due, or this one would have been built
    refine ⟨_, (pool₁, events₁), rfl, hstores.sound hsound hmeets hvoter rfl
      (fun certType => by rw [hstores.completedCertificates]; exact id) fun certType' hdue => ?_⟩
    have hnodup := hmeets.separate stakes voter hstores.stakesAt hvoter hfresh ⟨certType', hdue⟩
      certType ((hstores.reaches_iff hsound.tallied hvoter).mpr ⟨hmem, hattempted⟩)
    obtain ⟨result, hresult, hok⟩ := hbuild certType hmem
    obtain ⟨cert, rfl⟩ := hok hnodup
    cases herror.symm.trans hresult
  | ok certs =>
    obtain ⟨hbuilt, hall⟩ := buildCertsLoop_ok hloop
    have htype : ∀ certType ∈ voteToCertificateIds message.vote, ∀ cert,
        buildFrom backend votePool certType = .ok (.ok cert) → cert.certType = certType :=
      fun certType hmem cert hfrom => htallies.certType_of_build (hslot certType hmem) hfrom
    have hcerts : ∀ cert ∈ certs, cert.certType.trackedBlock = message.vote.trackedBlock := by
      intro cert hcert
      obtain ⟨certType, hmem, -, hfrom⟩ := hbuilt cert hcert
      rw [htype certType hmem cert hfrom]
      exact CertificateType.trackedBlock_of_mem hmem
    have hroom : certs = [] ∨ ∀ block ∈ message.vote.trackedBlock,
        pool₁.parentReadyTracker.HasRoom block := by
      rcases eq_or_ne certs [] with hnil | hne
      · exact .inl hnil
      obtain ⟨cert, hcert⟩ := List.exists_mem_of_ne_nil certs hne
      obtain ⟨certType, hmem, hattempted, -⟩ := hbuilt cert hcert
      rw [hstores.parentReadyTracker]
      exact .inr (hmeets.room stakes voter hstores.stakesAt hvoter hfresh
        ⟨certType, (hstores.reaches_iff hsound.tallied hvoter).mpr ⟨hmem, hattempted⟩⟩)
    obtain ⟨w', hfold⟩ : ∃ w', certs.foldlM insertCertificate (pool₁, events₁) = .ok w' := by
      rcases hroom with rfl | hroom
      · exact ⟨_, rfl⟩
      · exact foldlM_insertCertificate_returns hcerts hroom
    have hinserts := foldlM_insertCertificate_ok hfold
    refine ⟨.ok certs, w', bind_eq_ok.mpr ⟨_, rfl, bind_eq_ok.mpr ⟨w', hfold, rfl⟩⟩,
      hstores.sound hsound hmeets hvoter hinserts.votePools (fun certType hold => ?_)
        fun certType hdue => ?_⟩
    · rw [hinserts.mem_completedCertificates, hstores.completedCertificates]
      exact .inl hold
    obtain ⟨hmem, hold, hlimit⟩ := (hstores.due_iff hsound.tallied hvoter).mp hdue
    have hattempted : pool₁.Attempted votePool stakes.totalStake certType := by
      rw [Attempted, hstores.completedCertificates,
        htallies.limit_le_accumulatedStake_iff (hslot certType hmem)]
      exact ⟨hold, hlimit.trans (Nat.mul_le_mul_left _ supportStake_le_summedStake)⟩
    obtain ⟨cert, hcert, hfrom⟩ := hall certType hmem hattempted
    exact hinserts.mem_completedCertificates.mpr
      (.inr ⟨cert, hcert, htype certType hmem cert hfrom⟩)

/-- A certificate that meets the condition keeps the invariant. -/
theorem addCertificate_sound (rootSlot : ℕ) (events : List VotorEvent)
    (hsound : Sound valid epochs pool)
    (hmeets : CallMeets valid epochs pool
      (.addMessage rootSlot myVotePubkey (.certificate cert))) :
    ∃ result w', addCertificate rootSlot cert (pool, events) = .ok (result, w') ∧
      Sound valid epochs w'.1 := by
  unfold addCertificate
  split_ifs with hroot hold
  · exact ⟨_, _, rfl, hsound⟩
  · exact ⟨_, _, rfl, hsound⟩
  obtain ⟨w', hinsert, -⟩ := insertCertificate_returns (w := (pool, events)) cert
    (hmeets (not_lt.mp hroot) hold)
  have hinserts := insertCertificate_ok hinsert
  refine ⟨_, w', bind_eq_ok.mpr ⟨w', hinsert, rfl⟩, ?_, ?_, ?_⟩
  · rw [Tallied, hinserts.votePools]
    exact hsound.tallied
  · rw [hinserts.votePools]
    exact hsound.aggregable
  · intro votePool stakes certType hvotePool hstakes hlimit
    rw [hinserts.votePools] at hvotePool
    rw [hinserts.completedCertificates, Std.TreeMap.mem_insert]
    exact .inr (hsound.certified votePool stakes certType hvotePool hstakes hlimit)

/-- Pruning keeps the invariant. -/
lemma Sound.pruneOldState (hsound : Sound valid epochs pool) (rootSlot : ℕ) :
    Sound valid epochs (pool.pruneOldState rootSlot) where
  tallied := hsound.tallied.pruneOldState rootSlot
  aggregable slot votePool hvotePool := by
    rw [getElem?_votePools_pruneOldState] at hvotePool
    split at hvotePool
    · exact hsound.aggregable slot votePool hvotePool
    · cases hvotePool
  certified votePool stakes certType hvotePool hstakes hlimit := by
    rw [getElem?_votePools_pruneOldState] at hvotePool
    split at hvotePool
    · next hroot =>
      exact mem_completedCertificates_pruneOldState.mpr
        ⟨hroot, hsound.certified votePool stakes certType hvotePool hstakes hlimit⟩
    · cases hvotePool

/-- A call that meets the condition returns and keeps the invariant. -/
theorem call_sound (hencodes : backend.EncodesRanks) (hsignatures : backend.Aggregates valid)
    (hsound : Sound valid epochs session.pool) (hmeets : CallMeets valid epochs session.pool c) :
    ∃ session', call backend epochs session c = .ok session' ∧
      Sound valid epochs session'.pool := by
  cases c with
  | pruneOldState rootSlot => exact ⟨_, rfl, hsound.pruneOldState rootSlot⟩
  | addMessage rootSlot myVotePubkey message =>
    cases message with
    | vote message =>
      obtain ⟨result, w', hadd, hsound'⟩ := addVote_sound rootSlot myVotePubkey
        session.events hencodes hsignatures hsound hmeets
      simp only [call, addMessage, hadd]
      exact ⟨_, rfl, hsound'⟩
    | certificate cert =>
      obtain ⟨result, w', hadd, hsound'⟩ := addCertificate_sound rootSlot
        session.events hsound hmeets
      simp only [call, addMessage, hadd]
      exact ⟨_, rfl, hsound'⟩

lemma sound_newFromRootBank (rootBlock : Block) :
    Sound valid epochs (newFromRootBank rootBlock : ConsensusPool σ β) where
  tallied := tallied_newFromRootBank rootBlock
  aggregable slot votePool h := by simp [newFromRootBank] at h
  certified votePool stakes certType h := by simp [newFromRootBank] at h

/-- Any sequence of calls that meet the condition returns, and every quorum has its certificate. -/
theorem quorumsCertified_of_meets (hencodes : backend.EncodesRanks)
    (hsignatures : backend.Aggregates valid)
    (hmeets : Meets backend valid epochs ⟨newFromRootBank rootBlock, [], []⟩ calls) :
    ∃ session, run backend epochs rootBlock calls = .ok session ∧
      QuorumsCertified epochs session.pool := by
  have hrun : ∀ session : Session σ β, Sound valid epochs session.pool →
      Meets backend valid epochs session calls →
      ∃ session', calls.foldlM (call backend epochs) session = .ok session' ∧
        Sound valid epochs session'.pool := by
    clear hmeets
    induction calls with
    | nil => exact fun session hsound _ => ⟨session, rfl, hsound⟩
    | cons c calls ih =>
      rintro session hsound ⟨hmeets, hrest⟩
      obtain ⟨session₁, hcall, hsound₁⟩ := call_sound hencodes hsignatures hsound hmeets
      obtain ⟨session', hfold, hsound'⟩ := ih session₁ hsound₁ (hrest session₁ hcall)
      exact ⟨session', foldlM_cons_eq_ok.mpr ⟨session₁, hcall, hfold⟩, hsound'⟩
  obtain ⟨session, hfold, hsound⟩ := hrun _ (sound_newFromRootBank rootBlock) hmeets
  exact ⟨session, hfold, hsound.certified⟩

/-- A validator notarizes a block. -/
def notarizeCall (rank : ℕ) : Call Unit (ℕ × ℕ) := .addMessage 0 0 (.vote ⟨.notarize 1 7, (), rank⟩)

/-- The condition on such a vote in a pool where it can be decided. -/
lemma callMeets_notarizeCall {pool : ConsensusPool Unit (ℕ × ℕ)} {rank : ℕ} {voter : Pubkey}
    (hrank : rank < maximumValidators) (hvoter : twoValidators.getPubkey rank = some voter)
    (hnodup : ∀ certType ∈ voteToCertificateIds (.notarize 1 7),
      ((pool.votePoolOf 1).supportWith voter (.notarize 1 7) certType).Nodup)
    (hroom : pool.parentReadyTracker.HasRoom (1, 7)) :
    CallMeets (fun _ => True) (.single twoValidators) pool (notarizeCall rank) := by
  refine fun _ _ => ⟨hrank, trivial, fun stakes voter' hstakes hvoter' _ _ certType h => ?_,
    fun _ _ _ _ _ _ block hblock => ?_⟩
  · cases hstakes
    cases hvoter.symm.trans hvoter'
    exact hnodup certType h.1
  · cases hblock
    exact hroom

/-- Both validators notarize a block, and the second vote of one of them is turned away. -/
theorem quorumsCertified_of_meets_notarizeCalls : ∃ session,
    run numberBackend (.single twoValidators) (0, 0) ([1, 0, 1].map notarizeCall) = .ok session ∧
      QuorumsCertified (.single twoValidators) session.pool := by
  have hsignatures : numberBackend.Aggregates fun _ => True := fun _ _ _ => rfl
  refine quorumsCertified_of_meets numberBackend_encodesRanks hsignatures ⟨?_, fun s₁ h₁ => ⟨?_,
    fun s₂ h₂ => ⟨?_, fun _ _ => trivial⟩⟩⟩
  · exact callMeets_notarizeCall (by decide) rfl (by decide +kernel) (.inr (.inr (by decide)))
  · have hcheck : ((call numberBackend (.single twoValidators) ⟨newFromRootBank (0, 0), [], []⟩
        (notarizeCall 1)).toOption.all fun s => decide
          ((∀ certType ∈ voteToCertificateIds (.notarize 1 7),
            ((s.pool.votePoolOf 1).supportWith 0 (.notarize 1 7) certType).Nodup) ∧
          (1, 7) ∈ (s.pool.parentReadyTracker.status 1).notarFallbacks)) = true := by
      decide +kernel
    rw [h₁] at hcheck
    obtain ⟨hnodup, hmem⟩ := of_decide_eq_true hcheck
    exact callMeets_notarizeCall (by decide) rfl hnodup (.inr (.inl hmem))
  · have hcheck : (((call numberBackend (.single twoValidators) ⟨newFromRootBank (0, 0), [], []⟩
        (notarizeCall 1)).bind fun s => call numberBackend (.single twoValidators) s
        (notarizeCall 0)).toOption.all fun s =>
          ((s.pool.votePoolOf 1).addVote 1 60 ⟨.notarize 1 7, (), 1⟩).toOption.isNone) = true := by
      decide +kernel
    rw [h₁, Except.bind, h₂] at hcheck
    rintro - ⟨stakes, votePool, pool₁, hstores⟩
    obtain ⟨voter, total, hvoter, hadd⟩ := hstores.addVote
    cases hstores.stakesAt
    cases hvoter
    replace hadd : (s₂.pool.votePoolOf 1).addVote 1 60 ⟨.notarize 1 7, (), 1⟩ =
      .ok (total, votePool) := hadd
    rw [Except.toOption, Option.all_some, hadd] at hcheck
    cases hcheck

/-! ## Without the condition -/

/-- The first validator votes for a block and also votes for it as a fallback; the second one votes
for it. -/
def doubleVoteCalls : List (Call Unit (ℕ × ℕ)) :=
  [.addMessage 0 0 (.vote ⟨.notarize 1 7, (), 0⟩),
    .addMessage 0 0 (.vote ⟨.notarizeFallback 1 7, (), 0⟩),
    .addMessage 0 0 (.vote ⟨.notarize 1 7, (), 1⟩)]

/-- All validators have notarized the block, and there is no certificate. -/
theorem quorumsCertified_lost : numberBackend.RejectsDoubles ∧
    ∃ session, run numberBackend (.single twoValidators) (0, 0) doubleVoteCalls = .ok session ∧
      (session.pool.votePools[1]?.map fun votePool =>
        votePool.supportStake twoValidators (.notarize 1 7)) = some 100 ∧
      session.pool.completedCertificates.isEmpty ∧
      ¬ QuorumsCertified (.single twoValidators) session.pool := by
  refine ⟨numberBackend_rejectsDoubles, ?_⟩
  have hrun : ((run numberBackend (.single twoValidators) (0, 0) doubleVoteCalls).toOption.map
      fun session => (session.pool.votePools[1]?.map fun votePool =>
        votePool.supportStake twoValidators (.notarize 1 7),
          session.pool.completedCertificates.isEmpty)) = some (some 100, true) := by
    decide +kernel
  cases hsession : run numberBackend (.single twoValidators) (0, 0) doubleVoteCalls with
  | error panic =>
    rw [hsession] at hrun
    cases hrun
  | ok session =>
    rw [hsession] at hrun
    obtain ⟨hsupport, hempty⟩ := Prod.mk.inj (Option.some.inj hrun)
    refine ⟨session, rfl, hsupport, hempty, fun hcertified => ?_⟩
    obtain ⟨votePool, hvotePool, hstake⟩ := Option.map_eq_some_iff.mp hsupport
    refine Std.TreeMap.isEmpty_iff_forall_not_mem.mp hempty (.notarize 1 7) ?_
    refine hcertified votePool twoValidators (.notarize 1 7) hvotePool rfl ?_
    rw [hstake]
    decide

end ConsensusPool
end Trezoa.Votor
