import Trezoa.Votor.ConsensusPool
import Trezoa.Votor.VoteTally

/-!
# What a call on the consensus pool can do

One inversion lemma for each operation of the consensus pool. The invariants of the pool are derived
from these.

* `insertCertificate_ok`: the certificate is completed; the vote pools stay.
-/

namespace Trezoa.Votor

open Lib InternalVotePool

variable {σ π β : Type}

namespace ConsensusPool

variable {backend : Backend σ π β} {epochs : Epochs} {pool pool' pool₁ : ConsensusPool σ β}
  {events events' : List VotorEvent} {w w' : WithEvents σ β} {cert : Certificate σ β}
  {certs : List (Certificate σ β)} {slot : ℕ} {block : Block}

/-! ## Inserting certificates -/

lemma addNewNotarFallbackOrStronger_ok (h : addNewNotarFallbackOrStronger w block = .ok w') :
    ∃ tracker, w'.1 = { w.1 with parentReadyTracker := tracker } := by
  obtain ⟨⟨tracker, events⟩, -, h⟩ := bind_eq_ok.mp h
  cases h
  exact ⟨tracker, rfl⟩

lemma addNewSkip_ok (h : addNewSkip w slot = .ok w') :
    ∃ tracker, w'.1 = { w.1 with parentReadyTracker := tracker } := by
  obtain ⟨⟨tracker, events⟩, -, h⟩ := bind_eq_ok.mp h
  cases h
  exact ⟨tracker, rfl⟩

/-- The pool with a certificate completed. -/
def complete (pool : ConsensusPool σ β) (cert : Certificate σ β) : ConsensusPool σ β :=
  { pool with completedCertificates := pool.completedCertificates.insert cert.certType cert }

@[simp] lemma highestFinalizedWithNotarize_complete :
    (pool.complete cert).highestFinalizedWithNotarize = pool.highestFinalizedWithNotarize := rfl

/-- `highest_finalized_with_notarize` after a certificate was completed. -/
def finalizedWithNotarize (pool : ConsensusPool σ β) : CertificateType → Option (ℕ × Bool)
  | .notarize slot _ =>
    if pool.isFinalized slot ∧ pool.highestFinalizedWithNotarize.all (·.1 < slot) then
      some (slot, false)
    else pool.highestFinalizedWithNotarize
  | .finalize slot =>
    if (pool.getNotarizedBlock slot).isSome ∧
        pool.highestFinalizedWithNotarize.all (·.1 < slot) then
      some (slot, false)
    else pool.highestFinalizedWithNotarize
  | .finalizeFast slot _ =>
    if pool.highestFinalizedWithNotarize.all (·.1 ≤ slot) then some (slot, true)
    else pool.highestFinalizedWithNotarize
  | _ => pool.highestFinalizedWithNotarize

/-- What inserting a certificate does to a pool. -/
structure Inserts (pool : ConsensusPool σ β) (cert : Certificate σ β)
    (pool' : ConsensusPool σ β) : Prop where
  completedCertificates : pool'.completedCertificates =
    pool.completedCertificates.insert cert.certType cert
  votePools : pool'.votePools = pool.votePools
  highestFinalizedWithNotarize : pool'.highestFinalizedWithNotarize =
    (pool.complete cert).finalizedWithNotarize cert.certType

section raise

@[simp] lemma completedCertificates_raiseFinalizedSlot :
    (pool.raiseFinalizedSlot slot).completedCertificates = pool.completedCertificates := by
  unfold raiseFinalizedSlot
  split <;> rfl

@[simp] lemma votePools_raiseFinalizedSlot :
    (pool.raiseFinalizedSlot slot).votePools = pool.votePools := by
  unfold raiseFinalizedSlot
  split <;> rfl

@[simp] lemma highestFinalizedWithNotarize_raiseFinalizedSlot :
    (pool.raiseFinalizedSlot slot).highestFinalizedWithNotarize =
      pool.highestFinalizedWithNotarize := by
  unfold raiseFinalizedSlot
  split <;> rfl

@[simp] lemma completedCertificates_raiseFinalizedWithNotarize :
    (pool.raiseFinalizedWithNotarize slot).completedCertificates = pool.completedCertificates := by
  unfold raiseFinalizedWithNotarize
  split <;> rfl

@[simp] lemma votePools_raiseFinalizedWithNotarize :
    (pool.raiseFinalizedWithNotarize slot).votePools = pool.votePools := by
  unfold raiseFinalizedWithNotarize
  split <;> rfl

@[simp] lemma highestFinalizedWithNotarize_raiseFinalizedWithNotarize :
    (pool.raiseFinalizedWithNotarize slot).highestFinalizedWithNotarize =
      if pool.highestFinalizedWithNotarize.all (·.1 < slot) then some (slot, false)
      else pool.highestFinalizedWithNotarize := by
  unfold raiseFinalizedWithNotarize
  split <;> rfl

end raise

lemma insertCertificate_ok (h : insertCertificate w cert = .ok w') : Inserts w.1 cert w'.1 := by
  unfold insertCertificate at h
  cases hcert : cert.certType with
  | notarizeFallback slot blockId =>
    simp only [hcert] at h
    obtain ⟨tracker, heq⟩ := addNewNotarFallbackOrStronger_ok h
    rw [heq]
    refine ⟨by rw [hcert], rfl, by rw [hcert]; rfl⟩
  | skip slot =>
    simp only [hcert] at h
    obtain ⟨tracker, heq⟩ := addNewSkip_ok h
    rw [heq]
    refine ⟨by rw [hcert], rfl, by rw [hcert]; rfl⟩
  | genesis slot blockId =>
    simp only [hcert] at h
    cases h
    exact ⟨by rw [hcert], rfl, by rw [hcert]; rfl⟩
  | notarize slot blockId =>
    simp only [hcert] at h
    obtain ⟨⟨pool₁, events₁⟩, hadd, h⟩ := bind_eq_ok.mp h
    obtain ⟨tracker, heq⟩ := addNewNotarFallbackOrStronger_ok hadd
    simp only at heq
    have hfinalized : pool₁.isFinalized slot = (w.1.complete cert).isFinalized slot := by
      rw [heq]
      simp only [isFinalized, complete, hcert]
    rw [hfinalized] at h
    split_ifs at h with hfin
    all_goals
      cases h
      constructor <;> simp [heq, hcert, finalizedWithNotarize, hfin]
  | finalize slot =>
    simp only [hcert] at h
    have hblock : ({ w.1 with completedCertificates :=
        w.1.completedCertificates.insert (.finalize slot) cert } :
          ConsensusPool σ β).getNotarizedBlock slot =
        (w.1.complete cert).getNotarizedBlock slot := by
      simp only [complete, hcert]
    rw [hblock] at h
    rcases hnotarized : (w.1.complete cert).getNotarizedBlock slot with _ | block
    all_goals
      simp only [hnotarized] at h
      cases h
      constructor <;> simp [hcert, finalizedWithNotarize, hnotarized]
  | finalizeFast slot blockId =>
    simp only [hcert] at h
    obtain ⟨⟨pool₁, events₁⟩, hadd, h⟩ := bind_eq_ok.mp h
    obtain ⟨tracker, heq⟩ := addNewNotarFallbackOrStronger_ok hadd
    simp only at heq h
    split_ifs at h with hall
    all_goals
      cases h
      simp only [heq, highestFinalizedWithNotarize_raiseFinalizedSlot] at hall
      constructor <;> simp [heq, hcert, finalizedWithNotarize, hall]

/-! ## Building certificates -/

section buildCerts
variable {votePool : VotePool σ} {totalStake : ℕ} {certType : CertificateType}
  {certTypes : List CertificateType}

/-- The certificate is not completed, and its counters have reached the limit. -/
def Attempted (pool : ConsensusPool σ β) (votePool : VotePool σ) (totalStake : ℕ)
    (certType : CertificateType) : Prop :=
  certType ∉ pool.completedCertificates ∧
    certType.limit * totalStake ≤ 100 * accumulatedStake votePool certType

/-- The use of the certificate builder for a certificate type. -/
def buildFrom (backend : Backend σ π β) (votePool : VotePool σ) (certType : CertificateType) :
    Except Panic (Except BuildError (Certificate σ β)) :=
  buildCertificate backend certType (votePool.getVotes certType.mainVote)
    (certType.fallbackVote.elim [] votePool.getVotes)

lemma buildCertsLoop_of_not_attempted (h : ¬ pool.Attempted votePool totalStake certType) :
    buildCertsLoop backend pool votePool totalStake (certType :: certTypes) =
      buildCertsLoop backend pool votePool totalStake certTypes := by
  rw [buildCertsLoop]
  split_ifs with hcompleted hlimit
  · rfl
  · rfl
  · exact absurd ⟨hcompleted, not_lt.mp hlimit⟩ h

lemma buildCertsLoop_of_attempted (h : pool.Attempted votePool totalStake certType) :
    buildCertsLoop backend pool votePool totalStake (certType :: certTypes) = do
      match ← buildFrom backend votePool certType with
      | .error e => return .error (.certificateBuilder e)
      | .ok newCert =>
        return (← buildCertsLoop backend pool votePool totalStake certTypes).map
          (newCert :: ·) := by
  rw [buildCertsLoop, if_neg h.1, if_neg h.2.not_gt]
  rfl

/-- The certificates that are built were attempted, and all that were attempted are built. -/
theorem buildCertsLoop_ok
    (h : buildCertsLoop backend pool votePool totalStake certTypes = .ok (.ok certs)) :
    (∀ cert ∈ certs, ∃ certType ∈ certTypes, pool.Attempted votePool totalStake certType ∧
      buildFrom backend votePool certType = .ok (.ok cert)) ∧
    ∀ certType ∈ certTypes, pool.Attempted votePool totalStake certType →
      ∃ cert ∈ certs, buildFrom backend votePool certType = .ok (.ok cert) := by
  induction certTypes generalizing certs with
  | nil =>
    cases h
    simp
  | cons certType certTypes ih =>
    by_cases hattempted : pool.Attempted votePool totalStake certType
    · rw [buildCertsLoop_of_attempted hattempted] at h
      obtain ⟨result, hresult, h⟩ := bind_eq_ok.mp h
      cases result with
      | error e => cases h
      | ok newCert =>
        obtain ⟨rest, hrest, h⟩ := bind_eq_ok.mp h
        cases rest with
        | error e => cases h
        | ok rest =>
          cases h
          obtain ⟨hbuilt, hall⟩ := ih hrest
          constructor
          · intro cert hcert
            rcases List.mem_cons.mp hcert with rfl | hcert
            · exact ⟨certType, .head _, hattempted, hresult⟩
            · obtain ⟨certType', hmem, h⟩ := hbuilt cert hcert
              exact ⟨certType', .tail _ hmem, h⟩
          intro certType' hmem hattempted'
          rcases List.mem_cons.mp hmem with rfl | hmem
          · exact ⟨newCert, .head _, hresult⟩
          · obtain ⟨cert, hcert, h⟩ := hall certType' hmem hattempted'
            exact ⟨cert, .tail _ hcert, h⟩
    rw [buildCertsLoop_of_not_attempted hattempted] at h
    obtain ⟨hbuilt, hall⟩ := ih h
    constructor
    · intro cert hcert
      obtain ⟨certType', hmem, h⟩ := hbuilt cert hcert
      exact ⟨certType', .tail _ hmem, h⟩
    · intro certType' hmem hattempted'
      rcases List.mem_cons.mp hmem with rfl | hmem
      · exact absurd hattempted' hattempted
      · exact hall certType' hmem hattempted'

/-- If building never panics, the loop returns; it returns an error only if an attempted certificate
cannot be built. -/
theorem buildCertsLoop_returns (hreturns : ∀ certType ∈ certTypes,
      pool.Attempted votePool totalStake certType →
        ∃ result, buildFrom backend votePool certType = .ok result) :
    ∃ result, buildCertsLoop backend pool votePool totalStake certTypes = .ok result ∧
      ((∃ certs, result = .ok certs) ∨ ∃ certType ∈ certTypes,
        pool.Attempted votePool totalStake certType ∧
          ∃ e, buildFrom backend votePool certType = .ok (.error e)) := by
  induction certTypes with
  | nil => exact ⟨_, rfl, .inl ⟨[], rfl⟩⟩
  | cons certType certTypes ih =>
    obtain ⟨hhead, htail⟩ := List.forall_mem_cons.mp hreturns
    obtain ⟨rest, hrest, hcases⟩ := ih htail
    have hlift : (∃ certType' ∈ certTypes, pool.Attempted votePool totalStake certType' ∧
        ∃ e, buildFrom backend votePool certType' = .ok (.error e)) →
        ∃ certType' ∈ certType :: certTypes, pool.Attempted votePool totalStake certType' ∧
          ∃ e, buildFrom backend votePool certType' = .ok (.error e) := fun ⟨c, hc, h⟩ =>
      ⟨c, .tail _ hc, h⟩
    by_cases hattempted : pool.Attempted votePool totalStake certType
    · obtain ⟨result, hresult⟩ := hhead hattempted
      rw [buildCertsLoop_of_attempted hattempted, hresult, hrest]
      cases result with
      | error e => exact ⟨_, rfl, .inr ⟨certType, .head _, hattempted, e, hresult⟩⟩
      | ok newCert =>
        refine ⟨_, rfl, hcases.imp ?_ hlift⟩
        rintro ⟨certs, rfl⟩
        exact ⟨newCert :: certs, rfl⟩
    · rw [buildCertsLoop_of_not_attempted hattempted, hrest]
      exact ⟨rest, rfl, hcases.imp_right hlift⟩

end buildCerts

/-! ## Votes -/

/-- Nothing but the counters of votes and events differs. -/
structure Same (pool pool' : ConsensusPool σ β) : Prop where
  votePools : ∀ slot : ℕ, pool'.votePools[slot]? = pool.votePools[slot]?
  completedCertificates : pool'.completedCertificates = pool.completedCertificates
  parentReadyTracker : pool'.parentReadyTracker = pool.parentReadyTracker
  highestFinalizedWithNotarize :
    pool'.highestFinalizedWithNotarize = pool.highestFinalizedWithNotarize

lemma Same.refl (pool : ConsensusPool σ β) : Same pool pool := ⟨fun _ => rfl, rfl, rfl, rfl⟩

/-- `pool₁` is `pool` with the vote of a validator stored in `votePool`, the vote pool of its
slot. -/
structure StoresVote (epochs : Epochs) (message : VoteMessage σ) (pool : ConsensusPool σ β)
    (stakes : VersionedEpochStakes) (votePool : VotePool σ) (pool₁ : ConsensusPool σ β) :
    Prop where
  stakesAt : epochs.stakesAt message.vote.slot = some stakes
  addVote : ∃ voter total, stakes.getPubkey message.rank = some voter ∧
    (pool.votePools[message.vote.slot]?.getD (.new message.vote.slot)).addVote voter
      (stakes.voteAccountStake voter) message = .ok (total, votePool)
  votePools : pool₁.votePools = pool.votePools.insert message.vote.slot votePool
  completedCertificates : pool₁.completedCertificates = pool.completedCertificates
  parentReadyTracker : pool₁.parentReadyTracker = pool.parentReadyTracker
  highestFinalizedWithNotarize :
    pool₁.highestFinalizedWithNotarize = pool.highestFinalizedWithNotarize

/-- The first vote of a slot is stored. -/
lemma addVote_new_ok (slot : ℕ) (voter : Pubkey) (voterStake : ℕ) (message : VoteMessage σ) :
    ∃ result, (VotePool.new slot).addVote voter voterStake message = .ok result := by
  have hvotes : ∃ votes, (new slot).addVote voter message = .ok votes := by
    unfold InternalVotePool.addVote InternalVotePool.new
    cases message.vote <;> simp [insertVote, insertBlockVote, insertNotarFallback]
  obtain ⟨votes, hvotes⟩ := hvotes
  refine ⟨_, bind_eq_ok.mpr ⟨votes, hvotes, rfl⟩⟩

variable {rootSlot : ℕ} {myVotePubkey : Pubkey} {message : VoteMessage σ}

/-- A vote pool that turns a vote away was there before, so storing it again changes nothing. -/
lemma same_insert_votePool {voter : Pubkey} {voterStake : ℕ} {e : VotePoolError}
    (hadd : (pool.votePools[message.vote.slot]?.getD (.new message.vote.slot)).addVote voter
      voterStake message = .error e) :
    Same pool { pool with
      votePools := pool.votePools.insert message.vote.slot
        (pool.votePools[message.vote.slot]?.getD (.new message.vote.slot)) } := by
  refine ⟨fun slot => ?_, rfl, rfl, rfl⟩
  simp only [OrdMap.getElem?_insert]
  by_cases hslot : message.vote.slot = slot
  · subst hslot
    rw [if_pos rfl]
    cases hpool : pool.votePools[message.vote.slot]? with
    | none =>
      rw [hpool, Option.getD_none] at hadd
      obtain ⟨result, hok⟩ := addVote_new_ok message.vote.slot voter voterStake message
      cases hok.symm.trans hadd
    | some votePool => rfl
  · rw [if_neg hslot]

/-- A stored vote is counted, and the certificates that it completes are built and inserted. -/
lemma countVote_eq (backend : Backend σ π β) (pool : ConsensusPool σ β)
    (events : List VotorEvent) (own : Bool) (vote : Vote) (totalStake stake : ℕ)
    (votePool : VotePool σ) :
    ∃ counters events₁, ∃ pool₁ : ConsensusPool σ β,
      pool₁ = { pool with
        votePools := pool.votePools.insert vote.slot votePool
        slotStakeCountersMap := pool.slotStakeCountersMap.insert vote.slot counters } ∧
      countVote backend own vote totalStake stake votePool (pool, events) =
        buildCertsLoop backend pool₁ votePool totalStake (voteToCertificateIds vote) >>=
          insertBuilt (pool₁, events₁) := by
  obtain ⟨counters, events₁, hcount⟩ : ∃ counters events₁,
      (pool.slotStakeCountersMap[vote.slot]?.getD (.new totalStake)).addVote vote stake own events =
        (counters, events₁) := ⟨_, _, rfl⟩
  refine ⟨counters, events₁, _, rfl, ?_⟩
  unfold countVote buildCerts
  simp only [hcount, OrdMap.getElem?_insert, if_pos]

/-- A vote is turned away, or it is stored and the certificates that it completes are built and
inserted. -/
theorem addVote_eq (backend : Backend σ π β) (epochs : Epochs) (pool : ConsensusPool σ β)
    (events : List VotorEvent) (rootSlot : ℕ) (myVotePubkey : Pubkey) (message : VoteMessage σ) :
    (∃ result pool', addVote backend epochs rootSlot myVotePubkey message (pool, events) =
        .ok (result, pool', events) ∧ Same pool pool' ∧
        (result = .ok [] ∨ ∃ e, result = .error e)) ∨
    ∃ stakes votePool pool₁ events₁, rootSlot ≤ message.vote.slot ∧
      StoresVote epochs message pool stakes votePool pool₁ ∧
      addVote backend epochs rootSlot myVotePubkey message (pool, events) =
        buildCertsLoop backend pool₁ votePool stakes.totalStake
          (voteToCertificateIds message.vote) >>= insertBuilt (pool₁, events₁) := by
  cases hstakes : epochs.stakesAt message.vote.slot with
  | none =>
    refine .inl ⟨.error (.epochStakesNotFound (epochs.getEpoch message.vote.slot)), pool, ?_,
      Same.refl pool, .inr ⟨_, rfl⟩⟩
    simp only [addVote, getKeyAndStakes, hstakes]
    rfl
  | some stakes =>
    cases hvoter : stakes.getPubkey message.rank with
    | none =>
      refine .inl ⟨.error (.invalidRank message.rank), pool, ?_, Same.refl pool, .inr ⟨_, rfl⟩⟩
      simp only [addVote, getKeyAndStakes, hstakes, hvoter]
      rfl
    | some voter =>
      have hpos := (stakes.stake_pos voter (stakes.mem_of_getPubkey hvoter)).ne'
      have hkey : getKeyAndStakes epochs message.vote.slot message.rank =
          .ok (.ok (voter, stakes.voteAccountStake voter, stakes.totalStake)) := by
        simp only [getKeyAndStakes, hstakes, hvoter, if_neg hpos]
      have haddVote : addVote backend epochs rootSlot myVotePubkey message (pool, events) =
          addValidatorVote backend rootSlot myVotePubkey message voter
            (stakes.voteAccountStake voter) stakes.totalStake (pool, events) := by
        unfold addVote
        rw [hkey]
        rfl
      rw [haddVote]
      unfold addValidatorVote
      simp only [assert_of_true hpos]
      by_cases hroot : message.vote.slot < rootSlot
      · refine .inl ⟨.error .unrootedSlot, pool, ?_, Same.refl pool, .inr ⟨_, rfl⟩⟩
        simp only [if_pos hroot]
        rfl
      simp only [if_neg hroot]
      cases hadd : (pool.votePools[message.vote.slot]?.getD (.new message.vote.slot)).addVote
          voter (stakes.voteAccountStake voter) message with
      | error e =>
        cases e with
        | duplicate => exact .inl ⟨.ok [], _, rfl, same_insert_votePool hadd, .inl rfl⟩
        | invalid => exact .inl ⟨.error _, _, rfl, same_insert_votePool hadd, .inr ⟨_, rfl⟩⟩
      | ok added =>
        obtain ⟨total, votePool⟩ := added
        obtain ⟨counters, events₁, pool₁, hpool₁, heq⟩ := countVote_eq backend pool events
          (decide (myVotePubkey = voter)) message.vote
          stakes.totalStake total votePool
        refine .inr ⟨stakes, votePool, pool₁, events₁, not_lt.mp hroot, ?_, heq⟩
        subst hpool₁
        exact ⟨hstakes, ⟨voter, total, hvoter, hadd⟩, rfl, rfl, rfl, rfl⟩

/-! ## Calls -/

/-- What inserting certificates one after the other does to a pool. -/
inductive InsertsAll : ConsensusPool σ β → List (Certificate σ β) → ConsensusPool σ β → Prop where
  | nil {pool : ConsensusPool σ β} : InsertsAll pool [] pool
  | cons {pool pool₁ pool' : ConsensusPool σ β} {cert : Certificate σ β}
      {certs : List (Certificate σ β)} : Inserts pool cert pool₁ → InsertsAll pool₁ certs pool' →
      InsertsAll pool (cert :: certs) pool'

lemma foldlM_insertCertificate_ok (h : certs.foldlM insertCertificate w = .ok w') :
    InsertsAll w.1 certs w'.1 := by
  induction certs generalizing w with
  | nil =>
    cases h
    exact .nil
  | cons cert certs ih =>
    obtain ⟨w₁, hinsert, hrest⟩ := foldlM_cons_eq_ok.mp h
    exact .cons (insertCertificate_ok hinsert) (ih hrest)

namespace InsertsAll

lemma votePools (h : InsertsAll pool certs pool') : pool'.votePools = pool.votePools := by
  induction h with
  | nil => rfl
  | cons hinserts _ ih => exact ih.trans hinserts.votePools

/-- The completed certificates afterwards. -/
lemma mem_completedCertificates (h : InsertsAll pool certs pool') {certType : CertificateType} :
    certType ∈ pool'.completedCertificates ↔
      certType ∈ pool.completedCertificates ∨ ∃ cert ∈ certs, cert.certType = certType := by
  induction h with
  | nil => simp
  | cons hinserts _ ih =>
    rw [ih, hinserts.completedCertificates, Std.TreeMap.mem_insert, Std.compare_eq_iff_eq]
    simp only [List.exists_mem_cons_iff]
    tauto

end InsertsAll

/-- The vote pools that are left after pruning. -/
lemma getElem?_votePools_pruneOldState (rootSlot : ℕ) :
    (pool.pruneOldState rootSlot).votePools[slot]? =
      if rootSlot ≤ slot then pool.votePools[slot]? else none := by
  simp only [pruneOldState, OrdMap.getElem?_filter, decide_eq_true_eq]

/-- The completed certificates that are left after pruning. -/
lemma getElem?_completedCertificates_pruneOldState (rootSlot : ℕ) {certType : CertificateType} :
    (pool.pruneOldState rootSlot).completedCertificates[certType]? =
      if rootSlot ≤ certType.slot then pool.completedCertificates[certType]? else none := by
  simp only [pruneOldState, OrdMap.getElem?_filter, decide_eq_true_eq]

lemma mem_completedCertificates_pruneOldState {rootSlot : ℕ} {certType : CertificateType} :
    certType ∈ (pool.pruneOldState rootSlot).completedCertificates ↔
      rootSlot ≤ certType.slot ∧ certType ∈ pool.completedCertificates := by
  rw [Std.TreeMap.mem_iff_isSome_getElem?, getElem?_completedCertificates_pruneOldState,
    Std.TreeMap.mem_iff_isSome_getElem?]
  split <;> simp_all

/-- What a call can do to a pool, with the certificates that it builds. -/
inductive Step (backend : Backend σ π β) (epochs : Epochs) (pool : ConsensusPool σ β) :
    Call σ β → ConsensusPool σ β → List (Certificate σ β) → Prop where
  /-- The message is turned away. -/
  | turnedAway {rootSlot : ℕ} {myVotePubkey : Pubkey} {message : ConsensusMessage σ β}
      {pool' : ConsensusPool σ β} : Same pool pool' →
      Step backend epochs pool (.addMessage rootSlot myVotePubkey message) pool' []
  /-- A vote is stored, and building certificates fails. -/
  | stored {rootSlot : ℕ} {myVotePubkey : Pubkey} {message : VoteMessage σ}
      {stakes : VersionedEpochStakes} {votePool : VotePool σ} {pool' : ConsensusPool σ β} :
      rootSlot ≤ message.vote.slot → StoresVote epochs message pool stakes votePool pool' →
      Step backend epochs pool (.addMessage rootSlot myVotePubkey (.vote message)) pool' []
  /-- A vote is stored, and the certificates that it completes are inserted. -/
  | built {rootSlot : ℕ} {myVotePubkey : Pubkey} {message : VoteMessage σ}
      {stakes : VersionedEpochStakes} {votePool : VotePool σ} {pool₁ pool' : ConsensusPool σ β}
      {certs : List (Certificate σ β)} :
      rootSlot ≤ message.vote.slot → StoresVote epochs message pool stakes votePool pool₁ →
      buildCertsLoop backend pool₁ votePool stakes.totalStake
        (voteToCertificateIds message.vote) = .ok (.ok certs) →
      InsertsAll pool₁ certs pool' →
      Step backend epochs pool (.addMessage rootSlot myVotePubkey (.vote message)) pool' certs
  /-- A certificate that was received is inserted. -/
  | received {rootSlot : ℕ} {myVotePubkey : Pubkey} {cert : Certificate σ β}
      {pool' : ConsensusPool σ β} : rootSlot ≤ cert.certType.slot → Inserts pool cert pool' →
      Step backend epochs pool (.addMessage rootSlot myVotePubkey (.certificate cert)) pool' []
  | pruned {rootSlot : ℕ} :
      Step backend epochs pool (.pruneOldState rootSlot) (pool.pruneOldState rootSlot) []

lemma addVote_step {result : Except AddVoteError (List (Certificate σ β))}
    (h : addVote backend epochs rootSlot myVotePubkey message (pool, events) = .ok (result, w')) :
    Step backend epochs pool (.addMessage rootSlot myVotePubkey (.vote message)) w'.1
      (result.toOption.getD []) := by
  rcases addVote_eq backend epochs pool events rootSlot myVotePubkey message with
    ⟨result', pool', heq, hsame, hresult⟩ | ⟨stakes, votePool, pool₁, events₁, hroot, hstores, heq⟩
  · cases heq.symm.trans h
    rcases hresult with rfl | ⟨e, rfl⟩ <;> exact .turnedAway hsame
  rw [heq] at h
  obtain ⟨built, hbuild, h⟩ := bind_eq_ok.mp h
  cases built with
  | error e =>
    cases h
    exact .stored hroot hstores
  | ok certs =>
    obtain ⟨w₁, hfold, h⟩ := bind_eq_ok.mp h
    cases h
    exact .built hroot hstores hbuild (foldlM_insertCertificate_ok hfold)

lemma addCertificate_step {result : Except AddCertError (List (Certificate σ β))}
    (h : addCertificate rootSlot cert (pool, events) = .ok (result, w')) :
    Step backend epochs pool (.addMessage rootSlot myVotePubkey (.certificate cert)) w'.1 [] := by
  unfold addCertificate at h
  split_ifs at h with hroot hcompleted
  · cases h
    exact .turnedAway (Same.refl pool)
  · cases h
    exact .turnedAway (Same.refl pool)
  · obtain ⟨w₁, hinsert, h⟩ := bind_eq_ok.mp h
    cases h
    exact .received (not_lt.mp hroot) (insertCertificate_ok hinsert)

/-- Every call takes one of the steps. -/
theorem call_step {session session' : Session σ β} {c : Call σ β}
    (h : call backend epochs session c = .ok session') :
    ∃ certs, Step backend epochs session.pool c session'.pool certs ∧
      session'.built = session.built ++ certs := by
  cases c with
  | pruneOldState rootSlot =>
    cases h
    exact ⟨[], .pruned, (List.append_nil _).symm⟩
  | addMessage rootSlot myVotePubkey message =>
    obtain ⟨⟨result, pool', events'⟩, hadd, h⟩ := bind_eq_ok.mp h
    cases h
    cases message with
    | vote message =>
      simp only [addMessage] at hadd
      obtain ⟨⟨result₀, w₀⟩, hvote, hadd⟩ := bind_eq_ok.mp hadd
      cases hadd
      refine ⟨_, addVote_step hvote, ?_⟩
      cases result₀ <;> rfl
    | certificate cert =>
      simp only [addMessage] at hadd
      obtain ⟨⟨result₀, w₀⟩, hcert, hadd⟩ := bind_eq_ok.mp hadd
      cases hadd
      exact ⟨[], addCertificate_step hcert, rfl⟩

end ConsensusPool
end Trezoa.Votor
