import Trezoa.Votor.CertificateQuorum

/-!
# Conflicting certificates are not both built

The certificates that a consensus pool builds from votes, over any sequence of calls and with any
votes, also of validators that do not follow the protocol.

* `builtCertificates_compatible`: no conflict, and every certificate holds a quorum.

The vote pool of a slot does not hold contradicting votes of one validator, so two certificates of
such votes have disjoint supporters, and there is not enough stake for both.
-/

namespace Trezoa.Votor

open Lib

variable {σ π β : Type}

/-- Certificates that contradict each other. -/
def CertificateType.Conflicts : CertificateType → CertificateType → Prop
  | .notarize slot blockId, .notarize slot' blockId' => slot = slot' ∧ blockId ≠ blockId'
  | .finalizeFast slot blockId, .notarize slot' blockId' => slot = slot' ∧ blockId ≠ blockId'
  | .finalize slot, .skip slot' => slot = slot'
  | _, _ => False

namespace CertificateType.Conflicts

variable {certType certType' : CertificateType}

section
variable (h : certType.Conflicts certType')
include h

lemma slot_eq : certType.slot = certType'.slot := by
  cases certType <;> cases certType' <;> first | exact h.elim | exact h.1 | exact h

/-- There is not enough stake for both. -/
lemma limits : 100 < certType.limit + certType'.limit := by
  cases certType <;> cases certType' <;> first
    | exact h.elim
    | simp [limit, certificateLimitsAndVotes]

/-- The votes of one contradict the votes of the other. -/
lemma contradicts : ∀ vote ∈ certType.votes, ∀ vote' ∈ certType'.votes, vote.Contradicts vote' := by
  cases certType <;> cases certType' <;> first
    | exact h.elim
    | (simp [votes, mainVote, fallbackVote, certificateLimitsAndVotes, Vote.Contradicts]; done)
    | simpa [votes, mainVote, fallbackVote, certificateLimitsAndVotes, Vote.Contradicts] using h.2

end
end CertificateType.Conflicts

namespace ConsensusPool

variable {backend : Backend σ π β} {epochs : Epochs} {rootBlock : Block}
  {pool pool' pool₁ : ConsensusPool σ β} {session session' : Session σ β}
  {calls : List (Call σ β)} {c : Call σ β} {certs : List (Certificate σ β)} {root rootSlot : ℕ}
  {message : VoteMessage σ} {stakes : VersionedEpochStakes} {votePool : VotePool σ}
  {cert cert' : Certificate σ β} {certType certType' : CertificateType}

/-- No message comes with a root below one that was pruned to. -/
def RootsRise : ℕ → List (Call σ β) → Prop
  | _, [] => True
  | root, .addMessage rootSlot _ _ :: calls => root ≤ rootSlot ∧ RootsRise root calls
  | root, .pruneOldState rootSlot :: calls => RootsRise (max root rootSlot) calls

/-- The vote pool of the slot of a certificate holds a quorum for it. -/
def HasQuorum (epochs : Epochs) (pool : ConsensusPool σ β) (certType : CertificateType) : Prop :=
  ∃ votePool stakes, pool.votePools[certType.slot]? = some votePool ∧
    epochs.stakesAt certType.slot = some stakes ∧ 0 < stakes.totalStake ∧
    certType.limit * stakes.totalStake ≤ 100 * votePool.supportStake stakes certType

/-- The bitmap of a certificate holds validators with enough stake. -/
def HoldsQuorum (backend : Backend σ π β) (epochs : Epochs) (cert : Certificate σ β) : Prop :=
  ∃ stakes bitmap0 bitmap1, epochs.stakesAt cert.certType.slot = some stakes ∧
    backend.Encodes cert.bitmap bitmap0 bitmap1 ∧
    cert.certType.limit * stakes.totalStake ≤
      100 * ∑ rank ∈ aggregatedRanks bitmap0 bitmap1, stakes.rankStake rank

/-! ## Quorums -/

/-- Two quorums of one pool are for certificates that do not conflict. -/
lemma HasQuorum.not_conflicts (hpool : Tallied epochs pool) (h : HasQuorum epochs pool certType)
    (h' : HasQuorum epochs pool certType') : ¬ certType.Conflicts certType' := by
  intro hconflict
  obtain ⟨votePool, stakes, hvotePool, hstakes, hpos, hlimit⟩ := h
  obtain ⟨votePool', stakes', hvotePool', hstakes', -, hlimit'⟩ := h'
  rw [← hconflict.slot_eq] at hvotePool' hstakes'
  rw [hvotePool] at hvotePool'
  rw [hstakes] at hstakes'
  cases hvotePool'
  cases hstakes'
  obtain ⟨hslot, stakes', hstakes', htallies⟩ := hpool _ _ hvotePool
  rw [hstakes] at hstakes'
  cases hstakes'
  have hslot' : certType'.slot = votePool.slot := hconflict.slot_eq.symm.trans hslot.symm
  obtain ⟨pubkey, hmem, hmem'⟩ := exists_mem_inter_of_percent
    (htallies.supporters_subset hslot.symm) (htallies.supporters_subset hslot')
    VersionedEpochStakes.sum_validators_le hpos hconflict.limits hlimit hlimit'
  exact htallies.disjoint_supporters hslot.symm hslot' hconflict.contradicts hmem hmem'

/-- A quorum stays when a vote is stored. -/
lemma HasQuorum.storesVote (h : HasQuorum epochs pool certType) (hpool : Tallied epochs pool)
    (hstores : StoresVote epochs message pool stakes votePool pool₁) :
    HasQuorum epochs pool₁ certType := by
  obtain ⟨votePool₀, stakes₀, hvotePool₀, hstakes₀, hpos, hlimit⟩ := h
  rw [HasQuorum]
  simp only [hstores.getElem?_votePools]
  by_cases hslot : message.vote.slot = certType.slot
  · refine ⟨votePool, stakes₀, if_pos hslot, hstakes₀, hpos, hlimit.trans ?_⟩
    have heq := hstores.stakesAt
    rw [hslot, hstakes₀] at heq
    cases heq
    have hle := hstores.supportStake_le hpool hslot.symm
    rw [hslot, votePoolOf_of_getElem? hvotePool₀] at hle
    exact Nat.mul_le_mul_left _ hle
  · exact ⟨votePool₀, stakes₀, by rw [if_neg hslot, hvotePool₀], hstakes₀, hpos, hlimit⟩

/-- A certificate that was built has a quorum. -/
lemma hasQuorum_of_built (hrejects : backend.RejectsDoubles) (hpool : Tallied epochs pool)
    (hstores : StoresVote epochs message pool stakes votePool pool₁)
    (hbuild : buildCertsLoop backend pool₁ votePool stakes.totalStake
      (voteToCertificateIds message.vote) = .ok (.ok certs)) (hcert : cert ∈ certs) :
    cert.certType.slot = message.vote.slot ∧ HasQuorum epochs pool₁ cert.certType ∧
      HoldsQuorum backend epochs cert := by
  obtain ⟨certType, hmem, ⟨-, hreached⟩, hfrom⟩ := (buildCertsLoop_ok hbuild).1 cert hcert
  have hslot := slot_of_mem_voteToCertificateIds hmem
  obtain ⟨voter, -, -, -, hslot', htallies⟩ := hstores.stores hpool
  obtain ⟨rfl, hsupport, bitmap0, bitmap1, hencodes, hranks⟩ :=
    htallies.build_ok (hslot.trans hslot'.symm) hrejects hfrom
  have hlimit := (htallies.limit_le_accumulatedStake_iff (hslot.trans hslot'.symm)).mp hreached
  refine ⟨hslot, ⟨votePool, stakes, ?_, ?_, hstores.totalStake_pos, ?_⟩,
    stakes, bitmap0, bitmap1, ?_, hencodes, ?_⟩
  · rw [hstores.getElem?_votePools, if_pos hslot.symm]
  · rw [hslot, hstores.stakesAt]
  · rwa [hsupport]
  · rw [hslot, hstores.stakesAt]
  · rwa [hranks]

/-! ## Runs -/

/-- The certificates that were built: those of slots that were not pruned have their quorum in the
pool. -/
structure Certified (backend : Backend σ π β) (epochs : Epochs) (root : ℕ)
    (session : Session σ β) : Prop where
  tallied : Tallied epochs session.pool
  hasQuorum : ∀ cert ∈ session.built, root ≤ cert.certType.slot →
    HasQuorum epochs session.pool cert.certType
  holdsQuorum : ∀ cert ∈ session.built, HoldsQuorum backend epochs cert
  compatible : ∀ cert ∈ session.built, ∀ cert' ∈ session.built,
    ¬ cert.certType.Conflicts cert'.certType

namespace Certified

/-- A step that builds nothing and keeps the quorums. -/
lemma of_built_eq (h : Certified backend epochs root session)
    (htallied : Tallied epochs session'.pool)
    (hbuilt : session'.built = session.built)
    (hquorum : ∀ certType : CertificateType, root ≤ certType.slot →
      HasQuorum epochs session.pool certType → HasQuorum epochs session'.pool certType) :
    Certified backend epochs root session' where
  tallied := htallied
  hasQuorum cert hcert hroot := by
    rw [hbuilt] at hcert
    exact hquorum _ hroot (h.hasQuorum cert hcert hroot)
  holdsQuorum := by
    rw [hbuilt]
    exact h.holdsQuorum
  compatible := by
    rw [hbuilt]
    exact h.compatible

/-- A step that builds certificates of a slot that was not pruned. -/
lemma of_built_append (h : Certified backend epochs root session)
    (htallied : Tallied epochs session'.pool) (hbuilt : session'.built = session.built ++ certs)
    (hold : ∀ certType, HasQuorum epochs session.pool certType →
      HasQuorum epochs session'.pool certType)
    (hnew : ∀ cert ∈ certs, root ≤ cert.certType.slot ∧
      HasQuorum epochs session'.pool cert.certType ∧ HoldsQuorum backend epochs cert) :
    Certified backend epochs root session' := by
  have hquorum : ∀ cert ∈ session'.built, root ≤ cert.certType.slot →
      HasQuorum epochs session'.pool cert.certType := by
    intro cert hcert hroot
    rw [hbuilt] at hcert
    rcases List.mem_append.mp hcert with hcert | hcert
    · exact hold _ (h.hasQuorum cert hcert hroot)
    · exact (hnew cert hcert).2.1
  refine ⟨htallied, hquorum, fun cert hcert => ?_, fun cert hcert cert' hcert' hconflict => ?_⟩
  · rw [hbuilt] at hcert
    rcases List.mem_append.mp hcert with hcert | hcert
    · exact h.holdsQuorum cert hcert
    · exact (hnew cert hcert).2.2
  -- above the root both have their quorum now; below it both are old
  by_cases hroot : root ≤ cert.certType.slot
  · exact (hquorum cert hcert hroot).not_conflicts htallied
      (hquorum cert' hcert' (hconflict.slot_eq ▸ hroot)) hconflict
  have hbelow : ∀ cert ∈ session'.built, ¬ root ≤ cert.certType.slot → cert ∈ session.built := by
    intro cert hcert hroot
    rw [hbuilt] at hcert
    rcases List.mem_append.mp hcert with hcert | hcert
    · exact hcert
    · exact absurd (hnew cert hcert).1 hroot
  exact h.compatible cert (hbelow cert hcert hroot) cert'
    (hbelow cert' hcert' (hconflict.slot_eq ▸ hroot)) hconflict

/-- A message keeps the invariant. -/
theorem addMessage (hrejects : backend.RejectsDoubles) (h : Certified backend epochs root session)
    {myVotePubkey : Pubkey} {message : ConsensusMessage σ β} (hroot : root ≤ rootSlot)
    (hcall : call backend epochs session (.addMessage rootSlot myVotePubkey message) =
      .ok session') : Certified backend epochs root session' := by
  obtain ⟨certs, hstep, hbuilt⟩ := call_step hcall
  obtain ⟨pool', events', built'⟩ := session'
  have htallied := hstep.tallied h.tallied
  generalize hc : Call.addMessage rootSlot myVotePubkey message = c at hstep
  cases hstep with
  | turnedAway hsame =>
    refine h.of_built_eq htallied (hbuilt.trans (List.append_nil _)) fun certType _ hquorum => ?_
    obtain ⟨votePool, stakes, hvotePool, hrest⟩ := hquorum
    exact ⟨votePool, stakes, (hsame.votePools _).trans hvotePool, hrest⟩
  | stored _ hstores =>
    exact h.of_built_eq htallied (hbuilt.trans (List.append_nil _)) fun certType _ hquorum =>
      hquorum.storesVote h.tallied hstores
  | built hslot hstores hbuild hinserts =>
    have hpools := hinserts.votePools
    cases hc
    refine h.of_built_append htallied hbuilt (fun certType hquorum => ?_) fun cert hcert => ?_
    · rw [HasQuorum, hpools]
      exact hquorum.storesVote h.tallied hstores
    obtain ⟨hslot', hquorum, hholds⟩ := hasQuorum_of_built hrejects h.tallied hstores hbuild hcert
    refine ⟨hslot' ▸ hroot.trans hslot, ?_, hholds⟩
    rw [HasQuorum, hpools]
    exact hquorum
  | received _ hinserts =>
    refine h.of_built_eq htallied (hbuilt.trans (List.append_nil _)) fun certType _ hquorum => ?_
    rw [HasQuorum, hinserts.votePools]
    exact hquorum
  | pruned => cases hc

/-- Pruning keeps the invariant, from the new root on. -/
theorem pruneOldState (h : Certified backend epochs root session) :
    Certified backend epochs (max root rootSlot)
      { session with pool := session.pool.pruneOldState rootSlot } where
  tallied := h.tallied.pruneOldState rootSlot
  hasQuorum cert hcert hroot := by
    obtain ⟨votePool, stakes, hvotePool, hrest⟩ :=
      h.hasQuorum cert hcert ((le_max_left _ _).trans hroot)
    refine ⟨votePool, stakes, ?_, hrest⟩
    rw [getElem?_votePools_pruneOldState, if_pos ((le_max_right _ _).trans hroot), hvotePool]
  holdsQuorum := h.holdsQuorum
  compatible := h.compatible

/-- Any sequence of calls keeps the invariant, with some root. -/
theorem foldlM_call (hrejects : backend.RejectsDoubles) (h : Certified backend epochs root session)
    (hroots : RootsRise root calls)
    (hrun : calls.foldlM (call backend epochs) session = .ok session') :
    ∃ root', Certified backend epochs root' session' := by
  induction calls generalizing root session with
  | nil =>
    cases hrun
    exact ⟨root, h⟩
  | cons c calls ih =>
    obtain ⟨session₁, hcall, hrest⟩ := foldlM_cons_eq_ok.mp hrun
    cases c with
    | addMessage rootSlot myVotePubkey message =>
      exact ih (h.addMessage hrejects hroots.1 hcall) hroots.2 hrest
    | pruneOldState rootSlot =>
      cases hcall
      exact ih h.pruneOldState hroots hrest

end Certified

lemma certified_new (rootBlock : Block) : Certified backend epochs 0
    ⟨newFromRootBank rootBlock, [], []⟩ where
  tallied := tallied_newFromRootBank rootBlock
  hasQuorum := by simp
  holdsQuorum := by simp
  compatible := by simp

/-- Over any sequence of calls, no two certificates that were built from votes conflict, and every
one of them holds validators whose stake reaches its limit. -/
theorem builtCertificates_compatible (hrejects : backend.RejectsDoubles)
    (hroots : RootsRise 0 calls) (hrun : run backend epochs rootBlock calls = .ok session) :
    (∀ cert ∈ session.built, ∀ cert' ∈ session.built, ¬ cert.certType.Conflicts cert'.certType) ∧
      ∀ cert ∈ session.built, HoldsQuorum backend epochs cert := by
  obtain ⟨root, hcertified⟩ := (certified_new rootBlock).foldlM_call hrejects hroots hrun
  exact ⟨hcertified.compatible, hcertified.holdsQuorum⟩

/-- Both validators notarize a block, and one of them then also another one. -/
def equivocatingCalls : List (Call Unit (ℕ × ℕ)) :=
  [.addMessage 0 0 (.vote ⟨.notarize 2 7, (), 0⟩), .pruneOldState 1,
    .addMessage 1 0 (.vote ⟨.notarize 2 7, (), 1⟩), .addMessage 1 0 (.vote ⟨.notarize 2 8, (), 1⟩)]

theorem builtCertificates_compatible_equivocatingCalls :
    ∃ session, run numberBackend (.single twoValidators) (0, 0) equivocatingCalls = .ok session ∧
      session.built.map (·.certType) = [.notarize 2 7, .notarizeFallback 2 7, .finalizeFast 2 7] ∧
      (∀ cert ∈ session.built, ∀ cert' ∈ session.built, ¬ cert.certType.Conflicts cert'.certType) ∧
      ∀ cert ∈ session.built, HoldsQuorum numberBackend (.single twoValidators) cert := by
  have hbuilt : (run numberBackend (.single twoValidators) (0, 0) equivocatingCalls).toOption.map
      (fun session => session.built.map (·.certType)) =
        some [.notarize 2 7, .notarizeFallback 2 7, .finalizeFast 2 7] := by
    decide +kernel
  cases hrun : run numberBackend (.single twoValidators) (0, 0) equivocatingCalls with
  | error panic =>
    rw [hrun] at hbuilt
    cases hbuilt
  | ok session =>
    rw [hrun] at hbuilt
    exact ⟨session, rfl, Option.some.inj hbuilt, builtCertificates_compatible
      numberBackend_rejectsDoubles (by simp [equivocatingCalls, RootsRise]) hrun⟩

end ConsensusPool
end Trezoa.Votor
