import Trezoa.Lib.OrdMap
import Trezoa.Votor.Messages

/-!
# Certificates

`votor-messages/src/consensus_message.rs` and the part of `votor/src/common.rs` that says which
votes a certificate needs.

* `VoteMessage`, `CertificateType`, `Certificate`, `ConsensusMessage`: the messages. They are
  generic in the type `σ` of BLS signatures and the type `β` of encoded bitmaps.
* `certificateLimitsAndVotes`, `voteToCertificateIds`: from a certificate to the votes it is made
  of, and back. The source asks for the two to be in sync: `mem_voteToCertificateIds`.
* `Backend`: what the certificate builder uses of `trezoa_bls_signatures` and
  `trezoa_signer_store`.

A limit is a number of percent of the total stake and is compared exactly.
-/

namespace Trezoa.Votor

open Std.LawfulEqOrd

/-- A vote with its signature and the rank of its validator. -/
structure VoteMessage (σ : Type) where
  vote : Vote
  signature : σ
  rank : ℕ

/-- What is certified. -/
inductive CertificateType where
  | finalize (slot : ℕ)
  | finalizeFast (slot : ℕ) (blockId : Hash)
  | notarize (slot : ℕ) (blockId : Hash)
  | notarizeFallback (slot : ℕ) (blockId : Hash)
  | skip (slot : ℕ)
  | genesis (slot : ℕ) (blockId : Hash)
  deriving DecidableEq

namespace CertificateType

/-- The slot that is certified. -/
def slot : CertificateType → ℕ
  | finalize slot | finalizeFast slot _ | notarize slot _ => slot
  | notarizeFallback slot _ | skip slot | genesis slot _ => slot

/-- The position of the variant in the declaration, for the derived order. -/
def index : CertificateType → ℕ
  | finalize _ => 0
  | finalizeFast _ _ => 1
  | notarize _ _ => 2
  | notarizeFallback _ _ => 3
  | skip _ => 4
  | genesis _ _ => 5

/-- The block id, for the derived order. -/
def blockIdOrZero : CertificateType → Hash
  | finalize _ | skip _ => 0
  | finalizeFast _ blockId | notarize _ blockId => blockId
  | notarizeFallback _ blockId | genesis _ blockId => blockId

/-- The derived order: by variant, then by slot, then by block id. -/
instance : Ord CertificateType where
  compare := compareLex (compareOn index) (compareLex (compareOn slot) (compareOn blockIdOrZero))

instance : Std.TransOrd CertificateType :=
  inferInstanceAs (Std.TransCmp
    (compareLex (compareOn index) (compareLex (compareOn slot) (compareOn blockIdOrZero))))

instance : Std.LawfulEqOrd CertificateType where
  eq_of_compare {c c'} h := by
    obtain ⟨hindex, hrest⟩ := compareLex_eq_eq.mp h
    obtain ⟨hslot, hblockId⟩ := compareLex_eq_eq.mp hrest
    have hindex : c.index = c'.index := eq_of_compare hindex
    have hslot : c.slot = c'.slot := eq_of_compare hslot
    have hblockId : c.blockIdOrZero = c'.blockIdOrZero := eq_of_compare hblockId
    cases c <;> cases c' <;> simp_all [index, slot, blockIdOrZero]

end CertificateType

open CertificateType

/-- A certificate with its signature and validators. -/
structure Certificate (σ β : Type) where
  certType : CertificateType
  signature : σ
  bitmap : β

/-- What validators send each other. -/
inductive ConsensusMessage (σ β : Type) where
  | vote (message : VoteMessage σ)
  | certificate (certificate : Certificate σ β)

/-! ## Limits and votes -/

/-- `GENESIS_VOTE_THRESHOLD`, in percent. -/
def genesisVoteThreshold : ℕ := 82

/-- `certificate_limits_and_votes`: the limit in percent of the total stake, the vote, and the
fallback vote. -/
def certificateLimitsAndVotes : CertificateType → ℕ × Vote × Option Vote
  | .notarize slot blockId => (60, .notarize slot blockId, none)
  | .notarizeFallback slot blockId =>
    (60, .notarize slot blockId, some (.notarizeFallback slot blockId))
  | .finalizeFast slot blockId => (80, .notarize slot blockId, none)
  | .finalize slot => (60, .finalize slot, none)
  | .skip slot => (60, .skip slot, some (.skipFallback slot))
  | .genesis slot blockId => (genesisVoteThreshold, .genesis slot blockId, none)

namespace CertificateType

/-- The limit in percent of the total stake. -/
def limit (certType : CertificateType) : ℕ := (certificateLimitsAndVotes certType).1

/-- The vote that a certificate is made of. -/
def mainVote (certType : CertificateType) : Vote := (certificateLimitsAndVotes certType).2.1

/-- The fallback vote that a certificate may also be made of. -/
def fallbackVote (certType : CertificateType) : Option Vote :=
  (certificateLimitsAndVotes certType).2.2

/-- The votes that a certificate is made of. -/
def votes (certType : CertificateType) : List Vote :=
  certType.mainVote :: certType.fallbackVote.toList

lemma limit_le (certType : CertificateType) : certType.limit ≤ 100 := by
  cases certType <;> simp [limit, certificateLimitsAndVotes, genesisVoteThreshold]

lemma limit_pos (certType : CertificateType) : 0 < certType.limit := by
  cases certType <;> simp [limit, certificateLimitsAndVotes, genesisVoteThreshold]

lemma slot_mainVote (certType : CertificateType) : certType.mainVote.slot = certType.slot := by
  cases certType <;> rfl

variable {certType : CertificateType}

lemma slot_fallbackVote {vote : Vote} (h : certType.fallbackVote = some vote) :
    vote.slot = certType.slot := by
  cases certType <;> cases h <;> rfl

lemma slot_of_mem_votes {vote : Vote} (h : vote ∈ certType.votes) : vote.slot = certType.slot := by
  rcases List.mem_cons.mp h with rfl | h
  · exact slot_mainVote certType
  · exact slot_fallbackVote (Option.mem_toList.mp h)

lemma fallbackVote_ne_mainVote {vote : Vote} (h : certType.fallbackVote = some vote) :
    vote ≠ certType.mainVote := by
  cases certType <;> cases h <;> simp [mainVote, certificateLimitsAndVotes]

end CertificateType

/-- The certificates a vote counts for. -/
def voteToCertificateIds : Vote → List CertificateType
  | .notarize slot blockId =>
    [.notarize slot blockId, .notarizeFallback slot blockId, .finalizeFast slot blockId]
  | .notarizeFallback slot blockId => [.notarizeFallback slot blockId]
  | .finalize slot => [.finalize slot]
  | .skip slot => [.skip slot]
  | .skipFallback slot => [.skip slot]
  | .genesis slot blockId => [.genesis slot blockId]

/-- The two tables are in sync: a vote counts toward the certificates that are made of it. -/
theorem mem_voteToCertificateIds {vote : Vote} :
    certType ∈ voteToCertificateIds vote ↔ vote ∈ certType.votes := by
  cases vote <;> cases certType <;>
    simp [voteToCertificateIds, votes, mainVote, fallbackVote, certificateLimitsAndVotes, eq_comm]

lemma slot_of_mem_voteToCertificateIds {vote : Vote} (h : certType ∈ voteToCertificateIds vote) :
    certType.slot = vote.slot :=
  (slot_of_mem_votes (mem_voteToCertificateIds.mp h)).symm

/-- What the certificate builder uses of the two libraries. A result `none` is an error of the
library. -/
structure Backend (σ π β : Type) where
  identity : π
  aggregateWith : π → List σ → Option π
  /-- `SignatureProjective` into `Signature`. -/
  into : π → σ
  encodeBase2 : {n : ℕ} → BitVec n → Option β
  encodeBase3 : {n : ℕ} → BitVec n → BitVec n → Option β

end Trezoa.Votor
