import Trezoa.Votor.VoteHistory

/-!
# Ballots

What a node has said so far in the Alpenglow protocol, with nothing forgotten: every vote it cast
and every block it saw notarized. The vote history of the code is a pruned index of it.

* `Records`: a vote history is the index of a ballot from its root on. `Records.allowed`: where the
  protocol lets the node vote, no assertion of `addVote` fails.
-/

namespace Trezoa.Votor

open VoteHistory

/-- The votes a node cast, oldest first, and the blocks it saw notarized. -/
structure Ballot where
  /-- The votes cast. -/
  cast : List Vote
  /-- The blocks of the `BlockNotarized` events handled. -/
  notarized : List Block

/-- A notarize vote in `slot`. -/
def Vote.NotarizesIn (slot : ℕ) (vote : Vote) : Bool :=
  match vote with
  | .notarize slot' _ => slot' == slot
  | _ => false

namespace Ballot

/-- The ballot of a node that has not said anything. -/
def empty : Ballot := ⟨[], []⟩

/-- A notarize or skip vote was cast in `slot`. -/
def Voted (b : Ballot) (slot : ℕ) : Prop :=
  (∃ blockId, .notarize slot blockId ∈ b.cast) ∨ .skip slot ∈ b.cast

/-- A skip, skip fallback or notarize fallback vote was cast in `slot`. -/
def Skipped (b : Ballot) (slot : ℕ) : Prop :=
  .skip slot ∈ b.cast ∨ .skipFallback slot ∈ b.cast ∨
    ∃ blockId, .notarizeFallback slot blockId ∈ b.cast

/-- The ballot with one more vote. -/
def castVote (b : Ballot) (vote : Vote) : Ballot :=
  { b with cast := b.cast ++ [vote] }

/-- The ballot after one more block was seen notarized. -/
def seeNotarized (b : Ballot) (block : Block) : Ballot :=
  { b with notarized := block :: b.notarized }

/-- The votes obey the protocol. -/
structure Safe (b : Ballot) : Prop where
  /-- At most one notarize vote in a slot. -/
  notarize_le_one : ∀ slot, b.cast.countP (Vote.NotarizesIn slot) ≤ 1
  /-- Never a notarize and a skip vote in one slot. -/
  not_skip_of_notarize : ∀ slot blockId, .notarize slot blockId ∈ b.cast → .skip slot ∉ b.cast
  /-- A finalize vote comes with a notarize vote for a notarized block and with no skip, skip
  fallback or notarize fallback vote in its slot. -/
  finalize : ∀ slot, .finalize slot ∈ b.cast →
    (∃ blockId, .notarize slot blockId ∈ b.cast ∧ (slot, blockId) ∈ b.notarized) ∧ ¬b.Skipped slot

/-- When the protocol lets a node cast a vote. -/
def MayCast (b : Ballot) : Vote → Prop
  | .notarize slot _ | .skip slot => ¬b.Voted slot
  | .notarizeFallback slot _ | .skipFallback slot => b.Voted slot ∧ .finalize slot ∉ b.cast
  | .finalize slot =>
    (∃ blockId, .notarize slot blockId ∈ b.cast ∧ (slot, blockId) ∈ b.notarized) ∧ ¬b.Skipped slot
  | .genesis _ _ => True

variable {b : Ballot} {slot : ℕ} {vote vote' : Vote}

@[simp] lemma mem_castVote : vote' ∈ (b.castVote vote).cast ↔ vote' ∈ b.cast ∨ vote' = vote := by
  simp [castVote]

@[simp] lemma mem_notarized_seeNotarized {block block' : Block} :
    block' ∈ (b.seeNotarized block).notarized ↔ block' = block ∨ block' ∈ b.notarized := by
  simp [seeNotarized]

/-- The votes that count as a vote in `slot`: notarize and skip. -/
lemma voted_castVote : (b.castVote vote).Voted slot ↔
    b.Voted slot ∨ (∃ blockId, vote = .notarize slot blockId) ∨ vote = .skip slot := by
  simp only [Voted, mem_castVote, exists_or, eq_comm]
  exact or_or_or_comm

/-- The votes that skip `slot`: skip and the fallback votes. -/
lemma skipped_castVote : (b.castVote vote).Skipped slot ↔
    b.Skipped slot ∨ vote = .skip slot ∨ vote = .skipFallback slot ∨
      ∃ blockId, vote = .notarizeFallback slot blockId := by
  simp only [Skipped, mem_castVote, exists_or, eq_comm]
  tauto

/-! ## Safe ballots stay safe -/

/-- Nothing was said, so nothing wrong. -/
theorem safe_empty : empty.Safe := by
  constructor <;> simp [empty]

/-- A notarize vote in a slot without votes is the first there. -/
lemma countP_notarize_of_not_voted (hv : ¬b.Voted slot) :
    b.cast.countP (Vote.NotarizesIn slot) = 0 := by
  rw [List.countP_eq_zero]
  intro vote hmem hnot
  cases vote with
  | notarize slot' blockId =>
    rw [Vote.NotarizesIn, beq_iff_eq] at hnot
    subst hnot
    exact hv (.inl ⟨blockId, hmem⟩)
  | _ => exact Bool.false_ne_true hnot

/-- The number of notarize votes grows only with a notarize vote in a slot without votes. -/
lemma Safe.castVote_notarize_le_one (h : b.Safe) (hv : b.MayCast vote) (slot : ℕ) :
    (b.castVote vote).cast.countP (Vote.NotarizesIn slot) ≤ 1 := by
  have hle := h.notarize_le_one slot
  rw [castVote, List.countP_append, List.countP_singleton]
  cases vote with
  | notarize slot' blockId =>
    by_cases hs : slot' = slot
    · subst hs
      rw [countP_notarize_of_not_voted hv]
      split <;> omega
    · simpa [Vote.NotarizesIn, hs] using hle
  | _ => simpa [Vote.NotarizesIn] using hle

/-- A vote that the protocol lets the node cast keeps the ballot safe. -/
theorem Safe.castVote (h : b.Safe) (hv : b.MayCast vote) : (b.castVote vote).Safe where
  notarize_le_one := h.castVote_notarize_le_one hv
  not_skip_of_notarize slot blockId hn hs := by
    rw [mem_castVote] at hn hs
    rcases hn with hn | rfl <;> rcases hs with hs | hs
    · exact h.not_skip_of_notarize slot blockId hn hs
    · subst hs
      exact hv (.inl ⟨blockId, hn⟩)
    · exact hv (.inr hs)
    · cases hs
  finalize slot hf := by
    rw [mem_castVote] at hf
    rcases hf with hf | rfl
    · -- an older finalize vote: the new vote is no skip or fallback vote of its slot
      obtain ⟨⟨blockId, hn, hb⟩, hskip⟩ := h.finalize slot hf
      refine ⟨⟨blockId, mem_castVote.mpr (.inl hn), hb⟩, ?_⟩
      rw [skipped_castVote]
      rintro (hs | rfl | rfl | ⟨blockId', rfl⟩)
      · exact hskip hs
      · exact hv (.inl ⟨blockId, hn⟩)
      · exact hv.2 hf
      · exact hv.2 hf
    · obtain ⟨⟨blockId, hn, hb⟩, hskip⟩ := hv
      refine ⟨⟨blockId, mem_castVote.mpr (.inl hn), hb⟩, ?_⟩
      simpa [skipped_castVote] using hskip

/-- Seeing one more block notarized keeps the ballot safe. -/
theorem Safe.seeNotarized (h : b.Safe) (block : Block) : (b.seeNotarized block).Safe where
  notarize_le_one := h.notarize_le_one
  not_skip_of_notarize := h.not_skip_of_notarize
  finalize slot hf := by
    obtain ⟨⟨blockId, hn, hb⟩, hskip⟩ := h.finalize slot hf
    exact ⟨⟨blockId, hn, mem_notarized_seeNotarized.mpr (.inr hb)⟩, hskip⟩

end Ballot

open Ballot

/-! ## Vote histories record ballots -/

/-- From its root on, the vote history is an index of the ballot. -/
structure Records (h : VoteHistory) (b : Ballot) : Prop where
  voted : ∀ slot, h.root ≤ slot → (slot ∈ h.votedSet ↔ b.Voted slot)
  votedNotar : ∀ slot blockId, h.root ≤ slot →
    (h.votedNotarMap slot = some blockId ↔ .notarize slot blockId ∈ b.cast)
  skipped : ∀ slot, h.root ≤ slot → (slot ∈ h.skippedSet ↔ b.Skipped slot)
  votedNotarFallback : ∀ slot blockId, h.root ≤ slot →
    ((slot, blockId) ∈ h.votedNotarFallbackSet ↔ .notarizeFallback slot blockId ∈ b.cast)
  votedSkipFallback : ∀ slot, h.root ≤ slot →
    (slot ∈ h.votedSkipFallbackSet ↔ .skipFallback slot ∈ b.cast)
  itsOver : ∀ slot, h.root ≤ slot → (slot ∈ h.itsOverSet ↔ .finalize slot ∈ b.cast)
  notarized : ∀ slot blockId, h.root ≤ slot →
    ((slot, blockId) ∈ h.notarizedBlocks ↔ (slot, blockId) ∈ b.notarized)

namespace Records

variable {h : VoteHistory} {b : Ballot} {slot : ℕ} {vote : Vote}

/-- A new vote history records the empty ballot. -/
theorem new (nodePubkey : Pubkey) (root : ℕ) : Records (.new nodePubkey root) .empty := by
  constructor <;> simp [VoteHistory.new, Ballot.empty, Ballot.Voted, Ballot.Skipped]

section
variable (hr : Records h b)
include hr

/-- A slot without a notarize vote has no block in `voted_notar`. -/
lemma votedNotar_eq_none (hroot : h.root ≤ slot) (hv : ¬b.Voted slot) :
    h.votedNotarMap slot = none := by
  rw [Option.eq_none_iff_forall_ne_some]
  intro blockId hsome
  exact hv (.inl ⟨blockId, (hr.votedNotar slot blockId hroot).mp hsome⟩)

/-- `bad_window` is true of the slots with a skip or fallback vote. -/
lemma badWindow_iff (hroot : h.root ≤ slot) : h.BadWindow slot ↔ b.Skipped slot := by
  unfold VoteHistory.BadWindow
  rw [hr.skipped slot hroot, hr.votedSkipFallback slot hroot]
  constructor
  · rintro (hs | hs | hs)
    · exact hs
    · obtain ⟨⟨slot', blockId⟩, hmem, rfl⟩ := List.mem_map.mp hs
      exact .inr (.inr ⟨blockId, (hr.votedNotarFallback _ blockId hroot).mp hmem⟩)
    · exact .inr (.inl hs)
  · exact .inl

/-- Where the protocol lets the node vote, no assertion of `add_vote` fails. -/
theorem allowed (hroot : h.root ≤ vote.slot) (hv : b.MayCast vote) : h.Allowed vote := by
  refine ⟨hroot, ?_⟩
  cases vote with
  | notarize slot blockId =>
    exact ⟨fun hmem => hv ((hr.voted slot hroot).mp hmem), hr.votedNotar_eq_none hroot hv⟩
  | finalize slot => exact fun hmem => hv.2 ((hr.skipped slot hroot).mp hmem)
  | notarizeFallback slot blockId =>
    exact ⟨(hr.voted slot hroot).mpr hv.1, fun hmem => hv.2 ((hr.itsOver slot hroot).mp hmem)⟩
  | skipFallback slot =>
    exact ⟨(hr.voted slot hroot).mpr hv.1, fun hmem => hv.2 ((hr.itsOver slot hroot).mp hmem)⟩
  | skip slot => trivial
  | genesis slot blockId => trivial

/-- The history with a vote recorded is the index of the ballot with the vote cast. -/
theorem record (hallowed : h.Allowed vote) : Records (h.record vote) (b.castVote vote) := by
  constructor
  · intro slot hroot
    rw [mem_votedSet_record, voted_castVote, hr.voted slot hroot]
  · intro slot blockId hroot
    rw [mem_castVote, ← hr.votedNotar slot blockId hroot]
    exact votedNotarMap_record hallowed
  · intro slot hroot
    rw [mem_skippedSet_record, skipped_castVote, hr.skipped slot hroot]
  · intro slot blockId hroot
    rw [mem_votedNotarFallbackSet_record, mem_castVote,
      hr.votedNotarFallback slot blockId hroot, eq_comm]
  · intro slot hroot
    rw [mem_votedSkipFallbackSet_record, mem_castVote, hr.votedSkipFallback slot hroot, eq_comm]
  · intro slot hroot
    rw [mem_itsOverSet_record, mem_castVote, hr.itsOver slot hroot, eq_comm]
  · exact hr.notarized

/-- A notarized block is recorded when it is seen, from the root on. -/
theorem addBlockNotarized (block : Block) :
    Records (h.addBlockNotarized block) (b.seeNotarized block) := by
  unfold VoteHistory.addBlockNotarized
  split
  · next hlt =>
    refine ⟨hr.1, hr.2, hr.3, hr.4, hr.5, hr.6, fun slot blockId hroot => ?_⟩
    have hne : (slot, blockId) ≠ block := by
      rintro rfl
      exact absurd hlt (Nat.not_lt.mpr hroot)
    simpa [hne] using hr.notarized slot blockId hroot
  · refine ⟨hr.1, hr.2, hr.3, hr.4, hr.5, hr.6, fun slot blockId hroot => ?_⟩
    simpa using or_congr_right (hr.notarized slot blockId hroot)

/-- Parent ready conditions are not part of the ballot. -/
theorem addParentReady (slot : ℕ) (parent : Block) :
    Records (h.addParentReady slot parent).2 b := by
  unfold VoteHistory.addParentReady
  split
  · exact hr
  · exact ⟨hr.1, hr.2, hr.3, hr.4, hr.5, hr.6, hr.7⟩

/-- A higher root forgets only what is below it. -/
theorem setRoot {root : ℕ} (hle : h.root ≤ root) : Records (h.setRoot root) b := by
  constructor
  · intro slot (hroot : root ≤ slot)
    simpa [VoteHistory.setRoot, hroot] using hr.voted slot (hle.trans hroot)
  · intro slot blockId (hroot : root ≤ slot)
    simpa [VoteHistory.setRoot, hroot] using hr.votedNotar slot blockId (hle.trans hroot)
  · intro slot (hroot : root ≤ slot)
    simpa [VoteHistory.setRoot, hroot] using hr.skipped slot (hle.trans hroot)
  · intro slot blockId (hroot : root ≤ slot)
    simpa [VoteHistory.setRoot, hroot] using hr.votedNotarFallback slot blockId (hle.trans hroot)
  · intro slot (hroot : root ≤ slot)
    simpa [VoteHistory.setRoot, hroot] using hr.votedSkipFallback slot (hle.trans hroot)
  · intro slot (hroot : root ≤ slot)
    simpa [VoteHistory.setRoot, hroot] using hr.itsOver slot (hle.trans hroot)
  · intro slot blockId (hroot : root ≤ slot)
    simpa [VoteHistory.setRoot, hroot] using hr.notarized slot blockId (hle.trans hroot)

end
end Records
end Trezoa.Votor
