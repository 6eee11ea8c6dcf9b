import Trezoa.Votor.Messages

/-!
# The vote history

`votor/src/vote_history.rs`: what a node remembers of its own votes, and of the certificates it has
seen, for the slots from its root on.

* `VoteHistory`: the hash sets of the source are lists without repetitions, a map into sets is the
  list of its pairs, and `voted_notar` is a function into `Option`.
* `voted`, `itsOver`, …: the getters. They assert that the slot is not below the root, so they
  return in `Except`.
* `Allowed`, `record`: when the assertions of `addVote` hold, and what it then does
  (`addVote_of_allowed`).
-/

namespace Trezoa.Votor

/-- What a validator voted for, and what it knows of blocks. -/
structure VoteHistory where
  /-- `node_pubkey`: the identity that cast the votes. -/
  nodePubkey : Pubkey
  /-- `voted`: the slots with a notarize or skip vote. -/
  votedSet : List ℕ
  /-- `voted_notar`: the blocks of the notarize votes, by slot. -/
  votedNotarMap : ℕ → Option Hash
  /-- `voted_notar_fallback`: the blocks of the notarize fallback votes. -/
  votedNotarFallbackSet : List Block
  /-- `voted_skip_fallback`: the slots with a skip fallback vote. -/
  votedSkipFallbackSet : List ℕ
  /-- `skipped`: the slots with a skip, skip fallback or notarize fallback vote. -/
  skippedSet : List ℕ
  /-- `its_over`: the slots with a finalize vote. -/
  itsOverSet : List ℕ
  /-- `votes_cast`: all votes, for use in refresh. -/
  votesCast : List Vote
  /-- `notarized_blocks`: the blocks with a notarization certificate. -/
  notarizedBlocks : List Block
  /-- `parent_ready_slots`: the slots with a parent ready condition, each with its parents. -/
  parentReadySlots : List (ℕ × Block)
  /-- `root`: the latest root set by the voting loop. -/
  root : ℕ

namespace VoteHistory

/-- A history without votes. -/
def new (nodePubkey : Pubkey) (root : ℕ) : VoteHistory where
  nodePubkey := nodePubkey
  votedSet := []
  votedNotarMap := fun _ => none
  votedNotarFallbackSet := []
  votedSkipFallbackSet := []
  skippedSet := []
  itsOverSet := []
  votesCast := []
  notarizedBlocks := []
  parentReadySlots := []
  root := root

/-! ## The getters -/

/-- Whether a first vote for the slot was cast. -/
def voted (self : VoteHistory) (slot : ℕ) : Except Panic Bool := do
  assert (self.root ≤ slot)
  return decide (slot ∈ self.votedSet)

/-- The block of the slot that was voted for. -/
def votedNotar (self : VoteHistory) (slot : ℕ) : Except Panic (Option Hash) := do
  assert (self.root ≤ slot)
  return self.votedNotarMap slot

/-- Whether a fallback vote for the block was cast. -/
def votedNotarFallback (self : VoteHistory) (slot : ℕ) (blockId : Hash) : Except Panic Bool := do
  assert (self.root ≤ slot)
  return decide ((slot, blockId) ∈ self.votedNotarFallbackSet)

/-- Whether a fallback vote for a skip was cast. -/
def votedSkipFallback (self : VoteHistory) (slot : ℕ) : Except Panic Bool := do
  assert (self.root ≤ slot)
  return decide (slot ∈ self.votedSkipFallbackSet)

/-- Whether the slot is given up. -/
def skipped (self : VoteHistory) (slot : ℕ) : Except Panic Bool := do
  assert (self.root ≤ slot)
  return decide (slot ∈ self.skippedSet)

/-- Whether a finalize vote was cast. -/
def itsOver (self : VoteHistory) (slot : ℕ) : Except Panic Bool := do
  assert (self.root ≤ slot)
  return decide (slot ∈ self.itsOverSet)

/-- The condition that `bad_window` reads: a skip, notarize fallback or skip fallback vote. -/
def BadWindow (self : VoteHistory) (slot : ℕ) : Prop :=
  slot ∈ self.skippedSet ∨ slot ∈ self.votedNotarFallbackSet.map Prod.fst ∨
    slot ∈ self.votedSkipFallbackSet

instance (self : VoteHistory) (slot : ℕ) : Decidable (self.BadWindow slot) :=
  inferInstanceAs (Decidable (_ ∨ _ ∨ _))

/-- The test for a vote that rules out a finalize vote. -/
def badWindow (self : VoteHistory) (slot : ℕ) : Except Panic Bool := do
  assert (self.root ≤ slot)
  return decide (self.BadWindow slot)

section getters
variable {self : VoteHistory} {slot : ℕ} (h : self.root ≤ slot)
include h

/-- The readers do not panic from the root on. -/
@[simp] lemma voted_of_le : self.voted slot = .ok (decide (slot ∈ self.votedSet)) := by
  rw [voted, assert_of_true h]
  rfl

@[simp] lemma votedNotar_of_le : self.votedNotar slot = .ok (self.votedNotarMap slot) := by
  rw [votedNotar, assert_of_true h]
  rfl

@[simp] lemma votedNotarFallback_of_le (blockId : Hash) :
    self.votedNotarFallback slot blockId =
      .ok (decide ((slot, blockId) ∈ self.votedNotarFallbackSet)) := by
  rw [votedNotarFallback, assert_of_true h]
  rfl

@[simp] lemma votedSkipFallback_of_le :
    self.votedSkipFallback slot = .ok (decide (slot ∈ self.votedSkipFallbackSet)) := by
  rw [votedSkipFallback, assert_of_true h]
  rfl

@[simp] lemma skipped_of_le : self.skipped slot = .ok (decide (slot ∈ self.skippedSet)) := by
  rw [skipped, assert_of_true h]
  rfl

@[simp] lemma itsOver_of_le : self.itsOver slot = .ok (decide (slot ∈ self.itsOverSet)) := by
  rw [itsOver, assert_of_true h]
  rfl

@[simp] lemma badWindow_of_le : self.badWindow slot = .ok (decide (self.BadWindow slot)) := by
  rw [badWindow, assert_of_true h]
  rfl

end getters

/-- `votes_cast_since`. The source returns them in the order of a hash map. -/
def votesCastSince (self : VoteHistory) (slot : ℕ) : List Vote :=
  self.votesCast.filter fun vote => slot < vote.slot

/-- Whether a certificate for the block was seen. -/
def isBlockNotarized (self : VoteHistory) (block : Block) : Bool :=
  decide (block ∈ self.notarizedBlocks)

/-- Whether the block may be the parent of that slot. -/
def isParentReady (self : VoteHistory) (slot : ℕ) (parent : Block) : Bool :=
  decide ((slot, parent) ∈ self.parentReadySlots)

/-- The latest slot with a parent that is ready. -/
def highestParentReadySlot (self : VoteHistory) : Option ℕ :=
  (self.parentReadySlots.map Prod.fst).max?

/-! ## The updates -/

/-- Records a vote; some votes panic after others. -/
def addVote (self : VoteHistory) (vote : Vote) : Except Panic VoteHistory := do
  assert (self.root ≤ vote.slot)
  let self ←
    match vote with
    | .notarize slot blockId => do
      assert (slot ∉ self.votedSet)
      assert (self.votedNotarMap slot = none)
      pure { self with
        votedSet := self.votedSet.insert slot
        votedNotarMap := Function.update self.votedNotarMap slot (some blockId) }
    | .finalize slot => do
      let skipped ← self.skipped slot
      assert (skipped = false)
      pure { self with itsOverSet := self.itsOverSet.insert slot }
    | .skip slot =>
      pure { self with
        votedSet := self.votedSet.insert slot
        skippedSet := self.skippedSet.insert slot }
    | .notarizeFallback slot blockId => do
      let voted ← self.voted slot
      assert (voted = true)
      let itsOver ← self.itsOver slot
      assert (itsOver = false)
      pure { self with
        skippedSet := self.skippedSet.insert slot
        votedNotarFallbackSet := self.votedNotarFallbackSet.insert (slot, blockId) }
    | .skipFallback slot => do
      let voted ← self.voted slot
      assert (voted = true)
      let itsOver ← self.itsOver slot
      assert (itsOver = false)
      pure { self with
        skippedSet := self.skippedSet.insert slot
        votedSkipFallbackSet := self.votedSkipFallbackSet.insert slot }
    | .genesis _ _ => pure self
  return { self with votesCast := self.votesCast ++ [vote] }

/-- Records that a block is notarized. -/
def addBlockNotarized (self : VoteHistory) (block : Block) : VoteHistory :=
  if block.1 < self.root then self
  else { self with notarizedBlocks := self.notarizedBlocks.insert block }

/-- `add_parent_ready`. The returned flag says that the parent is the first of its slot. -/
def addParentReady (self : VoteHistory) (slot : ℕ) (parent : Block) : Bool × VoteHistory :=
  if slot < self.root then (false, self)
  else
    (decide (slot ∉ self.parentReadySlots.map Prod.fst),
      { self with parentReadySlots := self.parentReadySlots.insert (slot, parent) })

/-- Forgets what is older than the root. -/
def setRoot (self : VoteHistory) (root : ℕ) : VoteHistory where
  nodePubkey := self.nodePubkey
  root := root
  votedSet := self.votedSet.filter (root ≤ ·)
  votedNotarMap := fun slot => if root ≤ slot then self.votedNotarMap slot else none
  votedNotarFallbackSet := self.votedNotarFallbackSet.filter (root ≤ ·.1)
  votedSkipFallbackSet := self.votedSkipFallbackSet.filter (root ≤ ·)
  skippedSet := self.skippedSet.filter (root ≤ ·)
  itsOverSet := self.itsOverSet.filter (root ≤ ·)
  votesCast := self.votesCast.filter (root ≤ ·.slot)
  notarizedBlocks := self.notarizedBlocks.filter (root ≤ ·.1)
  parentReadySlots := self.parentReadySlots.filter (root ≤ ·.1)

/-! ## What `add_vote` asserts and what it does -/

/-- The assertions of `addVote`. -/
def Allowed (self : VoteHistory) (vote : Vote) : Prop :=
  self.root ≤ vote.slot ∧
    match vote with
    | .notarize slot _ => slot ∉ self.votedSet ∧ self.votedNotarMap slot = none
    | .finalize slot => slot ∉ self.skippedSet
    | .notarizeFallback slot _ | .skipFallback slot => slot ∈ self.votedSet ∧ slot ∉ self.itsOverSet
    | .skip _ | .genesis _ _ => True

/-- The history after `addVote`, when no assertion fails. -/
def record (self : VoteHistory) (vote : Vote) : VoteHistory :=
  { self with
    votedSet :=
      match vote with
      | .notarize slot _ | .skip slot => self.votedSet.insert slot
      | _ => self.votedSet
    votedNotarMap :=
      match vote with
      | .notarize slot blockId => Function.update self.votedNotarMap slot (some blockId)
      | _ => self.votedNotarMap
    votedNotarFallbackSet :=
      match vote with
      | .notarizeFallback slot blockId => self.votedNotarFallbackSet.insert (slot, blockId)
      | _ => self.votedNotarFallbackSet
    votedSkipFallbackSet :=
      match vote with
      | .skipFallback slot => self.votedSkipFallbackSet.insert slot
      | _ => self.votedSkipFallbackSet
    skippedSet :=
      match vote with
      | .skip slot | .notarizeFallback slot _ | .skipFallback slot => self.skippedSet.insert slot
      | _ => self.skippedSet
    itsOverSet :=
      match vote with
      | .finalize slot => self.itsOverSet.insert slot
      | _ => self.itsOverSet
    votesCast := self.votesCast ++ [vote] }

/-- `add_vote` fails no assertion on an allowed vote, and records it. -/
theorem addVote_of_allowed {self : VoteHistory} {vote : Vote} (h : self.Allowed vote) :
    self.addVote vote = .ok (self.record vote) := by
  obtain ⟨hroot, h⟩ := h
  unfold addVote
  rw [assert_of_true hroot]
  -- what is left are the assertions of the kind of vote
  cases vote <;> simp only [Vote.slot] at hroot <;>
    simp_all [record, pure, bind, Except.pure, Except.bind]

section record
variable {self : VoteHistory} {vote : Vote} {slot : ℕ} {blockId : Hash}

/-- First votes are notarize and skip votes. -/
lemma mem_votedSet_record : slot ∈ (self.record vote).votedSet ↔
    slot ∈ self.votedSet ∨ (∃ blockId, vote = .notarize slot blockId) ∨ vote = .skip slot := by
  cases vote <;> simp [record, or_comm, eq_comm]

/-- A notarize vote is the first of its slot, so no block of another vote is overwritten. -/
lemma votedNotarMap_record (hallowed : self.Allowed vote) :
    (self.record vote).votedNotarMap slot = some blockId ↔
      self.votedNotarMap slot = some blockId ∨ .notarize slot blockId = vote := by
  cases vote with
  | notarize slot' blockId' =>
    by_cases hs : slot = slot'
    · subst hs
      simp [record, hallowed.2.2, eq_comm]
    · simp [record, hs]
  | _ => simp [record]

/-- Skip votes and both fallback votes give up a slot. -/
lemma mem_skippedSet_record : slot ∈ (self.record vote).skippedSet ↔
    slot ∈ self.skippedSet ∨ vote = .skip slot ∨ vote = .skipFallback slot ∨
      ∃ blockId, vote = .notarizeFallback slot blockId := by
  cases vote <;> simp [record, or_comm, eq_comm]

/-- The fallback votes for blocks. -/
lemma mem_votedNotarFallbackSet_record {block : Block} :
    block ∈ (self.record vote).votedNotarFallbackSet ↔
      block ∈ self.votedNotarFallbackSet ∨ vote = .notarizeFallback block.1 block.2 := by
  cases vote <;> simp [record, or_comm, eq_comm, Prod.ext_iff]

/-- The fallback votes for skips. -/
lemma mem_votedSkipFallbackSet_record : slot ∈ (self.record vote).votedSkipFallbackSet ↔
    slot ∈ self.votedSkipFallbackSet ∨ vote = .skipFallback slot := by
  cases vote <;> simp [record, or_comm, eq_comm]

/-- Only a finalize vote ends a slot. -/
lemma mem_itsOverSet_record : slot ∈ (self.record vote).itsOverSet ↔
    slot ∈ self.itsOverSet ∨ vote = .finalize slot := by
  cases vote <;> simp [record, or_comm, eq_comm]

end record
end VoteHistory
end Trezoa.Votor
