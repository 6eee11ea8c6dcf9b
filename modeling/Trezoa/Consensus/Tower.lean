import Trezoa.Consensus.TowerVoteState
import Trezoa.Lib.Fallible
import Trezoa.Lib.ParentTree

/-!
# Voting with the tower

`core/src/consensus.rs`: the tower of a validator decides whether a slot is locked out and records
the votes.

* `isLockedOut`, `recordBankVoteAndUpdateLockouts`: the check before a vote, and the vote.

The timestamps that go into a vote come from the clock and are left out.
-/

namespace Trezoa.Consensus

open VoteProgram Lib

/-! ## The forks -/

/-- A tree of slots: the parent of a slot is earlier. -/
structure SlotTree where
  parent : ℕ → Option ℕ
  parent_lt : ∀ {slot up}, parent slot = some up → up < slot

namespace SlotTree

variable {tree : SlotTree} {a b c : ℕ}

/-- The proper ancestors of a slot. -/
def ancestors (tree : SlotTree) (slot : ℕ) : Finset ℕ := (walk tree.parent slot slot).toFinset

lemma mem_ancestors : a ∈ tree.ancestors b ↔ IsAncestor tree.parent a b := by
  rw [ancestors, List.mem_toFinset]
  exact mem_walk tree.parent_lt le_rfl

lemma lt_of_mem_ancestors (h : a ∈ tree.ancestors b) : a < b :=
  (mem_ancestors.mp h).rank_lt tree.parent_lt

lemma mem_ancestors_trans (hab : a ∈ tree.ancestors b) (hbc : b ∈ tree.ancestors c) :
    a ∈ tree.ancestors c :=
  mem_ancestors.mpr ((mem_ancestors.mp hab).trans (mem_ancestors.mp hbc))

end SlotTree

/-! ## The tower -/

/-- The panics of the tower. -/
inductive Panic where
  | assertion
  | unwrap
  | voteTooOld
  deriving DecidableEq, Repr

/-- `VoteTransaction`, without timestamps. -/
inductive VoteTransaction where
  | vote (slots : List ℕ) (hash : ℕ)
  | voteStateUpdate (lockouts : List Lockout) (root : Option ℕ) (hash : ℕ)
  | compactVoteStateUpdate (lockouts : List Lockout) (root : Option ℕ) (hash : ℕ)
  | towerSync (lockouts : List Lockout) (root : Option ℕ) (hash : ℕ) (blockId : ℕ)
  deriving DecidableEq

/-- `Tower`, the fields that decide on votes. -/
structure Tower where
  voteState : TowerVoteState
  lastVote : VoteTransaction
  deriving DecidableEq

namespace Tower

/-- A tower without votes. -/
def empty (root : ℕ) : Tower := ⟨⟨[], some root⟩, .towerSync [] none 0 0⟩

def root (self : Tower) : Except Panic ℕ :=
  match self.voteState.rootSlot with
  | some root => .ok root
  | none => .error .unwrap

def isRecent (self : Tower) (slot : ℕ) : Bool :=
  match self.voteState.lastVotedSlot with
  | some lastVotedSlot => lastVotedSlot < slot
  | none =>
    match self.voteState.rootSlot with
    | some root => root < slot
    | none => true

def isLockedOut (self : Tower) (slot : ℕ) (ancestors : Finset ℕ) : Except Panic Bool :=
  if !self.isRecent slot then .ok true
  else
    let voteState := self.voteState.processNextVoteSlot slot
    if voteState.votes.any fun vote => slot ≠ vote.slot ∧ vote.slot ∉ ancestors then .ok true
    else
      match voteState.rootSlot with
      | none => .ok false
      | some rootSlot =>
        -- the assertion that the ancestors contain the root
        if slot ≠ rootSlot ∧ rootSlot ∉ ancestors then .error .assertion else .ok false

def updateLastVoteFromVoteState (self : Tower) (voteHash : ℕ) (enableTowerSyncIx : Bool)
    (blockId : ℕ) : Tower :=
  { self with
    lastVote :=
      if enableTowerSyncIx then
        .towerSync self.voteState.votes self.voteState.rootSlot voteHash blockId
      else .voteStateUpdate self.voteState.votes self.voteState.rootSlot voteHash }

/-- `record_bank_vote_and_update_lockouts`, with the new root if the root changes. -/
def recordBankVoteAndUpdateLockouts (self : Tower) (voteSlot voteHash : ℕ)
    (enableTowerSyncIx : Bool) (blockId : ℕ) : Except Panic (Option ℕ × Tower) :=
  if self.voteState.lastVotedSlot.any (voteSlot ≤ ·) then .error .voteTooOld
  else do
    let oldRoot ← self.root
    let voteState := self.voteState.processNextVoteSlot voteSlot
    let self := { self with voteState }.updateLastVoteFromVoteState voteHash
      enableTowerSyncIx blockId
    let newRoot ← self.root
    return (if oldRoot ≠ newRoot then some newRoot else none, self)

/-! ## What the check and the vote do -/

variable {self tower : Tower} {slot : ℕ} {ancestors : Finset ℕ}

/-- A recent slot is later than the last vote. -/
lemma lt_of_isRecent (h : self.isRecent slot = true) :
    ∀ last ∈ self.voteState.lastVotedSlot, last < slot := by
  intro last hlast
  unfold isRecent at h
  rw [Option.mem_def.mp hlast] at h
  exact of_decide_eq_true h

/-- What a slot meets that is not locked out. -/
lemma isLockedOut_eq_false (h : self.isLockedOut slot ancestors = .ok false) :
    self.isRecent slot = true ∧
      (∀ vote ∈ (self.voteState.processNextVoteSlot slot).votes,
        slot ≠ vote.slot → vote.slot ∈ ancestors) ∧
      ∀ root, (self.voteState.processNextVoteSlot slot).rootSlot = some root →
        slot ≠ root → root ∈ ancestors := by
  unfold isLockedOut at h
  split at h
  · cases h
  next hrecent =>
  simp only at h
  split at h
  · cases h
  next hvotes =>
  refine ⟨by simpa using hrecent, ?_, fun root hroot hne => ?_⟩
  · simpa using hvotes
  rw [hroot] at h
  simp only at h
  split at h
  · cases h
  · next hroot => exact by_contra fun hmem => hroot ⟨hne, hmem⟩

/-- The check panics only on the assertion, and only if the votes that stay are all ancestors. -/
lemma isLockedOut_eq_error {panic : Panic} (h : self.isLockedOut slot ancestors = .error panic) :
    self.isRecent slot = true ∧
      (∀ vote ∈ (self.voteState.processNextVoteSlot slot).votes,
        slot ≠ vote.slot → vote.slot ∈ ancestors) ∧
      ∃ root, (self.voteState.processNextVoteSlot slot).rootSlot = some root ∧
        root ∉ ancestors := by
  unfold isLockedOut at h
  split at h
  · cases h
  next hrecent =>
  simp only at h
  split at h
  · cases h
  next hvotes =>
  refine ⟨by simpa using hrecent, by simpa using hvotes, ?_⟩
  split at h
  · cases h
  next root hroot =>
  split at h
  · next hmem => exact ⟨root, hroot, hmem.2⟩
  · cases h

/-- A recorded vote goes through the vote state. -/
lemma recordBankVoteAndUpdateLockouts_returns {voteHash blockId : ℕ} {enableTowerSyncIx : Bool}
    {newRoot : Option ℕ} (h : self.recordBankVoteAndUpdateLockouts slot voteHash
      enableTowerSyncIx blockId = .ok (newRoot, tower)) :
    tower.voteState = self.voteState.processNextVoteSlot slot := by
  unfold recordBankVoteAndUpdateLockouts at h
  split at h
  · cases h
  obtain ⟨oldRoot, -, h⟩ := bind_eq_ok.mp h
  obtain ⟨root, -, h⟩ := bind_eq_ok.mp h
  cases h
  rfl

end Tower
end Trezoa.Consensus
