import Trezoa.VoteProgram.ProcessVote

/-!
# The tower of an honest validator

A validator whose local tower agreed with its account votes on, and sends its new tower.

* `honestTower_accepted`: the new tower becomes the tower of the account.
-/

namespace Trezoa.VoteProgram

open Lib Consensus List LandedVote TowerVoteState

/-- A slot above the votes and the root of a tower. -/
def Above (tower : TowerVoteState) (slot : ℕ) : Prop :=
  (∀ vote ∈ tower.votes, vote.slot < slot) ∧
    ∀ root, tower.rootSlot = some root → root ≠ 0 → root < slot

/-- The slots of the votes and the root of a tower. -/
def InTower (tower : TowerVoteState) (slot : ℕ) : Prop :=
  slot ∈ tower.votes.map Lockout.slot ∨ tower.rootSlot = some slot

section Honest
variable {voteState : VoteState} {tower : TowerVoteState} {slots : List ℕ}
  {slotHashes : SlotHashes} {earliest : ℕ}

/-- The latest vote that is not after a vote is that vote. -/
lemma find?_votes (hvotes : voteState.votes.Pairwise fun v w => v.slot < w.slot)
    {vote : LandedVote} (hvote : vote ∈ voteState.votes) :
    ∃ found, voteState.votes.reverse.find? (·.slot ≤ vote.slot) = some found ∧
      found.slot = vote.slot := by
  cases hfind : voteState.votes.reverse.find? (·.slot ≤ vote.slot) with
  | none =>
    have := find?_eq_none.mp hfind vote (mem_reverse.mpr hvote)
    simp at this
  | some found =>
    refine ⟨found, rfl, ?_⟩
    obtain ⟨hle, before, after, happend, hbefore⟩ := find?_eq_some_iff_append.mp hfind
    have hreverse := pairwise_reverse.mpr hvotes
    rw [← mem_reverse, happend, mem_append, mem_cons] at hvote
    rw [happend, pairwise_append, pairwise_cons] at hreverse
    rcases hvote with hmem | rfl | hmem
    · have := hbefore vote hmem
      simp at this
    · rfl
    · have hlt := hreverse.2.1.1 vote hmem
      simp at hle
      omega

variable (hextends : TowerVoteState.Extends voteState.toTowerVoteState slots tower)
include hextends

/-- A root that is too old is overwritten with itself. -/
lemma overwriteRoot_of_extends (hwf : voteState.toTowerVoteState.WellFormed)
    (hhistory : History slotHashes earliest)
    (hnew : ∀ slot ∈ slots, slot ∈ slotHashes.map Prod.fst) :
    voteState.overwriteRoot earliest tower.rootSlot = tower.rootSlot := by
  cases hroot : tower.rootSlot with
  | none => rfl
  | some root =>
    rw [VoteState.overwriteRoot]
    split_ifs with hlt
    swap
    · rfl
    rcases hextends.root with hsame | ⟨root', heq, hmem | hmem⟩
    · have hself : voteState.rootSlot = some root := hsame.symm.trans hroot
      cases hfind : voteState.votes.reverse.find? (·.slot ≤ root) with
      | none => exact hself
      | some vote =>
        have hle := find?_some hfind
        have hmem : vote ∈ voteState.votes := mem_reverse.mp (mem_of_find?_eq_some hfind)
        simp at hle
        have habove := hwf.above_root root hself
        rcases eq_or_ne root 0 with rfl | hne
        · exact congrArg some (Nat.le_zero.mp hle)
        · have hlt' := habove hne vote.lockout (mem_map_of_mem hmem)
          exact absurd hle hlt'.not_ge
    · cases heq.symm.trans hroot
      obtain ⟨lockout, hlockout, rfl⟩ := mem_map.mp hmem
      obtain ⟨vote, hvote, rfl⟩ := mem_map.mp hlockout
      obtain ⟨found, hfind, hslot⟩ := find?_votes (pairwise_votes hwf) hvote
      have hfind' : voteState.votes.reverse.find? (·.slot ≤ vote.lockout.slot) = some found := hfind
      rw [hfind']
      exact congrArg some hslot
    · cases heq.symm.trans hroot
      exact absurd hlt (hhistory.earliest_le (hnew root hmem)).not_gt

/-- Slots of the new tower that are in reach of the slot hashes are among them. -/
lemma known_of_extends (hnew : ∀ slot ∈ slots, slot ∈ slotHashes.map Prod.fst)
    (hold : ∀ slot, InTower voteState.toTowerVoteState slot → earliest ≤ slot →
      slot ∈ slotHashes.map Prod.fst) {slot : ℕ} (hslot : InTower tower slot) :
    slot < earliest ∨ slot ∈ slotHashes.map Prod.fst := by
  have hfrom : InTower voteState.toTowerVoteState slot ∨ slot ∈ slots := by
    rcases hslot with hslot | hroot
    · obtain ⟨lockout, hlockout, rfl⟩ := mem_map.mp hslot
      exact (hextends.votes lockout hlockout).imp_left .inl
    rcases hextends.root with hsame | ⟨root, heq, hmem⟩
    · exact .inl (.inr (hsame.symm.trans hroot))
    · cases heq.symm.trans hroot
      exact hmem.imp_left .inl
  rcases hfrom with hslot | hslot
  · exact (lt_or_ge slot earliest).imp_right (hold slot hslot)
  · exact .inr (hnew slot hslot)

/-- No vote of the new tower is filtered: those that are too old are votes of the account. -/
lemma filter_of_extends (hhistory : History slotHashes earliest)
    (hnew : ∀ slot ∈ slots, slot ∈ slotHashes.map Prod.fst) :
    tower.votes.filter (fun lockout => !isOld voteState earliest lockout) = tower.votes := by
  refine filter_eq_self.mpr fun lockout hlockout => ?_
  rcases hextends.votes lockout hlockout with hmem | hmem
  · obtain ⟨_, hmem, heq⟩ := mem_map.mp hmem
    obtain ⟨vote, hvote, rfl⟩ := mem_map.mp hmem
    have hcontains : voteState.containsSlot lockout.slot := containsSlot_iff.mpr ⟨vote, hvote, heq⟩
    simp [isOld, hcontains]
  · simp [isOld, (hhistory.earliest_le (hnew _ hmem)).not_gt]

/-- The lockouts of the account are kept by the new tower. -/
lemma mergeVotes_of_extends (hwf : voteState.toTowerVoteState.WellFormed) {lastProposed : Lockout}
    (hlast : tower.votes.getLast? = some lastProposed)
    (hlater : ∀ vote ∈ voteState.votes, vote.slot < lastProposed.slot) :
    ∃ merged, mergeVotes (votesAbove voteState tower.rootSlot)
        (tower.votes.map ofLockout) = .ok merged ∧
      merged.map lockout = tower.votes := by
  have hslots : ((tower.votes.map ofLockout).map lockout).Pairwise fun v w => v.slot < w.slot := by
    rw [map_lockout_ofLockout]
    exact hextends.wellFormed.shape.slots
  have hcurrent : (votesAbove voteState tower.rootSlot).Pairwise fun v w => v.slot < w.slot :=
    (pairwise_votes hwf).sublist votesAbove_sublist
  obtain ⟨merged, hmerge⟩ := mergeVotes_returns hslots hcurrent fun vote hvote => by
    obtain ⟨hvote, habove⟩ := (mem_votesAbove (pairwise_votes hwf)).mp hvote
    rw [map_lockout_ofLockout]
    cases hextends.outcome vote.lockout (mem_map_of_mem hvote) with
    | rooted root hroot hle => exact absurd hle (habove root hroot).not_ge
    | kept w hw hslot hcount => exact .inl ⟨w, hw, hslot, hcount⟩
    | expired last _ _ _ hvotes => exact .inr hvotes
  obtain ⟨hlockouts, -⟩ := mergeVotes_ok hslots hcurrent (fun vote hvote => by
    rw [map_lockout_ofLockout]
    exact ⟨lastProposed, mem_of_getLast? hlast, hlater vote (votesAbove_sublist.mem hvote)⟩)
    hmerge
  exact ⟨merged, hmerge, hlockouts.trans map_lockout_ofLockout⟩

end Honest

/-- A validator whose tower agrees with its account votes for increasing slots. If the slot hashes
contain the new slots, and those of the old tower that are not older than the slot hashes, then its
new tower is accepted and becomes the tower of the account. -/
theorem honestTower_accepted (voteState : VoteState) (slots : List ℕ) (slotHashes : SlotHashes)
    (earliest last epoch slot : ℕ) (earliestHash hash : Hash)
    (hwf : voteState.toTowerVoteState.WellFormed)
    (hincreasing : slots.Pairwise (· < ·))
    (habove : ∀ slot ∈ slots, Above voteState.toTowerVoteState slot)
    (hlast : slots.getLast? = some last)
    (hdescending : slotHashes.Pairwise fun a b => b.1 < a.1)
    (hearliest : slotHashes.getLast? = some (earliest, earliestHash))
    (hnew : ∀ slot ∈ slots, slot ∈ slotHashes.map Prod.fst)
    (hold : ∀ slot, InTower voteState.toTowerVoteState slot → earliest ≤ slot →
      slot ∈ slotHashes.map Prod.fst)
    (hhash : (last, hash) ∈ slotHashes) :
    ∃ voteState',
      doProcessTowerSync voteState slotHashes epoch slot
        ⟨(slots.foldl processNextVoteSlot voteState.toTowerVoteState).votes,
          (slots.foldl processNextVoteSlot voteState.toTowerVoteState).rootSlot,
          hash, none⟩ = (.ok (), voteState') ∧
      voteState'.toTowerVoteState = slots.foldl processNextVoteSlot voteState.toTowerVoteState := by
  have hhistory : History slotHashes earliest := ⟨hdescending, earliestHash, hearliest⟩
  have hne : slots ≠ [] := by
    rintro rfl
    cases hlast
  obtain ⟨hextends, hlastVoted⟩ := extends_foldl hwf hincreasing habove
  generalize slots.foldl processNextVoteSlot voteState.toTowerVoteState = tower
    at hextends hlastVoted ⊢
  obtain ⟨lastProposed, hlastProposed, rfl⟩ :=
    Option.map_eq_some_iff.mp ((hlastVoted hne).trans hlast)
  have hlater : ∀ vote ∈ voteState.votes, vote.slot < lastProposed.slot := fun vote hvote =>
    (habove _ (mem_of_getLast? hlast)).1 vote.lockout (mem_map_of_mem hvote)
  have hroot := overwriteRoot_of_extends hextends hwf hhistory hnew
  -- the check passes the tower as it is
  have hcheck : checkAndFilterProposedVoteState voteState tower.votes tower.rootSlot hash
    slotHashes =
      .ok (tower.votes, tower.rootSlot) := by
    have hpasses : Passes voteState tower.votes (voteState.overwriteRoot earliest tower.rootSlot)
        hash slotHashes earliest lastProposed := by
      refine ⟨hlastProposed, fun slot hslot => ?_, hhash, hextends.wellFormed.shape.slots,
        fun lockout hlockout => ?_, fun slot hslot => ?_⟩
      · obtain ⟨lockout, hlockout, rfl⟩ := Option.map_eq_some_iff.mp hslot
        obtain ⟨vote, hvote, rfl⟩ := Option.map_eq_some_iff.mp hlockout
        exact hlater vote (mem_of_getLast? hvote)
      · exact known_of_extends hextends hnew hold (.inl (mem_map_of_mem hlockout))
      · exact known_of_extends hextends hnew hold (.inr (hroot ▸ hslot))
    have hreturns := checkAndFilterProposedVoteState_returns hhistory hpasses
      fun slot hslot hlt lockout hlockout => (hextends.wellFormed.above_root slot (hroot ▸ hslot)
        (Nat.ne_zero_of_lt hlt) lockout hlockout).le
    rwa [hroot, filter_of_extends hextends hhistory hnew] at hreturns
  -- the comparison finds no lockout that is rolled back
  obtain ⟨merged, hmerge, hlockouts⟩ := mergeVotes_of_extends hextends hwf hlastProposed hlater
  have hnewState : checkNewVoteState voteState (tower.votes.map ofLockout)
      tower.rootSlot = .ok ((earnedByRoot voteState tower.rootSlot).2, merged) := by
    refine checkNewVoteState_eq_ok.mpr ⟨?_, hextends.rootSlot_le, ?_, hmerge, rfl⟩
    · rw [ne_eq, map_eq_nil_iff]
      intro hnil
      rw [lastLockout, hnil] at hlastProposed
      cases hlastProposed
    · rw [map_lockout_ofLockout]
      exact hextends.wellFormed
  obtain ⟨voteState', hprocess, hvotes, hroot'⟩ := processNewVoteState_returns epoch slot hnewState
  refine ⟨voteState', ?_, ?_⟩
  · simp only [doProcessTowerSync, checkAndProcess, hcheck]
    exact hprocess
  · rw [VoteState.toTowerVoteState, hvotes, hroot', map_lockout_setLatency, hlockouts]

theorem honestTower_accepted_rootedAtTen :
    [12, 13].foldl processNextVoteSlot rootedAtTen.toTowerVoteState =
      ⟨[⟨11, 3⟩, ⟨12, 2⟩, ⟨13, 1⟩], some 10⟩ ∧
    ∃ voteState', doProcessTowerSync rootedAtTen [(13, 7), (12, 6)] 0 14
      ⟨([12, 13].foldl processNextVoteSlot rootedAtTen.toTowerVoteState).votes,
        ([12, 13].foldl processNextVoteSlot rootedAtTen.toTowerVoteState).rootSlot,
        7, none⟩ = (.ok (), voteState') ∧
      voteState'.toTowerVoteState =
        [12, 13].foldl processNextVoteSlot rootedAtTen.toTowerVoteState := by
  refine ⟨by decide +kernel, honestTower_accepted rootedAtTen [12, 13] [(13, 7), (12, 6)] 12 13 0 14
    6 7 ⟨⟨by decide, by decide, by decide, by decide, by decide, by decide⟩, by decide⟩ (by decide)
    (fun slot hslot => ⟨?_, fun root hroot _ => ?_⟩) rfl (by decide) rfl (by decide) ?_ (by decide)⟩
  · revert slot
    decide
  · cases hroot
    revert slot
    decide
  rintro slot (hslot | hroot) hle
  · simp [rootedAtTen, VoteState.toTowerVoteState] at hslot
    omega
  · cases hroot
    omega

end Trezoa.VoteProgram
