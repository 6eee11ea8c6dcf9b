import Trezoa.VoteProgram.Lockout

/-!
# The local tower

`core/src/consensus/tower_vote_state.rs`: the votes and the root that a validator keeps for itself.
-/

namespace Trezoa.Consensus

open VoteProgram List

structure TowerVoteState where
  votes : List Lockout
  rootSlot : Option ℕ
  deriving DecidableEq

namespace TowerVoteState

def lastLockout (self : TowerVoteState) : Option Lockout := self.votes.getLast?

def lastVotedSlot (self : TowerVoteState) : Option ℕ := self.lastLockout.map (·.slot)

def popExpiredVotes (self : TowerVoteState) (nextVoteSlot : ℕ) : TowerVoteState :=
  { self with votes := VoteProgram.popExpiredVotes id self.votes nextVoteSlot }

def doubleLockouts (self : TowerVoteState) : TowerVoteState :=
  { self with votes := VoteProgram.doubleLockouts id (fun _ l => l) self.votes }

/-- The step of `process_next_vote_slot` for a full stack. -/
def rootOldest (self : TowerVoteState) : TowerVoteState :=
  if self.votes.length = maxLockoutHistory then
    match self.votes with
    | [] => self
    | rootedVote :: votes => ⟨votes, some rootedVote.slot⟩
  else self

def processNextVoteSlot (self : TowerVoteState) (nextVoteSlot : ℕ) : TowerVoteState :=
  if self.lastVotedSlot.any (nextVoteSlot ≤ ·) then self
  else
    let self := (self.popExpiredVotes nextVoteSlot).rootOldest
    { self with votes := self.votes ++ [Lockout.new nextVoteSlot] }.doubleLockouts

variable {self tower tower' : TowerVoteState} {slot : ℕ} {slots : List ℕ}

/-! ## The effect of a vote -/

/-- What a vote that is not ignored does. -/
structure Voted (before : TowerVoteState) (slot : ℕ) (tower : TowerVoteState)
    (rooted kept expired : List Lockout) : Prop where
  votes : before.votes = rooted ++ kept ++ expired
  expired : ∀ vote ∈ expired, vote.lastLockedOutSlot < slot
  locked : ∀ vote ∈ kept.getLast?, slot ≤ vote.lastLockedOutSlot
  length_lt : kept.length < maxLockoutHistory
  full : rooted ≠ [] → kept.length + 1 = maxLockoutHistory
  rooted : (rooted = [] ∧ tower.rootSlot = before.rootSlot) ∨
    ∃ vote, rooted = [vote] ∧ tower.rootSlot = some vote.slot
  pushed : tower.votes = VoteProgram.doubleLockouts id (fun _ l => l) (kept ++ [Lockout.new slot])

lemma rootOldest_cases (self : TowerVoteState) :
    (self.votes.length ≠ maxLockoutHistory ∧ self.rootOldest = self) ∨
      ∃ vote votes, self.votes = vote :: votes ∧ self.votes.length = maxLockoutHistory ∧
        self.rootOldest = ⟨votes, some vote.slot⟩ := by
  unfold rootOldest
  split
  · next hfull =>
    cases hvotes : self.votes with
    | nil =>
      rw [hvotes] at hfull
      cases hfull
    | cons vote votes => exact .inr ⟨vote, votes, rfl, hvotes ▸ hfull, rfl⟩
  · next hfull => exact .inl ⟨hfull, rfl⟩

/-- A vote that is not ignored. -/
lemma voted (hlength : self.votes.length ≤ maxLockoutHistory)
    (hlast : ∀ last ∈ self.lastVotedSlot, last < slot) :
    ∃ rooted kept expired, Voted self slot (self.processNextVoteSlot slot) rooted kept expired := by
  have hany : self.lastVotedSlot.any (slot ≤ ·) = false := by
    rw [Option.any_eq_false]
    exact fun last hmem => decide_eq_false (hlast last hmem).not_ge
  have heq : self.processNextVoteSlot slot =
      { (self.popExpiredVotes slot).rootOldest with
        votes := (self.popExpiredVotes slot).rootOldest.votes ++ [Lockout.new slot]
        }.doubleLockouts := by
    rw [processNextVoteSlot, hany]
    rfl
  obtain ⟨expired, happend, hexpired⟩ := exists_append_popExpiredVotes self.votes slot
  have hlocked : ∀ vote ∈ (self.popExpiredVotes slot).votes.getLast?,
      slot ≤ vote.lastLockedOutSlot := fun vote => le_lastLockedOutSlot_of_getLast?
  have hle : (self.popExpiredVotes slot).votes.length ≤ self.votes.length := by
    conv_rhs => rw [happend, length_append]
    exact Nat.le_add_right _ _
  rcases rootOldest_cases (self.popExpiredVotes slot) with
    ⟨hfull, hroot⟩ | ⟨vote, kept, hvotes, hfull, hroot⟩
  · rw [heq, hroot]
    exact ⟨[], _, expired, happend, hexpired, hlocked, lt_of_le_of_ne (hle.trans hlength) hfull,
      fun h => absurd rfl h, .inl ⟨rfl, rfl⟩, rfl⟩
  rw [heq, hroot]
  rw [hvotes] at hfull hlocked
  refine ⟨[vote], kept, expired, ?_, hexpired, fun w hw => hlocked w ?_, ?_, fun _ => hfull,
    .inr ⟨vote, rfl, rfl⟩, rfl⟩
  · rw [singleton_append, ← hvotes]
    exact happend
  · rw [getLast?_cons, Option.mem_def.mp hw]
    rfl
  · rw [← hfull]
    exact Nat.lt_succ_self _

/-- A vote for a slot that is not later is ignored. -/
lemma processNextVoteSlot_of_le {last : ℕ} (hlast : self.lastVotedSlot = some last)
    (hle : slot ≤ last) : self.processNextVoteSlot slot = self := by
  simp [processNextVoteSlot, hlast, hle]

/-! ## Well-formed towers -/

/-- The votes have the shape of a tower and are above the root, unless the root is zero. -/
structure WellFormed (tower : TowerVoteState) : Prop where
  shape : Shape tower.votes
  above_root : ∀ root, tower.rootSlot = some root → root ≠ 0 → ∀ vote ∈ tower.votes,
    root < vote.slot

lemma option_le_trans {a b c : Option ℕ} (hab : a ≤ b) (hbc : b ≤ c) : a ≤ c := by
  cases a with
  | none => exact Option.none_le
  | some a =>
    cases b with
    | none => exact absurd hab Option.not_some_le_none
    | some b =>
      cases c with
      | none => exact absurd hbc Option.not_some_le_none
      | some c =>
        rw [Option.some_le_some] at hab hbc ⊢
        exact hab.trans hbc

lemma option_le_refl (a : Option ℕ) : a ≤ a := by
  cases a with
  | none => exact Option.none_le
  | some a => exact Option.some_le_some.mpr le_rfl

/-- The last vote is for the latest slot. -/
lemma le_lastVotedSlot (h : Shape self.votes) {vote : Lockout} (hvote : vote ∈ self.votes) :
    ∃ last, self.lastVotedSlot = some last ∧ vote.slot ≤ last := by
  have hne := ne_nil_of_mem hvote
  refine ⟨(self.votes.getLast hne).slot, ?_, ?_⟩
  · rw [lastVotedSlot, lastLockout, getLast?_eq_some_getLast hne]
    rfl
  have happend := dropLast_append_getLast hne
  rw [← happend] at hvote
  rcases mem_append.mp hvote with hvote | hvote
  · have hpairwise := h.slots
    rw [← happend, pairwise_append] at hpairwise
    exact (hpairwise.2.2 vote hvote _ (mem_singleton_self _)).le
  · rw [mem_singleton.mp hvote]

namespace Voted

variable {rooted kept expired : List Lockout} (h : Voted self slot tower rooted kept expired)
include h

lemma lastVotedSlot : tower.lastVotedSlot = some slot := by
  have hmap : tower.lastVotedSlot = (tower.votes.map Lockout.slot).getLast? := by
    rw [getLast?_map]
    rfl
  rw [hmap, h.pushed, map_slot_doubleLockouts]
  simp

/-- The votes after the vote. -/
lemma mem_votes {w : Lockout} (hw : w ∈ tower.votes) :
    w.slot = slot ∨ ∃ v ∈ kept, v.slot = w.slot ∧ v.confirmationCount ≤ w.confirmationCount := by
  rw [h.pushed] at hw
  obtain ⟨v, hv, hslot, hcount⟩ := exists_of_mem_doubleLockouts hw
  rcases mem_append.mp hv with hv | hv
  · exact .inr ⟨v, hv, hslot, hcount⟩
  · rw [mem_singleton.mp hv] at hslot
    exact .inl hslot.symm

lemma exists_mem_votes {v : Lockout} (hv : v ∈ kept) :
    ∃ w ∈ tower.votes, w.slot = v.slot ∧ v.confirmationCount ≤ w.confirmationCount := by
  obtain ⟨w, hw, hslot, hcount⟩ := exists_mem_doubleLockouts (mem_append_left _ hv)
  exact ⟨w, h.pushed ▸ hw, hslot.symm, hcount⟩

lemma mem_of_mem_kept {v : Lockout} (hv : v ∈ kept) : v ∈ self.votes := by
  rw [h.votes]
  exact mem_append_left _ (mem_append_right _ hv)

/-- A rooted vote is below the votes that stay. -/
lemma rooted_lt (hshape : Shape self.votes) {vote v : Lockout} (hvote : vote ∈ rooted)
    (hv : v ∈ kept) : vote.slot < v.slot := by
  have hslots := hshape.slots
  rw [h.votes, append_assoc, pairwise_append] at hslots
  exact hslots.2.2 vote hvote v (mem_append_left _ hv)

/-- The votes that stay are below expired ones. -/
lemma lt_expired (hshape : Shape self.votes) {v vote : Lockout} (hv : v ∈ kept)
    (hvote : vote ∈ expired) : v.slot < vote.slot := by
  have hslots := hshape.slots
  rw [h.votes, pairwise_append] at hslots
  exact hslots.2.2 v (mem_append_right _ hv) vote hvote

/-- The root does not decrease. -/
lemma rootSlot_le (hself : self.WellFormed) : self.rootSlot ≤ tower.rootSlot := by
  rcases h.rooted with ⟨-, hroot⟩ | ⟨vote, hrooted, hroot⟩
  · rw [hroot]
    exact option_le_refl _
  rw [hroot]
  cases hself' : self.rootSlot with
  | none => exact Option.none_le
  | some root =>
    rw [Option.some_le_some]
    rcases eq_or_ne root 0 with rfl | hne
    · exact Nat.zero_le _
    · refine (hself.above_root root hself' hne vote ?_).le
      rw [h.votes, hrooted]
      simp

variable (hself : self.WellFormed) (hlast : ∀ last ∈ self.lastVotedSlot, last < slot)
include hself hlast

omit h in
lemma vote_lt {v : Lockout} (hv : v ∈ self.votes) : v.slot < slot := by
  obtain ⟨last, hlast', hle⟩ := le_lastVotedSlot hself.shape hv
  exact hle.trans_lt (hlast last hlast')

/-- A vote keeps a tower well formed. -/
theorem wellFormed
    (hroot : ∀ root, self.rootSlot = some root → root ≠ 0 → root < slot) : tower.WellFormed := by
  have hkept : Shape kept := (h.votes ▸ hself.shape).of_append
  refine ⟨?_, fun root hroot' hne w hw => ?_⟩
  · rw [h.pushed]
    exact hkept.push h.length_lt (fun v hv => vote_lt hself hlast (h.mem_of_mem_kept hv)) h.locked
  have hslot : slot = w.slot ∨ ∃ v ∈ kept, v.slot = w.slot := by
    rcases h.mem_votes hw with hslot | ⟨v, hv, hslot, -⟩
    · exact .inl hslot.symm
    · exact .inr ⟨v, hv, hslot⟩
  rcases h.rooted with ⟨-, heq⟩ | ⟨vote, hrooted, heq⟩
  · rw [heq] at hroot'
    rcases hslot with hslot | ⟨v, hv, hslot⟩
    · exact hslot ▸ hroot root hroot' hne
    · exact hslot ▸ hself.above_root root hroot' hne v (h.mem_of_mem_kept hv)
  obtain rfl : vote.slot = root := Option.some.inj (heq.symm.trans hroot')
  have hvote : vote ∈ rooted := hrooted ▸ mem_singleton_self _
  rcases hslot with hslot | ⟨v, hv, hslot⟩
  · refine hslot ▸ vote_lt hself hlast ?_
    rw [h.votes, hrooted]
    simp
  · exact hslot ▸ h.rooted_lt hself.shape hvote hv

end Voted

/-- A vote keeps a tower well formed, if it is for a slot above the root. -/
theorem WellFormed.processNextVoteSlot (hself : self.WellFormed)
    (hroot : ∀ root, self.rootSlot = some root → root ≠ 0 → self.votes = [] → root < slot) :
    (self.processNextVoteSlot slot).WellFormed := by
  by_cases hlast : ∀ last ∈ self.lastVotedSlot, last < slot
  · obtain ⟨rooted, kept, expired, hvoted⟩ := voted hself.shape.length_le hlast
    refine hvoted.wellFormed hself hlast fun root hroot' hne => ?_
    rcases eq_nil_or_concat self.votes with hnil | ⟨votes, vote, hvotes⟩
    · exact hroot root hroot' hne hnil
    · have hmem : vote ∈ self.votes := by simp [hvotes]
      exact (hself.above_root root hroot' hne vote hmem).trans (Voted.vote_lt hself hlast hmem)
  · push Not at hlast
    obtain ⟨last, hlast, hle⟩ := hlast
    rw [processNextVoteSlot_of_le hlast hle]
    exact hself

/-! ## Later towers -/

/-- What became of a vote in a later tower: it was rooted, it is there with at least its
confirmations, or it expired and all later votes are past its lockout. -/
inductive Outcome (vote : Lockout) (tower : TowerVoteState) : Prop where
  | rooted (root : ℕ) : tower.rootSlot = some root → vote.slot ≤ root → Outcome vote tower
  | kept (w : Lockout) : w ∈ tower.votes → w.slot = vote.slot →
      vote.confirmationCount ≤ w.confirmationCount → Outcome vote tower
  | expired (last : ℕ) : tower.lastVotedSlot = some last →
      vote.slot < last → vote.lastLockedOutSlot < last →
      (∀ w ∈ tower.votes, w.slot < vote.slot ∨ vote.slot < w.slot ∧
      vote.lastLockedOutSlot < w.slot) →
      Outcome vote tower

/-- A tower after votes for `slots`. -/
structure Extends (before : TowerVoteState) (slots : List ℕ) (tower : TowerVoteState) : Prop where
  wellFormed : tower.WellFormed
  rootSlot_le : before.rootSlot ≤ tower.rootSlot
  votes : ∀ w ∈ tower.votes, w.slot ∈ before.votes.map Lockout.slot ∨ w.slot ∈ slots
  root : tower.rootSlot = before.rootSlot ∨ ∃ root, tower.rootSlot = some root ∧
    (root ∈ before.votes.map Lockout.slot ∨ root ∈ slots)
  outcome : ∀ vote ∈ before.votes, Outcome vote tower

lemma WellFormed.extends_nil (hself : self.WellFormed) : Extends self [] self where
  wellFormed := hself
  rootSlot_le := option_le_refl _
  votes _ hw := .inl (mem_map_of_mem hw)
  root := .inl rfl
  outcome vote hvote := .kept vote hvote rfl le_rfl

/-- A vote keeps the outcome of an earlier one. -/
lemma Outcome.voted {vote : Lockout} {rooted kept expired : List Lockout}
    (houtcome : Outcome vote tower) (htower : tower.WellFormed)
    (hlast : ∀ last ∈ tower.lastVotedSlot, last < slot)
    (h : Voted tower slot tower' rooted kept expired) : Outcome vote tower' := by
  cases houtcome with
  | rooted root hroot hle =>
    have hle' := h.rootSlot_le htower
    rw [hroot] at hle'
    cases hroot' : tower'.rootSlot with
    | none => exact absurd (hroot' ▸ hle') Option.not_some_le_none
    | some root' =>
      rw [hroot', Option.some_le_some] at hle'
      exact .rooted root' hroot' (hle.trans hle')
  | kept w hw hslot hcount =>
    rw [h.votes, mem_append, mem_append] at hw
    rcases hw with (hw | hw) | hw
    · rcases h.rooted with ⟨rfl, -⟩ | ⟨v, rfl, hroot⟩
      · cases hw
      · rw [mem_singleton.mp hw] at hslot
        exact .rooted v.slot hroot hslot.ge
    · obtain ⟨w', hw', hslot', hcount'⟩ := h.exists_mem_votes hw
      exact .kept w' hw' (hslot'.trans hslot) (hcount.trans hcount')
    -- the votes that stay are below an expired one, so only the new vote is later
    have hlt : vote.lastLockedOutSlot < slot :=
      (Lockout.lastLockedOutSlot_mono hslot.symm hcount).trans_lt (h.expired w hw)
    have hslot' : vote.slot < slot := by
      rw [← hslot]
      refine Voted.vote_lt htower hlast ?_
      rw [h.votes]
      exact mem_append_right _ hw
    refine .expired slot h.lastVotedSlot hslot' hlt fun w' hw' => ?_
    rcases h.mem_votes hw' with heq | ⟨v, hv, heq, -⟩
    · rw [heq]
      exact .inr ⟨hslot', hlt⟩
    · rw [← heq, ← hslot]
      exact .inl (h.lt_expired htower.shape hv hw)
  | expired last hlast' hslot hlt hvotes =>
    have hlt' := hlast last hlast'
    refine .expired slot h.lastVotedSlot (hslot.trans hlt') (hlt.trans hlt') fun w hw => ?_
    rcases h.mem_votes hw with heq | ⟨v, hv, heq, -⟩
    · rw [heq]
      exact .inr ⟨hslot.trans hlt', hlt.trans hlt'⟩
    · rw [← heq]
      exact hvotes v (h.mem_of_mem_kept hv)

/-- A further vote, for a slot above the votes and the root. -/
lemma Extends.voted {rooted kept expired : List Lockout} (h : Extends self slots tower)
    (hlast : ∀ last ∈ tower.lastVotedSlot, last < slot)
    (hroot : ∀ root, tower.rootSlot = some root → root ≠ 0 → root < slot)
    (hvoted : Voted tower slot tower' rooted kept expired) :
    Extends self (slots ++ [slot]) tower' where
  wellFormed := hvoted.wellFormed h.wellFormed hlast hroot
  rootSlot_le := option_le_trans h.rootSlot_le (hvoted.rootSlot_le h.wellFormed)
  votes w hw := by
    rw [mem_append, mem_singleton, ← or_assoc]
    rcases hvoted.mem_votes hw with hslot | ⟨v, hv, hslot, -⟩
    · exact .inr hslot
    · exact .inl (hslot ▸ h.votes v (hvoted.mem_of_mem_kept hv))
  root := by
    rcases hvoted.rooted with ⟨-, hroot'⟩ | ⟨vote, hrooted, hroot'⟩
    · rw [hroot']
      rcases h.root with hsame | ⟨root, heq, hor⟩
      · exact .inl hsame
      · exact .inr ⟨root, heq, hor.imp_right (mem_append_left _)⟩
    · refine .inr ⟨vote.slot, hroot', (h.votes vote ?_).imp_right (mem_append_left _)⟩
      rw [hvoted.votes, hrooted]
      simp
  outcome vote hvote := (h.outcome vote hvote).voted h.wellFormed hlast hvoted

/-- Votes for increasing slots above the votes and the root of a tower. -/
theorem extends_foldl (hself : self.WellFormed) (hslots : slots.Pairwise (· < ·))
    (habove : ∀ slot ∈ slots, (∀ vote ∈ self.votes, vote.slot < slot) ∧
      ∀ root, self.rootSlot = some root → root ≠ 0 → root < slot) :
    Extends self slots (slots.foldl processNextVoteSlot self) ∧
      (slots ≠ [] → (slots.foldl processNextVoteSlot self).lastVotedSlot = slots.getLast?) := by
  induction slots using List.reverseRecOn with
  | nil => exact ⟨hself.extends_nil, fun h => absurd rfl h⟩
  | append_singleton slots slot ih =>
    rw [pairwise_append] at hslots
    obtain ⟨hext, hlast⟩ := ih hslots.1 fun slot hmem => habove slot (mem_append_left _ hmem)
    obtain ⟨hvotes, hroots⟩ := habove slot (mem_append_right _ (mem_singleton_self _))
    rw [foldl_append, foldl_cons, foldl_nil]
    have hbelow : ∀ t ∈ slots, t < slot := fun t ht => hslots.2.2 t ht slot (by simp)
    have hlt : ∀ last ∈ (slots.foldl TowerVoteState.processNextVoteSlot self).lastVotedSlot,
        last < slot := by
      intro last hmem
      obtain ⟨w, hw, rfl⟩ := Option.map_eq_some_iff.mp hmem
      rcases hext.votes w (mem_of_getLast? hw) with hmem | hmem
      · obtain ⟨v, hv, heq⟩ := mem_map.mp hmem
        exact heq ▸ hvotes v hv
      · exact hbelow _ hmem
    have hroot : ∀ root, (slots.foldl TowerVoteState.processNextVoteSlot self).rootSlot =
        some root → root ≠ 0 → root < slot := by
      intro root hroot hne
      rcases hext.root with hsame | ⟨root', heq, hmem | hmem⟩
      · exact hroots root (hsame ▸ hroot) hne
      · cases heq.symm.trans hroot
        obtain ⟨v, hv, heq⟩ := mem_map.mp hmem
        exact heq ▸ hvotes v hv
      · cases heq.symm.trans hroot
        exact hbelow _ hmem
    obtain ⟨rooted, kept, expired, hvoted⟩ := voted hext.wellFormed.shape.length_le hlt
    exact ⟨hext.voted hlt hroot hvoted, fun _ => by simp [hvoted.lastVotedSlot]⟩

end TowerVoteState
end Trezoa.Consensus
