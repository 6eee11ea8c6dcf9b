import Mathlib

/-!
# Lockouts

A vote locks a validator out of other forks for `2 ^ confirmation_count` slots. The vote program and
the local tower of a validator share the way a vote enters a tower: expired votes are popped off the
back, and the lockouts of votes that got deeper than ever before are doubled.

`Lockout` is a type of the crate `trezoa-vote-interface` 5.0 and follows its documentation: the
lockout of a vote is 2 to its confirmation count, cut to `MAX_LOCKOUT_HISTORY`, slots saturate, and
the last slot that is locked out is included.
-/

namespace Trezoa.VoteProgram

open List

def maxLockoutHistory : ℕ := 31

/-- `u64::MAX`. -/
def u64Max : ℕ := 2 ^ 64 - 1

structure Lockout where
  slot : ℕ
  confirmationCount : ℕ
  deriving DecidableEq, Repr

namespace Lockout

def new (slot : ℕ) : Lockout := ⟨slot, 1⟩

def lastLockedOutSlot (self : Lockout) : ℕ :=
  min (self.slot + 2 ^ min self.confirmationCount maxLockoutHistory) u64Max

def isLockedOutAtSlot (self : Lockout) (slot : ℕ) : Bool := slot ≤ self.lastLockedOutSlot

def increaseConfirmationCount (self : Lockout) (n : ℕ) : Lockout :=
  { self with confirmationCount := self.confirmationCount + n }

@[simp] lemma slot_new (slot : ℕ) : (new slot).slot = slot := rfl

@[simp] lemma confirmationCount_new (slot : ℕ) : (new slot).confirmationCount = 1 := rfl

/-- A lockout grows with its confirmations. -/
lemma lastLockedOutSlot_mono {v w : Lockout} (hslot : v.slot = w.slot)
    (hcount : v.confirmationCount ≤ w.confirmationCount) :
    v.lastLockedOutSlot ≤ w.lastLockedOutSlot := by
  unfold lastLockedOutSlot
  have hpow := Nat.pow_le_pow_right two_pos (min_le_min_right maxLockoutHistory hcount)
  omega

end Lockout

open Lockout

/-! ## The steps of a vote -/

/-- The loop of `pop_expired_votes`, for votes that carry a lockout. -/
def popExpiredVotes {α : Type} (lockout : α → Lockout) (votes : List α) (nextVoteSlot : ℕ) :
    List α :=
  votes.rdropWhile fun vote => !(lockout vote).isLockedOutAtSlot nextVoteSlot

/-- The loop of `double_lockouts`, for votes that carry a lockout. -/
def doubleLockouts {α : Type} (lockout : α → Lockout) (setLockout : α → Lockout → α)
    (votes : List α) : List α :=
  votes.mapIdx fun i vote =>
    if i + (lockout vote).confirmationCount < votes.length then
      setLockout vote ((lockout vote).increaseConfirmationCount 1)
    else vote

section Maps
variable {α : Type} {lockout : α → Lockout} {setLockout : α → Lockout → α} {votes : List α}

/-- Popping only looks at the lockouts. -/
lemma map_popExpiredVotes (slot : ℕ) : (popExpiredVotes lockout votes slot).map lockout =
    popExpiredVotes id (votes.map lockout) slot := by
  unfold popExpiredVotes List.rdropWhile
  rw [← map_reverse, dropWhile_map, map_reverse]
  rfl

/-- Doubling only changes the lockouts. -/
lemma map_doubleLockouts (hset : ∀ vote l, lockout (setLockout vote l) = l) :
    (doubleLockouts lockout setLockout votes).map lockout =
      doubleLockouts id (fun _ l => l) (votes.map lockout) := by
  refine ext_getElem (by simp [doubleLockouts]) fun i hi hi' => ?_
  simp only [doubleLockouts, getElem_map, getElem_mapIdx, length_map, id_eq]
  split
  · rw [hset]
  · rfl

end Maps

section Pops
variable {votes : List Lockout} {slot : ℕ}

/-- Popping splits the votes into those that stay and expired ones. -/
lemma exists_append_popExpiredVotes (votes : List Lockout) (slot : ℕ) :
    ∃ expired, votes = popExpiredVotes id votes slot ++ expired ∧
      ∀ vote ∈ expired, vote.lastLockedOutSlot < slot := by
  refine ⟨votes.rtakeWhile _, rdropWhile_append_rtakeWhile.symm, fun vote hvote => ?_⟩
  have h := mem_rtakeWhile_imp hvote
  simpa [isLockedOutAtSlot] using h

/-- The last vote that stays is locked out at the slot. -/
lemma le_lastLockedOutSlot_of_getLast? {vote : Lockout}
    (h : (popExpiredVotes id votes slot).getLast? = some vote) :
    slot ≤ vote.lastLockedOutSlot := by
  obtain ⟨hne, rfl⟩ := mem_getLast?_eq_getLast h
  have hlast : ¬ (!isLockedOutAtSlot _ slot) := rdropWhile_last_not _ votes hne
  rw [Bool.not_eq_true', Bool.not_eq_false] at hlast
  exact of_decide_eq_true hlast

end Pops

/-! ## The shape of a tower -/

/-- The votes of a tower: slots increase, confirmations decrease, and no vote is past the lockout of
the one before it. -/
structure Shape (votes : List Lockout) : Prop where
  slots : votes.Pairwise fun v w => v.slot < w.slot
  confirmations : votes.Pairwise fun v w => w.confirmationCount < v.confirmationCount
  pos : ∀ v ∈ votes, 0 < v.confirmationCount
  le_max : ∀ v ∈ votes, v.confirmationCount ≤ maxLockoutHistory
  length_le : votes.length ≤ maxLockoutHistory
  nested : votes.IsChain fun v w => w.slot ≤ v.lastLockedOutSlot

lemma shape_nil : Shape [] := by
  constructor <;> simp

section Shape
variable {votes votes' kept : List Lockout} {slot : ℕ}

/-- Part of a tower is a tower. -/
lemma Shape.of_append {before after : List Lockout} (h : Shape (before ++ votes ++ after)) :
    Shape votes := by
  have hsub : votes.Sublist (before ++ votes ++ after) :=
    (sublist_append_right _ _).trans (sublist_append_left _ _)
  refine ⟨h.slots.sublist hsub, h.confirmations.sublist hsub, fun v hv => h.pos v (hsub.mem hv),
    fun v hv => h.le_max v (hsub.mem hv), hsub.length_le.trans h.length_le, ?_⟩
  exact (isChain_append.mp (isChain_append.mp h.nested).1).2.1

/-- Confirmations decrease to one, so a vote has at least its depth of them. -/
lemma Shape.depth_le (h : Shape votes) {i : ℕ} (hi : i < votes.length) :
    votes.length ≤ i + votes[i].confirmationCount := by
  induction hn : votes.length - i generalizing i with
  | zero => omega
  | succ n ih =>
    by_cases hlast : i + 1 < votes.length
    · have hnext := ih hlast (by omega)
      have hlt := pairwise_iff_getElem.mp h.confirmations i (i + 1) hi hlast (by omega)
      omega
    · have hpos := h.pos votes[i] (getElem_mem hi)
      omega

/-- The votes after doubling, by position. -/
lemma getElem_doubleLockouts {i : ℕ} (hi : i < (doubleLockouts id (fun _ l => l) votes).length)
    (hi' : i < votes.length) :
    (doubleLockouts id (fun _ l => l) votes)[i] =
      if i + votes[i].confirmationCount < votes.length then
        votes[i].increaseConfirmationCount 1 else votes[i] := by
  simp [doubleLockouts]

lemma length_doubleLockouts : (doubleLockouts id (fun _ l => l) votes).length = votes.length := by
  simp [doubleLockouts]

/-- Doubling keeps the slots and does not lower a confirmation count. -/
lemma forall₂_doubleLockouts (votes : List Lockout) :
    List.Forall₂ (fun v w => v.slot = w.slot ∧ v.confirmationCount ≤ w.confirmationCount) votes
      (doubleLockouts id (fun _ l => l) votes) := by
  rw [forall₂_iff_get]
  refine ⟨length_doubleLockouts.symm, fun i hi hi' => ?_⟩
  simp only [get_eq_getElem, getElem_doubleLockouts hi' hi]
  split <;> simp [increaseConfirmationCount]

/-- A vote is doubled to one with the same slot. -/
lemma exists_mem_doubleLockouts {v : Lockout} (hv : v ∈ votes) :
    ∃ w ∈ doubleLockouts id (fun _ l => l) votes,
      v.slot = w.slot ∧ v.confirmationCount ≤ w.confirmationCount := by
  obtain ⟨i, hi, rfl⟩ := getElem_of_mem hv
  obtain ⟨hlen, hforall⟩ := forall₂_iff_get.mp (forall₂_doubleLockouts votes)
  exact ⟨_, get_mem _ ⟨i, hlen ▸ hi⟩, hforall i hi (hlen ▸ hi)⟩

/-- A doubled vote comes from one with the same slot. -/
lemma exists_of_mem_doubleLockouts {w : Lockout}
    (hw : w ∈ doubleLockouts id (fun _ l => l) votes) :
    ∃ v ∈ votes, v.slot = w.slot ∧ v.confirmationCount ≤ w.confirmationCount := by
  obtain ⟨i, hi, rfl⟩ := getElem_of_mem hw
  obtain ⟨hlen, hforall⟩ := forall₂_iff_get.mp (forall₂_doubleLockouts votes)
  exact ⟨_, get_mem _ ⟨i, hlen ▸ hi⟩, hforall i (hlen ▸ hi) hi⟩

lemma map_slot_doubleLockouts (votes : List Lockout) :
    (doubleLockouts id (fun _ l => l) votes).map Lockout.slot = votes.map Lockout.slot := by
  refine ext_getElem (by simp [doubleLockouts]) fun i hi hi' => ?_
  simp only [getElem_map, doubleLockouts, getElem_mapIdx]
  split <;> rfl

lemma pairwise_slot_doubleLockouts (h : votes.Pairwise fun v w => v.slot < w.slot) :
    (doubleLockouts id (fun _ l => l) votes).Pairwise fun v w => v.slot < w.slot := by
  have hmap := pairwise_map.mpr h
  rw [← map_slot_doubleLockouts] at hmap
  exact pairwise_map.mp hmap

/-- Doubling only extends lockouts. -/
lemma isChain_doubleLockouts (h : votes.IsChain fun v w => w.slot ≤ v.lastLockedOutSlot) :
    (doubleLockouts id (fun _ l => l) votes).IsChain fun v w => w.slot ≤ v.lastLockedOutSlot := by
  rw [isChain_iff_getElem] at h ⊢
  intro i hi
  have hi' : i + 1 < votes.length := length_doubleLockouts ▸ hi
  obtain ⟨-, hforall⟩ := forall₂_iff_get.mp (forall₂_doubleLockouts votes)
  obtain ⟨hslot, hcount⟩ := hforall i (by omega) (by omega)
  calc _ = votes[i + 1].slot := (hforall (i + 1) hi' hi).1.symm
    _ ≤ votes[i].lastLockedOutSlot := h i hi'
    _ ≤ _ := lastLockedOutSlot_mono hslot hcount

/-- Where a vote lacks at most one confirmation, its new count is the larger of the old one and its
depth. -/
lemma confirmationCount_doubleLockouts {i : ℕ}
    (hi : i < (doubleLockouts id (fun _ l => l) votes).length) (hi' : i < votes.length)
    (hdepth : votes.length ≤ i + votes[i].confirmationCount + 1) :
    (doubleLockouts id (fun _ l => l) votes)[i].confirmationCount =
      max votes[i].confirmationCount (votes.length - i) := by
  rw [getElem_doubleLockouts hi hi']
  split
  · show votes[i].confirmationCount + 1 = _
    omega
  · omega

/-- A vote for a later slot that is locked out by the last vote. -/
theorem Shape.push (h : Shape kept) (hlength : kept.length < maxLockoutHistory)
    (hslot : ∀ v ∈ kept, v.slot < slot)
    (hlocked : ∀ v ∈ kept.getLast?, slot ≤ v.lastLockedOutSlot) :
    Shape (doubleLockouts id (fun _ l => l) (kept ++ [.new slot])) := by
  obtain ⟨votes, hvotes⟩ : ∃ votes, kept ++ [new slot] = votes := ⟨_, rfl⟩
  have hlen : votes.length = kept.length + 1 := by simp [← hvotes]
  have hkept : ∀ i (hi : i < kept.length) (hi' : i < votes.length), votes[i] = kept[i] := by
    rintro i hi -
    subst hvotes
    exact getElem_append_left hi
  have hlast : ∀ i (hi : i < votes.length), i = kept.length → votes[i] = .new slot := by
    rintro i - rfl
    subst hvotes
    simp
  -- every vote is as deep as its count or one less, so that all counts below the new one may grow
  have hdepth : ∀ i (hi : i < votes.length), votes.length ≤ i + votes[i].confirmationCount + 1 := by
    intro i hi
    by_cases hlt : i < kept.length
    · rw [hkept i hlt hi]
      have := h.depth_le hlt
      omega
    · omega
  have hcount := fun i hi hi' => confirmationCount_doubleLockouts (i := i) hi hi' (hdepth i hi')
  have hrange : ∀ i (hi : i < votes.length),
      votes[i].confirmationCount ≤ maxLockoutHistory ∧ 0 < votes[i].confirmationCount := by
    intro i hi
    by_cases hlt : i < kept.length
    · rw [hkept i hlt hi]
      exact ⟨h.le_max _ (getElem_mem _), h.pos _ (getElem_mem _)⟩
    · rw [hlast i hi (by omega)]
      exact ⟨show 1 ≤ maxLockoutHistory by decide, Nat.one_pos⟩
  have hslots : votes.Pairwise fun v w => v.slot < w.slot := by
    rw [← hvotes, pairwise_append]
    exact ⟨h.slots, pairwise_singleton _ _, by simpa using hslot⟩
  have hnested : votes.IsChain fun v w => w.slot ≤ v.lastLockedOutSlot := by
    rw [← hvotes, isChain_append]
    exact ⟨h.nested, isChain_singleton _, by simpa using hlocked⟩
  rw [hvotes]
  refine ⟨?_, ?_, ?_, ?_, ?_, ?_⟩
  · exact pairwise_slot_doubleLockouts hslots
  · rw [pairwise_iff_getElem]
    intro i j hi hj hij
    have hi' : i < votes.length := length_doubleLockouts ▸ hi
    have hj' : j < votes.length := length_doubleLockouts ▸ hj
    rw [hcount i hi hi', hcount j hj hj']
    have hpos := (hrange j hj').2
    by_cases hlt : j < kept.length
    · have hdec := pairwise_iff_getElem.mp h.confirmations i j (by omega) hlt hij
      rw [← hkept i (by omega) hi', ← hkept j hlt hj'] at hdec
      omega
    · have hone : votes[j].confirmationCount = 1 := by
        rw [hlast j hj' (by omega)]
        rfl
      omega
  rotate_right 2
  · rw [length_doubleLockouts]
    omega
  · exact isChain_doubleLockouts hnested
  all_goals
    intro v hv
    obtain ⟨i, hi, rfl⟩ := getElem_of_mem hv
    have hi' : i < votes.length := length_doubleLockouts ▸ hi
    rw [hcount i hi hi']
    have := hrange i hi'
    omega

end Shape
end Trezoa.VoteProgram
