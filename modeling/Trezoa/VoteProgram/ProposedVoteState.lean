import Trezoa.Lib.Fallible
import Trezoa.Lib.While
import Trezoa.VoteProgram.VoteState

/-!
# Checking a proposed vote state against the slot hashes

`check_and_filter_proposed_vote_state` of `programs/vote/src/vote_state/mod.rs`. The loop walks up
the proposed slots, with the root as a first one, and the slot hashes at the same time.
-/

namespace Trezoa.VoteProgram

open Lib List Except Nat Lockout Option

abbrev Hash := ℕ

/-- `SlotHash`: slots with their hashes, the latest slot first. -/
abbrev SlotHashes := List (ℕ × Hash)

/-- Indexing a vector. -/
def getAt {α : Type} (l : List α) (i : ℕ) : Except Failure α :=
  match l[i]? with
  | none => .error .panic
  | some a => .ok a

/-- The root of `check_and_filter_proposed_vote_state` after it was overwritten, if it is too old to
be in the slot hashes. -/
def VoteState.overwriteRoot (self : VoteState) (earliestSlotHashInHistory : ℕ) :
    Option ℕ → Option ℕ
  | none => none
  | some root =>
    if root < earliestSlotHashInHistory then
      match self.votes.reverse.find? (·.slot ≤ root) with
      | none => self.rootSlot
      | some vote => some vote.slot
    else some root

/-- The variables of the loop. -/
structure Cursor where
  rootToCheck : Option ℕ
  proposedLockoutsIndex : ℕ
  slotHashesIndex : ℕ
  indicesToFilter : List ℕ

section Loop
variable (voteState : VoteState) (proposedLockouts : List Lockout) (slotHashes : SlotHashes)
  (earliestSlotHashInHistory : ℕ)

def proposedVoteSlot (cursor : Cursor) : Except Failure ℕ :=
  match cursor.rootToCheck with
  | some root => .ok root
  | none => do
    let lockout ← getAt proposedLockouts cursor.proposedLockoutsIndex
    return lockout.slot

/-- The check that a slot is later than the one before it. -/
def checkOrdered (cursor : Cursor) (proposedVoteSlot : ℕ) : Except Failure Unit :=
  if cursor.rootToCheck = none ∧ 0 < cursor.proposedLockoutsIndex then do
    let previous ← getAt proposedLockouts (cursor.proposedLockoutsIndex - 1)
    if proposedVoteSlot ≤ previous.slot then .error (.vote .slotsNotOrdered) else .ok ()
  else .ok ()

/-- The branch for a slot that is older than the slot hashes. -/
def passOldSlot (cursor : Cursor) (proposedVoteSlot : ℕ) : Except Failure Cursor :=
  if earliestSlotHashInHistory ≤ proposedVoteSlot then .error (.vote .assertionFailed)
  else
    match cursor.rootToCheck with
    | some newProposedRoot =>
      if newProposedRoot ≠ proposedVoteSlot then .error .panic
      else if earliestSlotHashInHistory ≤ newProposedRoot then .error (.vote .assertionFailed)
      else .ok { cursor with rootToCheck := none }
    | none =>
      .ok { cursor with
        proposedLockoutsIndex := cursor.proposedLockoutsIndex + 1
        indicesToFilter :=
          if voteState.containsSlot proposedVoteSlot then cursor.indicesToFilter
          else cursor.indicesToFilter ++ [cursor.proposedLockoutsIndex] }

/-- The comparison of a slot with the slot of a hash. -/
def matchSlot (cursor : Cursor) (proposedVoteSlot ancestorSlot : ℕ) : Except Failure Cursor :=
  match compare proposedVoteSlot ancestorSlot with
  | .lt =>
    if cursor.slotHashesIndex = slotHashes.length then
      passOldSlot voteState earliestSlotHashInHistory cursor proposedVoteSlot
    else if cursor.rootToCheck.isSome then .error (.vote .rootOnDifferentFork)
    else .error (.vote .slotsMismatch)
  | .gt => .ok { cursor with slotHashesIndex := cursor.slotHashesIndex - 1 }
  | .eq =>
    match cursor.rootToCheck with
    | some _ => .ok { cursor with rootToCheck := none }
    | none =>
      .ok { cursor with
        proposedLockoutsIndex := cursor.proposedLockoutsIndex + 1
        slotHashesIndex := cursor.slotHashesIndex - 1 }

/-- A round of the loop. -/
def checkRound (cursor : Cursor) : Except Failure (Option Cursor) :=
  if cursor.proposedLockoutsIndex < proposedLockouts.length ∧ 0 < cursor.slotHashesIndex then do
    let slot ← proposedVoteSlot proposedLockouts cursor
    checkOrdered proposedLockouts cursor slot
    let ancestor ← getAt slotHashes (cursor.slotHashesIndex - 1)
    let cursor ← matchSlot voteState slotHashes earliestSlotHashInHistory cursor slot ancestor.1
    return some cursor
  else .ok none

/-- The loop. -/
def checkLoop (root : Option ℕ) : Except Failure Cursor :=
  whileLoop (checkRound voteState proposedLockouts slotHashes earliestSlotHashInHistory) .outOfFuel
    (proposedLockouts.length + slotHashes.length + 2) ⟨root, 0, slotHashes.length, []⟩

end Loop

/-- `retain` with the indices that are left to filter. -/
def retainLockouts : List ℕ → ℕ → List Lockout → List Lockout
  | _, _, [] => []
  | [], _, lockouts => lockouts
  | filtered :: indices, index, lockout :: lockouts =>
    if index = filtered then retainLockouts indices (index + 1) lockouts
    else lockout :: retainLockouts (filtered :: indices) (index + 1) lockouts

/-- The checks of `check_and_filter_proposed_vote_state` after the loop, and the filtering. -/
def filterProposed (proposedLockouts : List Lockout) (lastProposedSlot : ℕ) (proposedHash : Hash)
    (slotHashes : SlotHashes) (cursor : Cursor) : Except Failure (List Lockout) :=
  if cursor.proposedLockoutsIndex ≠ proposedLockouts.length then .error (.vote .slotsMismatch)
  else do
    let found ← getAt slotHashes cursor.slotHashesIndex
    if lastProposedSlot ≠ found.1 then .error .panic
    else if found.2 ≠ proposedHash then .error (.vote .slotHashMismatch)
    else .ok (retainLockouts cursor.indicesToFilter 0 proposedLockouts)

/-- `check_and_filter_proposed_vote_state`. It returns the lockouts and the root as they are
left. -/
def checkAndFilterProposedVoteState (voteState : VoteState) (proposedLockouts : List Lockout)
    (proposedRoot : Option ℕ) (proposedHash : Hash) (slotHashes : SlotHashes) :
    Except Failure (List Lockout × Option ℕ) :=
  match proposedLockouts.getLast? with
  | none => .error (.vote .emptySlots)
  | some lastProposed =>
    if voteState.lastVotedSlot.any (lastProposed.slot ≤ ·) then .error (.vote .voteTooOld)
    else
      match slotHashes.getLast? with
      | none => .error (.vote .slotsMismatch)
      | some (earliestSlotHashInHistory, _) =>
        if lastProposed.slot < earliestSlotHashInHistory then .error (.vote .voteTooOld)
        else do
          let root := voteState.overwriteRoot earliestSlotHashInHistory proposedRoot
          let cursor ← checkLoop voteState proposedLockouts slotHashes
            earliestSlotHashInHistory root
          let lockouts ← filterProposed proposedLockouts lastProposed.slot proposedHash
            slotHashes cursor
          return (lockouts, root)

/-! ## Filtering -/

/-- The positions of the lockouts that `old` selects. -/
def oldIndices (old : Lockout → Bool) (lockouts : List Lockout) (start : ℕ) : List ℕ :=
  (lockouts.zipIdx start).filterMap fun entry => if old entry.1 then some entry.2 else none

section Filtering
variable {old : Lockout → Bool} {lockouts : List Lockout} {start : ℕ}

lemma oldIndices_append_singleton (lockout : Lockout) :
    oldIndices old (lockouts ++ [lockout]) start =
      oldIndices old lockouts start ++ if old lockout then [start + lockouts.length] else [] := by
  unfold oldIndices
  rw [zipIdx_append, filterMap_append]
  congr 1
  cases hold : old lockout <;> simp [hold]

lemma le_of_mem_oldIndices {i : ℕ} (h : i ∈ oldIndices old lockouts start) : start ≤ i := by
  obtain ⟨⟨lockout, j⟩, hmem, heq⟩ := mem_filterMap.mp h
  have hj := (mem_zipIdx hmem).1
  split at heq
  · cases heq
    exact hj
  · cases heq

/-- Filtering the positions removes the lockouts. -/
lemma retainLockouts_oldIndices :
    retainLockouts (oldIndices old lockouts start) start lockouts =
      lockouts.filter fun lockout => !old lockout := by
  induction lockouts generalizing start with
  | nil => cases oldIndices old [] start <;> rfl
  | cons lockout lockouts ih =>
    have hcons : oldIndices old (lockout :: lockouts) start =
        (if old lockout then [start] else []) ++ oldIndices old lockouts (start + 1) := by
      unfold oldIndices
      rw [zipIdx_cons, filterMap_cons]
      cases old lockout <;> rfl
    rw [hcons]
    cases hold : old lockout with
    | true =>
      rw [filter_cons_of_neg (by simp [hold])]
      simpa [retainLockouts] using ih
    | false =>
      have hrest := @ih (start + 1)
      rw [filter_cons_of_pos (by simp [hold]), ← hrest]
      cases hindices : oldIndices old lockouts (start + 1) with
      | nil => cases lockouts <;> rfl
      | cons i indices =>
        have hle : start + 1 ≤ i := le_of_mem_oldIndices (hindices ▸ mem_cons_self)
        have hne : start ≠ i := by omega
        simp [retainLockouts, hne]

end Filtering

/-! ## A round of the loop -/

section Rounds
variable (voteState : VoteState) (lockouts : List Lockout) (slotHashes : SlotHashes) (earliest : ℕ)

/-- The slot that is checked next. -/
def Pending (cursor : Cursor) (slot : ℕ) : Prop :=
  cursor.rootToCheck = some slot ∨ cursor.rootToCheck = none ∧
    ∃ lockout, lockouts[cursor.proposedLockoutsIndex]? = some lockout ∧ lockout.slot = slot

/-- The slot before the one that is checked next. -/
def Previous (cursor : Cursor) (slot : ℕ) : Prop :=
  0 < cursor.proposedLockoutsIndex ∧ ∃ lockout,
    lockouts[cursor.proposedLockoutsIndex - 1]? = some lockout ∧ lockout.slot = slot

/-- The slot of the hash that it is compared with. -/
def Ancestor (cursor : Cursor) (slot : ℕ) : Prop :=
  0 < cursor.slotHashesIndex ∧ ∃ hash, slotHashes[cursor.slotHashesIndex - 1]? = some (slot, hash)

/-- A round that goes on. -/
inductive Advances (cursor : Cursor) : Cursor → Prop where
  | oldRoot {root : ℕ} : cursor.rootToCheck = some root → root < earliest →
      cursor.slotHashesIndex = slotHashes.length →
      Advances cursor { cursor with rootToCheck := none }
  | foundRoot {root : ℕ} : cursor.rootToCheck = some root → Ancestor slotHashes cursor root →
      Advances cursor { cursor with rootToCheck := none }
  | newer {slot ancestor : ℕ} : Pending lockouts cursor slot →
      Ancestor slotHashes cursor ancestor → ancestor < slot →
      Advances cursor { cursor with slotHashesIndex := cursor.slotHashesIndex - 1 }
  | oldSlot {lockout : Lockout} : cursor.rootToCheck = none →
      lockouts[cursor.proposedLockoutsIndex]? = some lockout →
      (∀ previous, Previous lockouts cursor previous → previous < lockout.slot) →
      lockout.slot < earliest → cursor.slotHashesIndex = slotHashes.length →
      Advances cursor { cursor with
        proposedLockoutsIndex := cursor.proposedLockoutsIndex + 1
        indicesToFilter :=
          if voteState.containsSlot lockout.slot then cursor.indicesToFilter
          else cursor.indicesToFilter ++ [cursor.proposedLockoutsIndex] }
  | foundSlot {lockout : Lockout} : cursor.rootToCheck = none →
      lockouts[cursor.proposedLockoutsIndex]? = some lockout →
      (∀ previous, Previous lockouts cursor previous → previous < lockout.slot) →
      Ancestor slotHashes cursor lockout.slot →
      Advances cursor { cursor with
        proposedLockoutsIndex := cursor.proposedLockoutsIndex + 1
        slotHashesIndex := cursor.slotHashesIndex - 1 }

/-- A round that fails: the next slot is out of order, or it is not among the slot hashes. -/
inductive Blocked (cursor : Cursor) : Prop where
  | notOrdered {slot previous : ℕ} : Pending lockouts cursor slot →
      Previous lockouts cursor previous → cursor.rootToCheck = none → slot ≤ previous →
      Blocked cursor
  | notFound {slot ancestor : ℕ} : Pending lockouts cursor slot →
      Ancestor slotHashes cursor ancestor → slot < ancestor →
      cursor.slotHashesIndex ≠ slotHashes.length → Blocked cursor

/-- A round goes on, fails, or ends the loop. -/
def RoundOutcome (cursor : Cursor) : Except Failure (Option Cursor) → Prop
  | .ok none => lockouts.length ≤ cursor.proposedLockoutsIndex ∨ cursor.slotHashesIndex = 0
  | .ok (some cursor') => Advances voteState lockouts slotHashes earliest cursor cursor'
  | .error e => (∃ e', e = .vote e') ∧ Blocked lockouts slotHashes cursor

variable {voteState lockouts slotHashes earliest} {cursor cursor' : Cursor}

lemma getAt_of_lt {α : Type} {l : List α} {i : ℕ} (h : i < l.length) :
    ∃ a, l[i]? = some a ∧ getAt l i = .ok a :=
  ⟨l[i], getElem?_eq_getElem h, by simp [getAt, getElem?_eq_getElem h]⟩

/-- The slot that is checked next is there. -/
lemma proposedVoteSlot_ok (h : cursor.proposedLockoutsIndex < lockouts.length) :
    ∃ slot, proposedVoteSlot lockouts cursor = .ok slot ∧ Pending lockouts cursor slot := by
  unfold proposedVoteSlot
  cases hroot : cursor.rootToCheck with
  | some root => exact ⟨root, rfl, .inl hroot⟩
  | none =>
    obtain ⟨lockout, hget, hat⟩ := getAt_of_lt h
    exact ⟨lockout.slot, by rw [hat]; rfl, .inr ⟨hroot, lockout, hget, rfl⟩⟩

/-- The check of the order. -/
lemma checkOrdered_cases (h : cursor.proposedLockoutsIndex < lockouts.length) (slot : ℕ) :
    (checkOrdered lockouts cursor slot = .ok () ∧ (cursor.rootToCheck = none →
      ∀ previous, Previous lockouts cursor previous → previous < slot)) ∨
      checkOrdered lockouts cursor slot = .error (.vote .slotsNotOrdered) ∧
        cursor.rootToCheck = none ∧ ∃ previous, Previous lockouts cursor previous ∧
        slot ≤ previous := by
  unfold checkOrdered
  by_cases hcond : cursor.rootToCheck = none ∧ 0 < cursor.proposedLockoutsIndex
  · rw [if_pos hcond]
    obtain ⟨previous, hget, hat⟩ :=
      getAt_of_lt (l := lockouts) (i := cursor.proposedLockoutsIndex - 1) (by omega)
    rw [hat]
    by_cases hle : slot ≤ previous.slot
    · exact .inr ⟨if_pos hle, hcond.1, previous.slot, ⟨hcond.2, previous, hget, rfl⟩, hle⟩
    refine .inl ⟨if_neg hle, ?_⟩
    rintro - _ ⟨-, previous', hget', rfl⟩
    cases hget.symm.trans hget'
    exact not_le.mp hle
  · rw [if_neg hcond]
    exact .inl ⟨rfl, fun hroot previous hprevious => absurd ⟨hroot, hprevious.1⟩ hcond⟩

/-- The comparison of the next slot. -/
lemma matchSlot_outcome (voteState : VoteState) {slot ancestor : ℕ}
    (hpending : Pending lockouts cursor slot)
    (hprevious : cursor.rootToCheck = none →
      ∀ previous, Previous lockouts cursor previous → previous < slot)
    (hancestor : Ancestor slotHashes cursor ancestor)
    (hearliest : cursor.slotHashesIndex = slotHashes.length → ancestor = earliest) :
    RoundOutcome voteState lockouts slotHashes earliest cursor
      ((matchSlot voteState slotHashes earliest cursor slot ancestor).map some) := by
  obtain ⟨rootToCheck, index, hashesIndex, indices⟩ := cursor
  unfold matchSlot
  rcases lt_trichotomy slot ancestor with hlt | rfl | hgt
  · rw [compare_lt_iff_lt.mpr hlt]
    by_cases hlen : hashesIndex = slotHashes.length
    · obtain rfl := hearliest hlen
      simp only [if_pos hlen, passOldSlot, if_neg (not_le.mpr hlt)]
      rcases hpending with (rfl : rootToCheck = _) | ⟨(rfl : rootToCheck = _), _, hget, rfl⟩
      · simp only [ne_eq, not_true, if_false, if_neg (not_le.mpr hlt)]
        exact Advances.oldRoot rfl hlt hlen
      · exact Advances.oldSlot rfl hget (hprevious rfl) hlt hlen
    · simp only [if_neg hlen]
      have hblocked := Blocked.notFound hpending hancestor hlt hlen
      split <;> exact ⟨⟨_, rfl⟩, hblocked⟩
  · rw [compare_eq_iff_eq.mpr rfl]
    rcases hpending with (rfl : rootToCheck = _) | ⟨(rfl : rootToCheck = _), _, hget, rfl⟩
    · exact Advances.foundRoot rfl hancestor
    · exact Advances.foundSlot rfl hget (hprevious rfl) hancestor
  · rw [compare_gt_iff_gt.mpr hgt]
    exact Advances.newer hpending hancestor hgt

variable (hindex : cursor.slotHashesIndex ≤ slotHashes.length)
  (hearliest : ∃ hash, slotHashes.getLast? = some (earliest, hash))
include hindex hearliest

theorem checkRound_outcome {result : Except Failure (Option Cursor)}
    (h : checkRound voteState lockouts slotHashes earliest cursor = result) :
    RoundOutcome voteState lockouts slotHashes earliest cursor result := by
  subst h
  unfold checkRound
  by_cases hcond : cursor.proposedLockoutsIndex < lockouts.length ∧ 0 < cursor.slotHashesIndex
  · rw [if_pos hcond]
    obtain ⟨hlt, hpos⟩ := hcond
    obtain ⟨slot, hslot, hpending⟩ := proposedVoteSlot_ok hlt
    rw [hslot]
    rcases checkOrdered_cases hlt slot with
      ⟨hok, hprevious⟩ | ⟨herror, hroot, previous, hprevious, hle⟩
    · obtain ⟨⟨ancestor, hash⟩, hget, hat⟩ :=
        getAt_of_lt (l := slotHashes) (i := cursor.slotHashesIndex - 1) (by omega)
      have hearliest' : cursor.slotHashesIndex = slotHashes.length → ancestor = earliest := by
        intro hlen
        obtain ⟨hash', hlast⟩ := hearliest
        rw [getLast?_eq_getElem?, ← hlen, hget] at hlast
        cases hlast
        rfl
      simp only [hok, hat, bind, Except.bind]
      exact matchSlot_outcome voteState hpending hprevious ⟨hpos, hash, hget⟩ hearliest'
    · simp only [herror, bind, Except.bind]
      exact ⟨⟨_, rfl⟩, .notOrdered hpending hprevious hroot hle⟩
  · rw [if_neg hcond]
    simp only [RoundOutcome]
    omega

end Rounds

/-! ## The loop -/

/-- The slot hashes are strictly descending; `earliest` is the last slot. -/
structure History (slotHashes : SlotHashes) (earliest : ℕ) : Prop where
  descending : slotHashes.Pairwise fun a b => b.1 < a.1
  earliest : ∃ hash, slotHashes.getLast? = some (earliest, hash)

/-- A proposed lockout that is filtered: too old for the slot hashes, and not a vote. -/
def isOld (voteState : VoteState) (earliest : ℕ) (lockout : Lockout) : Bool :=
  decide (lockout.slot < earliest) && !voteState.containsSlot lockout.slot

section Loop
variable {voteState : VoteState} {lockouts : List Lockout} {slotHashes : SlotHashes}
  {earliest last : ℕ} {root : Option ℕ} {cursor cursor' : Cursor}

lemma Ancestor.mem {slot : ℕ} (h : Ancestor slotHashes cursor slot) :
    slot ∈ slotHashes.map Prod.fst := by
  obtain ⟨-, hash, hget⟩ := h
  exact mem_map.mpr ⟨_, mem_of_getElem? hget, rfl⟩

/-- All slots are at least the earliest. -/
lemma History.earliest_le (h : History slotHashes earliest) {slot : ℕ}
    (hslot : slot ∈ slotHashes.map Prod.fst) : earliest ≤ slot := by
  obtain ⟨⟨slot, hash⟩, hmem, rfl⟩ := mem_map.mp hslot
  obtain ⟨hash', hlast⟩ := h.earliest
  obtain ⟨before, rfl⟩ := getLast?_eq_some_iff.mp hlast
  rcases mem_append.mp hmem with hmem | hmem
  · exact ((pairwise_append.mp h.descending).2.2 _ hmem _ (mem_singleton_self _)).le
  · cases mem_singleton.mp hmem
    exact le_rfl

/-- A slot has one hash. -/
lemma hash_eq (h : slotHashes.Pairwise fun a b => b.1 < a.1) {slot : ℕ} {hash hash' : Hash}
    (hmem : (slot, hash) ∈ slotHashes) (hmem' : (slot, hash') ∈ slotHashes) : hash = hash' := by
  have hnodup : (slotHashes.map Prod.fst).Nodup := pairwise_map.mpr (h.imp fun hlt => hlt.ne')
  exact congrArg Prod.snd (inj_on_of_nodup_map hnodup hmem hmem' rfl)

/-- A round brings the loop closer to its end. -/
def remainingRounds (lockouts : List Lockout) (cursor : Cursor) : ℕ :=
  cursor.rootToCheck.toList.length + (lockouts.length - cursor.proposedLockoutsIndex) +
    cursor.slotHashesIndex

lemma Advances.remainingRounds_lt
    (h : Advances voteState lockouts slotHashes earliest cursor cursor') :
    remainingRounds lockouts cursor' < remainingRounds lockouts cursor := by
  unfold remainingRounds
  cases h with
  | oldRoot hroot => simp [hroot]
  | foundRoot hroot => simp [hroot]
  | newer _ hancestor =>
    have := hancestor.1
    simp only
    omega
  | oldSlot hroot hget =>
    have := lt_length hget
    simp only
    omega
  | foundSlot hroot hget =>
    have := lt_length hget
    simp only
    omega

/-- What is known of the slots that the loop has passed. -/
structure Checked (voteState : VoteState) (lockouts : List Lockout) (slotHashes : SlotHashes)
    (earliest last : ℕ) (root : Option ℕ) (cursor : Cursor) : Prop where
  index_le : cursor.proposedLockoutsIndex ≤ lockouts.length
  hashes_le : cursor.slotHashesIndex ≤ slotHashes.length
  pending : cursor.rootToCheck = none ∨ cursor.rootToCheck = root ∧ cursor.proposedLockoutsIndex = 0
  root : cursor.rootToCheck = none → ∀ slot ∈ root, slot < earliest ∨ slot ∈ slotHashes.map Prod.fst
  ordered : ∀ k v w, k + 1 < cursor.proposedLockoutsIndex → lockouts[k]? = some v →
    lockouts[k + 1]? = some w → v.slot < w.slot
  known : ∀ k v, k < cursor.proposedLockoutsIndex → lockouts[k]? = some v →
    v.slot < earliest ∨ v.slot ∈ slotHashes.map Prod.fst
  filtered : cursor.indicesToFilter = oldIndices (isOld voteState earliest)
    (lockouts.take cursor.proposedLockoutsIndex) 0
  last : cursor.proposedLockoutsIndex = lockouts.length →
    ∃ hash, slotHashes[cursor.slotHashesIndex]? = some (last, hash)

/-- The loop starts with the root. -/
lemma checked_start (hne : lockouts ≠ []) :
    Checked voteState lockouts slotHashes earliest last root ⟨root, 0, slotHashes.length, []⟩ where
  index_le := zero_le _
  hashes_le := le_rfl
  pending := .inr ⟨rfl, rfl⟩
  root hnone slot hslot := by
    cases hnone.symm.trans hslot
  ordered _ _ _ h := absurd h (not_lt_zero _)
  known _ _ h := absurd h (not_lt_zero _)
  filtered := rfl
  last h := absurd (eq_nil_of_length_eq_zero h.symm) hne

section
variable (h : Checked voteState lockouts slotHashes earliest last root cursor)
include h

/-- What passing a slot adds. -/
lemma Checked.pass {lockout : Lockout} (hroot : cursor.rootToCheck = none)
    (hget : lockouts[cursor.proposedLockoutsIndex]? = some lockout)
    (hprevious : ∀ previous, Previous lockouts cursor previous → previous < lockout.slot)
    (hknown : lockout.slot < earliest ∨ lockout.slot ∈ slotHashes.map Prod.fst)
    {hashesIndex : ℕ} (hhashes : hashesIndex ≤ slotHashes.length)
    (hlast : cursor.proposedLockoutsIndex + 1 = lockouts.length →
      ∃ hash, slotHashes[hashesIndex]? = some (last, hash)) :
    Checked voteState lockouts slotHashes earliest last root
      ⟨cursor.rootToCheck, cursor.proposedLockoutsIndex + 1, hashesIndex,
        if isOld voteState earliest lockout then
          cursor.indicesToFilter ++ [cursor.proposedLockoutsIndex]
        else cursor.indicesToFilter⟩ := by
  obtain ⟨hlt, hlockout⟩ := List.getElem?_eq_some_iff.mp hget
  refine ⟨hlt, hhashes, .inl hroot, h.root, fun k v w hk hv hw => ?_, fun k v hk hv =>
    ?_, ?_, hlast⟩
  · rcases Nat.lt_succ_iff_lt_or_eq.mp hk with hk | hk
    · exact h.ordered k v w hk hv hw
    · rw [hk, hget] at hw
      cases hw
      exact hprevious v.slot ⟨by omega, v, by rw [← hk]; exact hv, rfl⟩
  · rcases Nat.lt_succ_iff_lt_or_eq.mp hk with hk | hk
    · exact h.known k v hk hv
    · rw [hk, hget] at hv
      cases hv
      exact hknown
  · rw [h.filtered, ← take_append_getElem hlt, oldIndices_append_singleton, hlockout,
      length_take_of_le hlt.le]
    split <;> simp

/-- The slots are ordered once all are passed. -/
lemma Checked.sorted (hlen : cursor.proposedLockoutsIndex = lockouts.length) :
    lockouts.Pairwise fun v w => v.slot < w.slot := by
  have htrans : IsTrans Lockout fun v w => v.slot < w.slot := ⟨fun _ _ _ => lt_trans⟩
  rw [← isChain_iff_pairwise, isChain_iff_getElem]
  exact fun k hk => h.ordered k _ _ (hlen ▸ hk) (getElem?_eq_getElem _) (getElem?_eq_getElem hk)

/-- While a slot is checked, the index is in range. -/
lemma Checked.index_lt (hne : lockouts ≠ []) {slot : ℕ} (hpending : Pending lockouts cursor slot) :
    cursor.proposedLockoutsIndex < lockouts.length := by
  rcases hpending with hroot | ⟨-, lockout, hget, -⟩
  · rcases h.pending with hnone | ⟨-, hzero⟩
    · cases hnone.symm.trans hroot
    · rw [hzero]
      exact length_pos_iff.mpr hne
  · exact lt_length hget

end

/-- A round keeps what is known. -/
theorem Checked.advances (hhistory : History slotHashes earliest)
    (hlastSlot : lockouts.getLast?.map slot = some last) (hle : earliest ≤ last)
    (h : Checked voteState lockouts slotHashes earliest last root cursor)
    (hadvances : Advances voteState lockouts slotHashes earliest cursor cursor') :
    Checked voteState lockouts slotHashes earliest last root cursor' := by
  -- the lockout at the last position is the last one
  have hfinal : ∀ lockout, lockouts[cursor.proposedLockoutsIndex]? = some lockout →
      cursor.proposedLockoutsIndex + 1 = lockouts.length → lockout.slot = last := by
    intro lockout hget hlen
    rw [getLast?_eq_getElem?, ← hlen, Nat.add_sub_cancel, hget] at hlastSlot
    exact some.inj hlastSlot
  have hpassRoot : ∀ slot, cursor.rootToCheck = some slot →
      (slot < earliest ∨ slot ∈ slotHashes.map Prod.fst) →
      Checked voteState lockouts slotHashes earliest last root
        { cursor with rootToCheck := none } := by
    intro slot hroot hknown
    refine { h with pending := .inl rfl, root := fun _ slot' hslot' => ?_ }
    rcases h.pending with hnone | ⟨heq, -⟩
    · cases hnone.symm.trans hroot
    · rw [← heq, hroot] at hslot'
      cases hslot'
      exact hknown
  have hne : lockouts ≠ [] := by
    rintro rfl
    cases hlastSlot
  cases hadvances with
  | oldRoot hroot hlt => exact hpassRoot _ hroot (.inl hlt)
  | foundRoot hroot hancestor => exact hpassRoot _ hroot (.inr hancestor.mem)
  | newer hpending =>
    refine { h with hashes_le := (sub_le _ _).trans h.hashes_le, last := fun hlen => ?_ }
    exact absurd hlen (h.index_lt hne hpending).ne
  | @oldSlot lockout hroot hget hprevious hlt =>
    have hpass := h.pass hroot hget hprevious (.inl hlt) h.hashes_le fun hlast => by
      have := hfinal _ hget hlast
      omega
    convert hpass using 2
    cases hvote : voteState.containsSlot lockout.slot <;> simp [isOld, hlt, hvote]
  | @foundSlot lockout hroot hget hprevious hancestor =>
    have hpass := h.pass hroot hget hprevious (.inr hancestor.mem)
      ((sub_le _ 1).trans h.hashes_le) fun hlast => by
        obtain ⟨-, hash, hget'⟩ := hancestor
        exact ⟨hash, hfinal _ hget hlast ▸ hget'⟩
    have hnotOld : isOld voteState earliest lockout = false := by
      simp [isOld, (hhistory.earliest_le hancestor.mem).not_gt]
    rw [hnotOld] at hpass
    exact hpass

/-- A slot that is still to be checked. -/
def Upcoming (lockouts : List Lockout) (cursor : Cursor) (slot : ℕ) : Prop :=
  cursor.rootToCheck = some slot ∨ ∃ k lockout, cursor.proposedLockoutsIndex ≤ k ∧
    lockouts[k]? = some lockout ∧ lockout.slot = slot

/-- The slots that are still to be checked can be found. -/
structure Reachable (lockouts : List Lockout) (slotHashes : SlotHashes) (earliest : ℕ)
    (cursor : Cursor) : Prop where
  found : ∀ slot, Upcoming lockouts cursor slot → earliest ≤ slot →
    ∃ m hash, m < cursor.slotHashesIndex ∧ slotHashes[m]? = some (slot, hash)
  old : ∀ slot, Upcoming lockouts cursor slot → slot < earliest →
    cursor.slotHashesIndex = slotHashes.length

lemma Pending.upcoming {slot : ℕ} (h : Pending lockouts cursor slot) :
    Upcoming lockouts cursor slot := by
  rcases h with hroot | ⟨-, lockout, hget, hslot⟩
  · exact .inl hroot
  · exact .inr ⟨_, lockout, le_rfl, hget, hslot⟩

/-- If less is upcoming, all of it can still be found. -/
lemma Reachable.mono (h : Reachable lockouts slotHashes earliest cursor)
    (hupcoming : ∀ slot, Upcoming lockouts cursor' slot → Upcoming lockouts cursor slot)
    (hindex : cursor'.slotHashesIndex = cursor.slotHashesIndex) :
    Reachable lockouts slotHashes earliest cursor' where
  found slot hslot := by
    rw [hindex]
    exact h.found slot (hupcoming slot hslot)
  old slot hslot := by
    rw [hindex]
    exact h.old slot (hupcoming slot hslot)

/-- The loop can go on to a later hash if the upcoming slots are later than the current one. -/
lemma Reachable.next (hhistory : History slotHashes earliest)
    (h : Reachable lockouts slotHashes earliest cursor) {ancestor : ℕ}
    (hancestor : Ancestor slotHashes cursor ancestor)
    (hupcoming : ∀ slot, Upcoming lockouts cursor' slot →
      Upcoming lockouts cursor slot ∧ ancestor < slot)
    (hindex : cursor'.slotHashesIndex = cursor.slotHashesIndex - 1) :
    Reachable lockouts slotHashes earliest cursor' where
  found slot hslot hle := by
    obtain ⟨hslot, hlt⟩ := hupcoming slot hslot
    obtain ⟨m, hash, hm, hget⟩ := h.found slot hslot hle
    obtain ⟨hpos, hash', hget'⟩ := hancestor
    refine ⟨m, hash, ?_, hget⟩
    have hne : m ≠ cursor.slotHashesIndex - 1 := by
      rintro rfl
      cases hget.symm.trans hget'
      exact lt_irrefl _ hlt
    omega
  old slot hslot hlt := by
    have := (hupcoming slot hslot).2
    have := hhistory.earliest_le hancestor.mem
    omega

variable (hsorted : lockouts.Pairwise fun v w => v.slot < w.slot)
  (hroot : ∀ slot ∈ root, earliest < slot → ∀ lockout ∈ lockouts, slot ≤ lockout.slot)

include hsorted in
lemma slot_lt_of_lt {k m : ℕ} {v w : Lockout} (hlt : k < m) (hv : lockouts[k]? = some v)
    (hw : lockouts[m]? = some w) : v.slot < w.slot := by
  obtain ⟨hk, rfl⟩ := List.getElem?_eq_some_iff.mp hv
  obtain ⟨hm, rfl⟩ := List.getElem?_eq_some_iff.mp hw
  exact pairwise_iff_getElem.mp hsorted k m hk hm hlt

include hsorted hroot in
/-- A slot newer than the oldest hash that is checked next is the least upcoming one. -/
lemma Checked.le_upcoming (h : Checked voteState lockouts slotHashes earliest last root cursor)
    {slot slot' : ℕ} (hpending : Pending lockouts cursor slot) (hlt : earliest < slot)
    (hupcoming : Upcoming lockouts cursor slot') : slot ≤ slot' := by
  rcases hpending with hroot' | ⟨hnone, v, hv, rfl⟩
  · have heq : root = some slot := by
      rcases h.pending with hnone | ⟨heq, -⟩
      · cases hnone.symm.trans hroot'
      · exact heq.symm.trans hroot'
    rcases hupcoming with hslot' | ⟨k, w, -, hw, rfl⟩
    · exact (some.inj (hroot'.symm.trans hslot')).le
    · exact hroot slot heq hlt w (mem_of_getElem? hw)
  rcases hupcoming with hslot' | ⟨k, w, hk, hw, rfl⟩
  · cases hnone.symm.trans hslot'
  rcases hk.eq_or_lt with rfl | hlt
  · cases hv.symm.trans hw
    exact le_rfl
  · exact (slot_lt_of_lt hsorted hlt hv hw).le

include hsorted hroot in
/-- A round keeps the upcoming slots in reach. -/
theorem Reachable.advances (hhistory : History slotHashes earliest)
    (hchecked : Checked voteState lockouts slotHashes earliest last root cursor)
    (h : Reachable lockouts slotHashes earliest cursor)
    (hadvances : Advances voteState lockouts slotHashes earliest cursor cursor') :
    Reachable lockouts slotHashes earliest cursor' := by
  cases hadvances with
  | oldRoot => exact h.mono (fun _ hslot => .inr (hslot.resolve_left (by simp))) rfl
  | foundRoot => exact h.mono (fun _ hslot => .inr (hslot.resolve_left (by simp))) rfl
  | newer hpending hancestor hlt =>
    refine h.next hhistory hancestor (fun slot hslot => ⟨hslot, ?_⟩) rfl
    -- an ancestor below the slot shows that the slot is newer than the oldest hash
    have hnewer := (hhistory.earliest_le hancestor.mem).trans_lt hlt
    exact hlt.trans_le (hchecked.le_upcoming hsorted hroot hpending hnewer hslot)
  | oldSlot =>
    refine h.mono (fun slot hslot => ?_) rfl
    rcases hslot with hroot' | ⟨k, w, hk, hw, heq⟩
    · exact .inl hroot'
    · exact .inr ⟨k, w, (le_succ _).trans hk, hw, heq⟩
  | foundSlot hnone hget hprevious hancestor =>
    refine h.next hhistory hancestor (fun slot hslot => ?_) rfl
    rcases hslot with hroot' | ⟨k, w, hk, hw, rfl⟩
    · cases hnone.symm.trans hroot'
    · exact ⟨.inr ⟨k, w, (le_succ _).trans hk, hw, rfl⟩, slot_lt_of_lt hsorted hk hget hw⟩

include hsorted in
/-- While the upcoming slots are in reach, no round fails. -/
lemma Reachable.not_blocked (hhistory : History slotHashes earliest)
    (h : Reachable lockouts slotHashes earliest cursor) : ¬ Blocked lockouts slotHashes cursor := by
  intro hblocked
  cases hblocked with
  | notOrdered hpending hprevious hnone hle =>
    obtain ⟨hpos, v, hv, rfl⟩ := hprevious
    rcases hpending with hroot' | ⟨-, w, hw, rfl⟩
    · cases hnone.symm.trans hroot'
    · have := slot_lt_of_lt hsorted (sub_lt hpos one_pos) hv hw
      omega
  | notFound hpending hancestor hlt hne =>
    rcases lt_or_ge _ earliest with hold | hle
    · exact hne (h.old _ hpending.upcoming hold)
    obtain ⟨m, hash, hm, hget⟩ := h.found _ hpending.upcoming hle
    obtain ⟨hpos, hash', hget'⟩ := hancestor
    rcases lt_or_ge m (cursor.slotHashesIndex - 1) with hm' | hm'
    · obtain ⟨hm₁, heq₁⟩ := List.getElem?_eq_some_iff.mp hget
      obtain ⟨hm₂, heq₂⟩ := List.getElem?_eq_some_iff.mp hget'
      have hdesc := pairwise_iff_getElem.mp hhistory.descending _ _ hm₁ hm₂ hm'
      rw [heq₁, heq₂] at hdesc
      exact lt_asymm hlt hdesc
    · obtain rfl : m = cursor.slotHashesIndex - 1 := by omega
      cases hget.symm.trans hget'
      exact lt_irrefl _ hlt

omit hsorted hroot

lemma checked_start_of_last (hlastSlot : lockouts.getLast?.map slot = some last) :
    Checked voteState lockouts slotHashes earliest last root ⟨root, 0, slotHashes.length, []⟩ := by
  refine checked_start ?_
  rintro rfl
  cases hlastSlot

lemma start_lt_fuel : remainingRounds lockouts ⟨root, 0, slotHashes.length, []⟩ <
    lockouts.length + slotHashes.length + 2 := by
  have hroot : root.toList.length ≤ 1 := by
    cases root <;> simp
  simp only [remainingRounds]
  omega

section Runs
variable (hhistory : History slotHashes earliest)
  (hlastSlot : lockouts.getLast?.map slot = some last) (hle : earliest ≤ last)
include hhistory hlastSlot hle

/-- A loop that returns has passed its slots. -/
lemma checkLoop_ok (h : checkLoop voteState lockouts slotHashes earliest root = .ok cursor) :
    Checked voteState lockouts slotHashes earliest last root cursor :=
  (whileLoop_ok (Checked voteState lockouts slotHashes earliest last root)
    (fun _ _ hc hround => hc.advances hhistory hlastSlot hle
      (checkRound_outcome hc.hashes_le hhistory.earliest hround))
    (checked_start_of_last hlastSlot) h).1

/-- The loop does not panic. -/
lemma checkLoop_error {e : Failure}
    (h : checkLoop voteState lockouts slotHashes earliest root = .error e) :
    ∃ e', e = .vote e' := by
  obtain ⟨c, hc, herror⟩ := whileLoop_error
    (Checked voteState lockouts slotHashes earliest last root) (remainingRounds lockouts)
    (fun _ _ hc hround =>
      have hadvances := checkRound_outcome hc.hashes_le hhistory.earliest hround
      ⟨hc.advances hhistory hlastSlot hle hadvances, hadvances.remainingRounds_lt⟩)
    (checked_start_of_last hlastSlot) start_lt_fuel h
  exact (checkRound_outcome hc.hashes_le hhistory.earliest herror).1

/-- A loop whose slots can be found passes all of them. -/
lemma checkLoop_returns (voteState : VoteState)
    (hsorted : lockouts.Pairwise fun v w => v.slot < w.slot)
    (hroot : ∀ slot ∈ root, earliest < slot → ∀ lockout ∈ lockouts, slot ≤ lockout.slot)
    (hfound : ∀ slot, Upcoming lockouts ⟨root, 0, slotHashes.length, []⟩ slot → earliest ≤ slot →
      slot ∈ slotHashes.map Prod.fst) :
    ∃ cursor, checkLoop voteState lockouts slotHashes earliest root = .ok cursor ∧
      cursor.proposedLockoutsIndex = lockouts.length := by
  have hstart : Reachable lockouts slotHashes earliest ⟨root, 0, slotHashes.length, []⟩ := by
    refine ⟨fun slot hslot hle => ?_, fun _ _ _ => rfl⟩
    obtain ⟨⟨_, hash⟩, hmem, rfl⟩ := mem_map.mp (hfound slot hslot hle)
    obtain ⟨m, hm, hget⟩ := getElem_of_mem hmem
    exact ⟨m, hash, hm, List.getElem?_eq_some_iff.mpr ⟨hm, hget⟩⟩
  obtain ⟨c, hloop, ⟨hchecked, hreachable⟩, hover⟩ := whileLoop_returns
    (fun c => Checked voteState lockouts slotHashes earliest last root c ∧
      Reachable lockouts slotHashes earliest c) (remainingRounds lockouts)
    (fun _ _ hc hround =>
      have hadvances := checkRound_outcome hc.1.hashes_le hhistory.earliest hround
      ⟨⟨hc.1.advances hhistory hlastSlot hle hadvances,
        hc.2.advances hsorted hroot hhistory hc.1 hadvances⟩, hadvances.remainingRounds_lt⟩)
    (fun _ _ hc herror => hc.2.not_blocked hsorted hhistory
      (checkRound_outcome hc.1.hashes_le hhistory.earliest herror).2)
    ⟨checked_start_of_last hlastSlot, hstart⟩ start_lt_fuel
  refine ⟨c, hloop, ?_⟩
  rcases checkRound_outcome hchecked.hashes_le hhistory.earliest hover with hlen | hzero
  · exact le_antisymm hchecked.index_le hlen
  -- the last slot could not be found any more
  by_contra hne
  obtain ⟨lockout, hlast, rfl⟩ := map_eq_some_iff.mp hlastSlot
  rw [getLast?_eq_getElem?] at hlast
  have hlt := lt_of_le_of_ne hchecked.index_le hne
  obtain ⟨m, hash, hm, -⟩ := hreachable.found lockout.slot
    (.inr ⟨lockouts.length - 1, lockout, by omega, hlast, rfl⟩) hle
  omega

end Runs
end Loop

/-! ## The check -/

/-- What the check of a proposed vote state establishes; `root` is the root after it was
overwritten. -/
structure Passes (voteState : VoteState) (lockouts : List Lockout) (root : Option ℕ) (hash : Hash)
    (slotHashes : SlotHashes) (earliest : ℕ) (lastProposed : Lockout) : Prop where
  last : lockouts.getLast? = some lastProposed
  newer : ∀ slot ∈ voteState.lastVotedSlot, slot < lastProposed.slot
  hash : (lastProposed.slot, hash) ∈ slotHashes
  sorted : lockouts.Pairwise fun v w => v.slot < w.slot
  known : ∀ lockout ∈ lockouts, lockout.slot < earliest ∨ lockout.slot ∈ slotHashes.map Prod.fst
  root : ∀ slot ∈ root, slot < earliest ∨ slot ∈ slotHashes.map Prod.fst

section Check
variable {voteState : VoteState} {lockouts lockouts' : List Lockout} {slotHashes : SlotHashes}
  {earliest : ℕ} {root root' : Option ℕ} {hash : Hash} {lastProposed : Lockout}

/-- The check without its early exits. -/
lemma checkAndFilterProposedVoteState_eq (hlast : lockouts.getLast? = some lastProposed)
    (hnewer : ∀ slot ∈ voteState.lastVotedSlot, slot < lastProposed.slot)
    (hhistory : History slotHashes earliest) (hle : earliest ≤ lastProposed.slot) :
    checkAndFilterProposedVoteState voteState lockouts root hash slotHashes = do
      let cursor ← checkLoop voteState lockouts slotHashes earliest
        (voteState.overwriteRoot earliest root)
      let lockouts ← filterProposed lockouts lastProposed.slot hash slotHashes cursor
      return (lockouts, voteState.overwriteRoot earliest root) := by
  have hany : voteState.lastVotedSlot.any (lastProposed.slot ≤ ·) = false := by
    rw [Option.any_eq_false]
    exact fun slot hslot => decide_eq_false (hnewer slot hslot).not_ge
  obtain ⟨hash', hearliest⟩ := hhistory.earliest
  unfold checkAndFilterProposedVoteState
  simp [hlast, hany, hearliest, if_neg hle.not_gt]

/-- The check goes past its early exits, or fails at one of them. -/
lemma checkAndFilterProposedVoteState_cases (voteState : VoteState) (lockouts : List Lockout)
    (root : Option ℕ) (hash : Hash) (hdescending : slotHashes.Pairwise fun a b => b.1 < a.1) :
    (∃ e, checkAndFilterProposedVoteState voteState lockouts root hash slotHashes =
      .error (.vote e)) ∨
    ∃ lastProposed earliest, lockouts.getLast? = some lastProposed ∧
      (∀ slot ∈ voteState.lastVotedSlot, slot < lastProposed.slot) ∧
      History slotHashes earliest ∧ earliest ≤ lastProposed.slot := by
  cases hlast : lockouts.getLast? with
  | none => exact .inl ⟨.emptySlots, by simp [checkAndFilterProposedVoteState, hlast]⟩
  | some lastProposed =>
    by_cases hany : voteState.lastVotedSlot.any (lastProposed.slot ≤ ·)
    · exact .inl ⟨.voteTooOld, by simp [checkAndFilterProposedVoteState, hlast, hany]⟩
    cases hearliest : slotHashes.getLast? with
    | none =>
      exact .inl ⟨.slotsMismatch, by
        simp [checkAndFilterProposedVoteState, hlast, hany, hearliest]⟩
    | some entry =>
      obtain ⟨earliest, hash'⟩ := entry
      by_cases hlt : lastProposed.slot < earliest
      · exact .inl ⟨.voteTooOld, by
          simp [checkAndFilterProposedVoteState, hlast, hany, hearliest, hlt]⟩
      refine .inr ⟨lastProposed, earliest, rfl, fun slot hslot => ?_,
        ⟨hdescending, hash', hearliest⟩, not_lt.mp hlt⟩
      rw [Bool.not_eq_true, Option.any_eq_false] at hany
      exact not_le.mp (of_decide_eq_false (hany slot hslot))

/-- After the loop has passed all slots, the assertion holds and the hash is compared. -/
lemma filterProposed_of_checked (hash : Hash) {cursor : Cursor} {last : ℕ}
    (hchecked : Checked voteState lockouts slotHashes earliest last root cursor)
    (hlen : cursor.proposedLockoutsIndex = lockouts.length) :
    ∃ hash', (last, hash') ∈ slotHashes ∧ filterProposed lockouts last hash slotHashes cursor =
      if hash' = hash then
        .ok (lockouts.filter fun lockout => !isOld voteState earliest lockout)
      else .error (.vote .slotHashMismatch) := by
  obtain ⟨hash', hget⟩ := hchecked.last hlen
  refine ⟨hash', mem_of_getElem? hget, ?_⟩
  have hretain : retainLockouts cursor.indicesToFilter 0 lockouts =
      lockouts.filter fun lockout => !isOld voteState earliest lockout := by
    rw [hchecked.filtered, hlen, take_length, retainLockouts_oldIndices]
  unfold filterProposed
  simp [hlen, getAt, hget, hretain, bind, Except.bind]

section
variable (hdescending : slotHashes.Pairwise fun a b => b.1 < a.1)
include hdescending

/-- The check fails with an error, or passes. -/
lemma checkAndFilterProposedVoteState_outcome (voteState : VoteState) (lockouts : List Lockout)
    (root : Option ℕ) (hash : Hash) :
    (∃ e, checkAndFilterProposedVoteState voteState lockouts root hash slotHashes =
      .error (.vote e)) ∨
    ∃ earliest lastProposed, History slotHashes earliest ∧
      checkAndFilterProposedVoteState voteState lockouts root hash slotHashes =
        .ok (lockouts.filter (fun lockout => !isOld voteState earliest lockout),
          voteState.overwriteRoot earliest root) ∧
      Passes voteState lockouts (voteState.overwriteRoot earliest root) hash slotHashes earliest
        lastProposed := by
  rcases checkAndFilterProposedVoteState_cases voteState lockouts root hash hdescending with
    herror | ⟨lastProposed, earliest, hlast, hnewer, hhistory, hle⟩
  · exact .inl herror
  have hlastSlot := congrArg (Option.map slot) hlast
  rw [checkAndFilterProposedVoteState_eq hlast hnewer hhistory hle]
  cases hloop : checkLoop voteState lockouts slotHashes earliest
      (voteState.overwriteRoot earliest root) with
  | error e =>
    obtain ⟨e', rfl⟩ := checkLoop_error hhistory hlastSlot hle hloop
    exact .inl ⟨e', rfl⟩
  | ok cursor =>
    have hchecked := checkLoop_ok hhistory hlastSlot hle hloop
    by_cases hlen : cursor.proposedLockoutsIndex = lockouts.length
    swap
    · exact .inl ⟨.slotsMismatch, by simp only [bind, Except.bind, filterProposed, if_pos hlen]⟩
    obtain ⟨hash', hmem, hfilter⟩ := filterProposed_of_checked hash hchecked hlen
    simp only [bind, Except.bind, hfilter]
    by_cases hhash : hash' = hash
    swap
    · exact .inl ⟨.slotHashMismatch, by rw [if_neg hhash]⟩
    subst hhash
    rw [if_pos rfl]
    have hnone : cursor.rootToCheck = none := by
      rcases hchecked.pending with hnone | ⟨-, hzero⟩
      · exact hnone
      · rw [hzero] at hlen
        rw [eq_nil_of_length_eq_zero hlen.symm] at hlast
        cases hlast
    refine .inr ⟨earliest, lastProposed, hhistory, rfl, hlast, hnewer, hmem,
      hchecked.sorted hlen, fun lockout hmem => ?_, hchecked.root hnone⟩
    obtain ⟨k, hk, hget⟩ := getElem_of_mem hmem
    exact hchecked.known k lockout (hlen ▸ hk) (List.getElem?_eq_some_iff.mpr ⟨hk, hget⟩)

/-- The check fails with an error, it does not panic. -/
theorem checkAndFilterProposedVoteState_error {e : Failure}
    (h : checkAndFilterProposedVoteState voteState lockouts root hash slotHashes = .error e) :
    ∃ e', e = .vote e' := by
  rcases checkAndFilterProposedVoteState_outcome hdescending voteState lockouts root hash with
    ⟨e', heq⟩ | ⟨_, _, _, heq, _⟩
  · cases heq.symm.trans h
    exact ⟨e', rfl⟩
  · cases heq.symm.trans h

/-- A proposed vote state that passes the check. -/
theorem checkAndFilterProposedVoteState_ok
    (h : checkAndFilterProposedVoteState voteState lockouts root hash slotHashes =
      .ok (lockouts', root')) :
    ∃ earliest lastProposed, History slotHashes earliest ∧
      root' = voteState.overwriteRoot earliest root ∧
      lockouts' = lockouts.filter (fun lockout => !isOld voteState earliest lockout) ∧
      Passes voteState lockouts root' hash slotHashes earliest lastProposed := by
  rcases checkAndFilterProposedVoteState_outcome hdescending voteState lockouts root hash with
    ⟨e', heq⟩ | ⟨earliest, lastProposed, hhistory, heq, hpasses⟩
  · cases heq.symm.trans h
  · cases heq.symm.trans h
    exact ⟨earliest, lastProposed, hhistory, rfl, rfl, hpasses⟩

end

/-- The check passes a proposed vote state whose slots are not below a root newer than the oldest
hash. -/
theorem checkAndFilterProposedVoteState_returns (hhistory : History slotHashes earliest)
    (h : Passes voteState lockouts (voteState.overwriteRoot earliest root) hash slotHashes earliest
      lastProposed)
    (hroot : ∀ slot ∈ voteState.overwriteRoot earliest root, earliest < slot →
      ∀ lockout ∈ lockouts, slot ≤ lockout.slot) :
    checkAndFilterProposedVoteState voteState lockouts root hash slotHashes =
      .ok (lockouts.filter (fun lockout => !isOld voteState earliest lockout),
        voteState.overwriteRoot earliest root) := by
  have hle : earliest ≤ lastProposed.slot := hhistory.earliest_le (mem_map.mpr ⟨_, h.hash, rfl⟩)
  have hlastSlot := congrArg (Option.map slot) h.last
  obtain ⟨cursor, hloop, hlen⟩ := checkLoop_returns hhistory hlastSlot hle voteState
    h.sorted hroot fun slot hslot hle' => by
      rcases hslot with hslot | ⟨k, lockout, -, hget, rfl⟩
      · exact (h.root slot hslot).resolve_left hle'.not_gt
      · exact (h.known lockout (mem_of_getElem? hget)).resolve_left hle'.not_gt
  obtain ⟨hash', hmem, hfilter⟩ :=
    filterProposed_of_checked hash (checkLoop_ok hhistory hlastSlot hle hloop) hlen
  rw [if_pos (hash_eq hhistory.descending hmem h.hash)] at hfilter
  rw [checkAndFilterProposedVoteState_eq h.last h.newer hhistory hle, hloop]
  simp [bind, Except.bind, hfilter, pure, Except.pure]

/-- The last lockout is not filtered. -/
lemma Passes.getLast?_filter (hhistory : History slotHashes earliest)
    (h : Passes voteState lockouts root hash slotHashes earliest lastProposed) :
    (lockouts.filter fun lockout => !isOld voteState earliest lockout).getLast? =
      some lastProposed := by
  have hle : earliest ≤ lastProposed.slot := hhistory.earliest_le (mem_map.mpr ⟨_, h.hash, rfl⟩)
  have hnotOld : isOld voteState earliest lastProposed = false := by
    simp [isOld, hle.not_gt]
  obtain ⟨before, hbefore⟩ := getLast?_eq_some_iff.mp h.last
  rw [hbefore, filter_append]
  simp [hnotOld]

lemma containsSlot_iff {slot : ℕ} :
    voteState.containsSlot slot ↔ ∃ vote ∈ voteState.votes, vote.slot = slot := by
  simp [VoteState.containsSlot]

/-- An overwritten root is the root or a vote of the vote state. -/
lemma overwriteRoot_of_lt {slot : ℕ} (hlt : slot < earliest) :
    voteState.overwriteRoot earliest (some slot) = voteState.rootSlot ∨
      ∃ vote ∈ voteState.votes, voteState.overwriteRoot earliest (some slot) = some vote.slot := by
  simp only [VoteState.overwriteRoot, if_pos hlt]
  split
  · exact .inl rfl
  · next vote hfind =>
    exact .inr ⟨vote, mem_reverse.mp (mem_of_find?_eq_some hfind), rfl⟩

end Check

/-- The check never panics. What it accepts is ordered, known and ends with the proposed hash, and
its root is known. It accepts every newer vote state in the history whose slots are not below the
root as it was overwritten, where that root is newer than the oldest slot hash. -/
theorem checkAndFilterProposedVoteState_exact (voteState : VoteState) (lockouts : List Lockout)
    (root : Option ℕ) (hash : Hash) (slotHashes : SlotHashes)
    (hdescending : slotHashes.Pairwise fun a b => b.1 < a.1) :
    (∀ e, checkAndFilterProposedVoteState voteState lockouts root hash slotHashes = .error e →
      ∃ e', e = .vote e') ∧
    (∀ lockouts' root', checkAndFilterProposedVoteState voteState lockouts root hash slotHashes =
        .ok (lockouts', root') →
      lockouts' ≠ [] ∧ lockouts'.Pairwise (fun v w => v.slot < w.slot) ∧
      (∀ lockout ∈ lockouts', lockout.slot ∈ slotHashes.map Prod.fst ∨
        (∀ slot ∈ slotHashes.map Prod.fst, lockout.slot < slot) ∧
          ∃ vote ∈ voteState.votes, vote.slot = lockout.slot) ∧
      lockouts'.getLast? = lockouts.getLast? ∧
      (∀ last, lockouts.getLast? = some last → (last.slot, hash) ∈ slotHashes) ∧
      ∀ slot, root' = some slot → slot ∈ slotHashes.map Prod.fst ∨
        voteState.rootSlot = some slot ∨ ∃ vote ∈ voteState.votes, vote.slot = slot) ∧
    (∀ last earliest earliestHash, lockouts.getLast? = some last →
      slotHashes.getLast? = some (earliest, earliestHash) →
      (∀ slot, voteState.lastVotedSlot = some slot → slot < last.slot) →
      lockouts.Pairwise (fun v w => v.slot < w.slot) →
      (∀ slot, voteState.overwriteRoot earliest root = some slot → earliest < slot →
        ∀ lockout ∈ lockouts, slot ≤ lockout.slot) →
      (∀ lockout ∈ lockouts, earliest ≤ lockout.slot → lockout.slot ∈ slotHashes.map Prod.fst) →
      (∀ slot, voteState.overwriteRoot earliest root = some slot → earliest ≤ slot →
        slot ∈ slotHashes.map Prod.fst) →
      (last.slot, hash) ∈ slotHashes →
      ∃ result, checkAndFilterProposedVoteState voteState lockouts root hash slotHashes =
        .ok result) := by
  refine ⟨fun e => checkAndFilterProposedVoteState_error hdescending,
    fun lockouts' root' hok => ?_, ?_⟩
  · obtain ⟨earliest, lastProposed, hhistory, rfl, rfl, hpasses⟩ :=
      checkAndFilterProposedVoteState_ok hdescending hok
    have hlast := hpasses.getLast?_filter hhistory
    refine ⟨?_, hpasses.sorted.filter _, fun lockout hmem => ?_, hlast.trans hpasses.last.symm,
      ?_, fun slot hslot => ?_⟩
    · intro hnil
      rw [hnil] at hlast
      cases hlast
    · obtain ⟨hmem, hold⟩ := mem_filter.mp hmem
      rcases hpasses.known lockout hmem with hlt | hknown
      · have hvote : voteState.containsSlot lockout.slot := by
          simpa [isOld, hlt] using hold
        exact .inr ⟨fun slot hslot => hlt.trans_le (hhistory.earliest_le hslot),
          containsSlot_iff.mp hvote⟩
      · exact .inl hknown
    · intro last hlast'
      cases hpasses.last.symm.trans hlast'
      exact hpasses.hash
    rcases hpasses.root slot hslot with hlt | hknown
    · cases root with
      | none => cases hslot
      | some slot₀ =>
        by_cases hlt₀ : slot₀ < earliest
        · rcases overwriteRoot_of_lt hlt₀ with heq | ⟨vote, hvote, heq⟩
          · exact .inr (.inl (heq ▸ hslot))
          · exact .inr (.inr ⟨vote, hvote, some.inj (heq ▸ hslot)⟩)
        · rw [VoteState.overwriteRoot, if_neg hlt₀] at hslot
          cases hslot
          exact absurd hlt hlt₀
    · exact .inl hknown
  intro last earliest earliestHash hlast hearliest hnewer hsorted hroot hfound hrootFound hhash
  refine ⟨_, checkAndFilterProposedVoteState_returns ⟨hdescending, earliestHash, hearliest⟩
    ⟨hlast, hnewer, hhash, hsorted, fun lockout hmem => ?_, fun slot hslot => ?_⟩ hroot⟩
  · exact (lt_or_ge lockout.slot earliest).imp_right (hfound lockout hmem)
  · exact (lt_or_ge slot earliest).imp_right (hrootFound slot hslot)

/-- A vote for slot 11 above the root 10. -/
def rootedAtTen : VoteState := ⟨[⟨1, ⟨11, 1⟩⟩], some 10, [], ⟨0, 0⟩⟩

theorem checkAndFilterProposedVoteState_exact_rootedAtTen :
    checkAndFilterProposedVoteState rootedAtTen [⟨8, 2⟩, ⟨13, 1⟩] (some 5) 7 [(13, 7), (12, 5)] =
      .ok ([⟨13, 1⟩], some 10) ∧
    ∃ result, checkAndFilterProposedVoteState rootedAtTen [⟨8, 2⟩, ⟨13, 1⟩] (some 5) 7
      [(13, 7), (12, 5)] = .ok result :=
  ⟨by decide +kernel, (checkAndFilterProposedVoteState_exact rootedAtTen [⟨8, 2⟩, ⟨13, 1⟩]
    (some 5) 7 [(13, 7), (12, 5)] (by decide)).2.2 ⟨13, 1⟩ 12 5 (by decide) (by decide)
    (by decide) (by decide) (by decide) (by decide) (by decide) (by decide)⟩

/-- The slots are above the proposed root, but not above the root it is overwritten with. -/
theorem checkAndFilterProposedVoteState_belowOverwrittenRoot :
    rootedAtTen.toTowerVoteState.WellFormed ∧
    (∀ slot, rootedAtTen.lastVotedSlot = some slot → slot < 12) ∧
    [(⟨8, 2⟩ : Lockout), ⟨12, 1⟩].Pairwise (fun v w => v.slot < w.slot) ∧
    (∀ lockout ∈ [(⟨8, 2⟩ : Lockout), ⟨12, 1⟩], 5 < lockout.slot) ∧
    (∀ lockout ∈ [(⟨8, 2⟩ : Lockout), ⟨12, 1⟩], lockout.slot ∈ [12, 10, 8]) ∧
    rootedAtTen.overwriteRoot 8 (some 5) = some 10 ∧
    checkAndFilterProposedVoteState rootedAtTen [⟨8, 2⟩, ⟨12, 1⟩] (some 5) 7
      [(12, 7), (10, 3), (8, 1)] = .error (.vote .slotsMismatch) := by
  refine ⟨⟨⟨by decide, by decide, by decide, by decide, by decide, by decide⟩, by decide⟩,
    by decide,
    by decide, by decide, by decide, by decide, by decide +kernel⟩

end Trezoa.VoteProgram
