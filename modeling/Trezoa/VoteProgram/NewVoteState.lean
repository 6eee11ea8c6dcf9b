import Trezoa.VoteProgram.ProposedVoteState

/-!
# Replacing the vote state

`process_new_vote_state` of `programs/vote/src/vote_state/mod.rs`: the votes and the root of an
account are replaced by proposed ones, if these do not roll back a lockout.

* `lockouts_not_rolled_back`: the guarantee for the whole update.
-/

namespace Trezoa.VoteProgram

open Lib Consensus List LandedVote TowerVoteState

/-- The comparison of the new root with the current one. -/
def checkNewRoot (newRoot currentRoot : Option ℕ) : Except VoteError Unit :=
  match newRoot, currentRoot with
  | some newRoot, some currentRoot => if newRoot < currentRoot then .error .rootRollBack else .ok ()
  | none, some _ => .error .rootRollBack
  | _, _ => .ok ()

/-- The checks of a vote by itself. -/
def checkNewVote (newRoot : Option ℕ) (vote : LandedVote) : Except VoteError Unit :=
  if vote.confirmationCount = 0 then .error .zeroConfirmations
  else if maxLockoutHistory < vote.confirmationCount then .error .confirmationTooLarge
  else if newRoot.any fun newRoot => vote.slot ≤ newRoot && newRoot ≠ 0 then
    .error .slotSmallerThanRoot
  else .ok ()

/-- The checks of a vote against the one before it. -/
def checkNextVote (previousVote vote : LandedVote) : Except VoteError Unit :=
  if vote.slot ≤ previousVote.slot then .error .slotsNotOrdered
  else if previousVote.confirmationCount ≤ vote.confirmationCount then
    .error .confirmationsNotOrdered
  else if previousVote.lockout.lastLockedOutSlot < vote.slot then
    .error .newVoteStateLockoutMismatch
  else .ok ()

/-- The loop over the new votes. -/
def checkNewVotes (newRoot : Option ℕ) : Option LandedVote → List LandedVote → Except VoteError Unit
  | _, [] => .ok ()
  | previousVote, vote :: votes => do
    checkNewVote newRoot vote
    match previousVote with
    | none => .ok ()
    | some previousVote => checkNextVote previousVote vote
    checkNewVotes newRoot (some vote) votes

/-- The loop over the votes that are rooted: the index of the first vote above the new root, and the
credits that were earned. -/
def earnCredits (self : VoteState) (newRoot : ℕ) : List LandedVote → ℕ → ℕ → ℕ × ℕ
  | [], index, earnedCredits => (index, earnedCredits)
  | currentVote :: votes, index, earnedCredits =>
    if currentVote.slot ≤ newRoot then
      earnCredits self newRoot votes (index + 1) (earnedCredits + self.creditsForVoteAtIndex index)
    else (index, earnedCredits)

/-- The loop of `process_new_vote_state` for the new root. -/
def earnedByRoot (self : VoteState) : Option ℕ → ℕ × ℕ
  | none => (0, 0)
  | some newRoot => earnCredits self newRoot self.votes 0 0

/-- The variables of the comparison: the current votes from `current_vote_state_index` on, and the
new votes before and from `new_vote_state_index` on. -/
structure Merge where
  current : List LandedVote
  merged : List LandedVote
  rest : List LandedVote

/-- A round of the comparison. -/
def mergeRound (merge : Merge) : Except Failure (Option Merge) :=
  match merge.current, merge.rest with
  | currentVote :: current, newVote :: rest =>
    match compare currentVote.slot newVote.slot with
    | .lt =>
      if newVote.slot ≤ currentVote.lockout.lastLockedOutSlot then
        .error (.vote .lockoutConflict)
      else .ok (some { merge with current := current })
    | .eq =>
      if newVote.confirmationCount < currentVote.confirmationCount then
        .error (.vote .confirmationRollBack)
      else
        .ok (some ⟨current, merge.merged ++ [{ newVote with latency := currentVote.latency }],
          rest⟩)
    | .gt => .ok (some { merge with merged := merge.merged ++ [newVote], rest := rest })
  | _, _ => .ok none

/-- The comparison of the current votes above the new root with the new votes. -/
def mergeVotes (current newState : List LandedVote) : Except Failure (List LandedVote) := do
  let merge ← whileLoop mergeRound .outOfFuel (current.length + newState.length + 1)
    ⟨current, [], newState⟩
  return merge.merged ++ merge.rest

/-- A check as a part of an instruction. -/
def liftVote {α : Type} : Except VoteError α → Except Failure α
  | .error e => .error (.vote e)
  | .ok a => .ok a

/-- The part of `process_new_vote_state` that only reads: the earned credits and the new votes. -/
def checkNewVoteState (self : VoteState) (newState : List LandedVote) (newRoot : Option ℕ) :
    Except Failure (ℕ × List LandedVote) :=
  if newState = [] then .error .panic
  else if maxLockoutHistory < newState.length then .error (.vote .tooManyVotes)
  else do
    liftVote (checkNewRoot newRoot self.rootSlot)
    liftVote (checkNewVotes newRoot none newState)
    let earned := earnedByRoot self newRoot
    let newState ← mergeVotes (self.votes.drop earned.1) newState
    return (earned.2, newState)

/-- A vote that is new gets its latency. -/
def setLatency (currentSlot : ℕ) (newVote : LandedVote) : LandedVote :=
  if newVote.latency = 0 then
    { newVote with latency := computeVoteLatency newVote.slot currentSlot }
  else newVote

/-- The credits of `process_new_vote_state`. -/
def awardCredits (self : VoteState) (newRoot : Option ℕ) (epoch earnedCredits : ℕ) : VoteState :=
  if self.rootSlot ≠ newRoot then self.incrementCredits epoch earnedCredits else self

/-- The timestamp of `process_new_vote_state`. -/
def processNewTimestamp (self : VoteState) (newState : List LandedVote) :
    Option ℤ → Except VoteError VoteState
  | none => .ok self
  | some timestamp => self.processTimestamp ((newState.getLast?.map slot).getD 0) timestamp

/-- `process_new_vote_state`. With an error, the state is what is left of it. -/
def processNewVoteState (self : VoteState) (newState : List LandedVote) (newRoot : Option ℕ)
    (timestamp : Option ℤ) (epoch currentSlot : ℕ) : Except Failure Unit × VoteState :=
  match checkNewVoteState self newState newRoot with
  | .error e => (.error e, self)
  | .ok (earnedCredits, newState) =>
    let newState := newState.map (setLatency currentSlot)
    let self := awardCredits self newRoot epoch earnedCredits
    match processNewTimestamp self newState timestamp with
    | .error e => (.error (.vote e), self)
    | .ok self => (.ok (), { self with rootSlot := newRoot, votes := newState })

/-! ## The checks of the new votes -/

section Checks
variable {newRoot currentRoot : Option ℕ} {previousVote vote : LandedVote} {votes : List LandedVote}

lemma checkNewRoot_eq_ok : checkNewRoot newRoot currentRoot = .ok () ↔ currentRoot ≤ newRoot := by
  unfold checkNewRoot
  cases newRoot <;> cases currentRoot <;> simp

lemma checkNewVote_eq_ok : checkNewVote newRoot vote = .ok () ↔
    0 < vote.confirmationCount ∧ vote.confirmationCount ≤ maxLockoutHistory ∧
      ∀ root, newRoot = some root → root ≠ 0 → root < vote.slot := by
  unfold checkNewVote
  split_ifs with hzero hlarge hroot
  · simp [hzero]
  · simp [hlarge.not_ge]
  · obtain ⟨root, rfl, hcond⟩ := (Option.any_eq_true _ _).mp hroot
    simp at hcond
    simp [hcond.2, hcond.1.not_gt]
  · refine iff_of_true rfl ⟨Nat.pos_of_ne_zero hzero, not_lt.mp hlarge, fun root heq hne => ?_⟩
    subst heq
    simpa [hne] using hroot

/-- The order of two new votes. -/
def Follows (previousVote vote : LandedVote) : Prop :=
  previousVote.slot < vote.slot ∧ vote.confirmationCount < previousVote.confirmationCount ∧
    vote.slot ≤ previousVote.lockout.lastLockedOutSlot

lemma checkNextVote_eq_ok : checkNextVote previousVote vote = .ok () ↔
    Follows previousVote vote := by
  unfold checkNextVote Follows
  split_ifs with hslot hcount hlockout
  · simp [hslot.not_gt]
  · simp [hcount.not_gt]
  · simp [hlockout.not_ge]
  · exact iff_of_true rfl ⟨not_le.mp hslot, not_le.mp hcount, not_lt.mp hlockout⟩

lemma checkNewVotes_some_eq_ok : checkNewVotes newRoot (some previousVote) votes = .ok () ↔
    (∀ vote ∈ votes, checkNewVote newRoot vote = .ok ()) ∧
      (previousVote :: votes).IsChain Follows := by
  induction votes generalizing previousVote with
  | nil => simp [checkNewVotes]
  | cons vote votes ih =>
    rw [checkNewVotes, isChain_cons_cons, forall_mem_cons, ← checkNextVote_eq_ok,
      and_and_and_comm, ← ih, bind_eq_ok]
    simp only [bind_eq_ok]
    tauto

/-- Votes that follow each other have the order of a tower. -/
lemma isChain_follows_iff : votes.IsChain Follows ↔
    (votes.map lockout).Pairwise (fun v w => v.slot < w.slot) ∧
      (votes.map lockout).Pairwise (fun v w => w.confirmationCount < v.confirmationCount) ∧
      (votes.map lockout).IsChain fun v w => w.slot ≤ v.lastLockedOutSlot := by
  have hslots : IsTrans Lockout fun v w => v.slot < w.slot := ⟨fun _ _ _ => lt_trans⟩
  have hcounts : IsTrans Lockout fun v w => w.confirmationCount < v.confirmationCount :=
    ⟨fun _ _ _ h h' => lt_trans h' h⟩
  rw [← isChain_iff_pairwise, ← isChain_iff_pairwise, isChain_map, isChain_map, isChain_map]
  refine ⟨fun h => ⟨h.imp fun _ _ h => h.1, h.imp fun _ _ h => h.2.1, h.imp fun _ _ h => h.2.2⟩, ?_⟩
  rintro ⟨hslot, hcount, hnested⟩
  rw [isChain_iff_getElem] at hslot hcount hnested ⊢
  exact fun i hi => ⟨hslot i hi, hcount i hi, hnested i hi⟩

/-- The checks accept the votes of a well-formed tower. -/
theorem checkNewVotes_eq_ok (hlength : votes.length ≤ maxLockoutHistory) :
    checkNewVotes newRoot none votes = .ok () ↔
      TowerVoteState.WellFormed ⟨votes.map lockout, newRoot⟩ := by
  have hiff : checkNewVotes newRoot none votes = .ok () ↔
      (∀ vote ∈ votes, checkNewVote newRoot vote = .ok ()) ∧ votes.IsChain Follows := by
    cases votes with
    | nil => simp [checkNewVotes]
    | cons vote votes =>
      rw [checkNewVotes, forall_mem_cons, and_assoc, ← checkNewVotes_some_eq_ok, bind_eq_ok]
      exact ⟨fun ⟨_, h, h'⟩ => ⟨h, h'⟩, fun ⟨h, h'⟩ => ⟨(), h, h'⟩⟩
  rw [hiff, isChain_follows_iff]
  simp only [checkNewVote_eq_ok]
  constructor
  · rintro ⟨hvotes, hslots, hcounts, hnested⟩
    refine ⟨⟨hslots, hcounts, ?_, ?_, by rwa [length_map], hnested⟩, ?_⟩
    · exact forall_mem_map.mpr fun vote hvote => (hvotes vote hvote).1
    · exact forall_mem_map.mpr fun vote hvote => (hvotes vote hvote).2.1
    · exact fun root hroot hne =>
        forall_mem_map.mpr fun vote hvote => (hvotes vote hvote).2.2 root hroot hne
  intro h
  refine ⟨fun vote hvote => ?_, h.shape.slots, h.shape.confirmations, h.shape.nested⟩
  have hmem : vote.lockout ∈ votes.map lockout := mem_map_of_mem hvote
  exact ⟨h.shape.pos _ hmem, h.shape.le_max _ hmem,
    fun root hroot hne => h.above_root root hroot hne _ hmem⟩

end Checks

/-! ## The comparison with the current votes -/

section Merging
variable {merge merge' : Merge} {current newState : List LandedVote}

/-- A round that goes on. -/
inductive Merges (merge : Merge) : Merge → Prop where
  | expired {currentVote newVote : LandedVote} {current rest : List LandedVote} :
      merge.current = currentVote :: current → merge.rest = newVote :: rest →
      currentVote.slot < newVote.slot → currentVote.lockout.lastLockedOutSlot < newVote.slot →
      Merges merge { merge with current := current }
  | kept {currentVote newVote : LandedVote} {current rest : List LandedVote} :
      merge.current = currentVote :: current → merge.rest = newVote :: rest →
      currentVote.slot = newVote.slot → currentVote.confirmationCount ≤ newVote.confirmationCount →
      Merges merge
        ⟨current, merge.merged ++ [{ newVote with latency := currentVote.latency }], rest⟩
  | added {currentVote newVote : LandedVote} {current rest : List LandedVote} :
      merge.current = currentVote :: current → merge.rest = newVote :: rest →
      newVote.slot < currentVote.slot →
      Merges merge { merge with merged := merge.merged ++ [newVote], rest := rest }

/-- A round that fails: the new votes roll back a lockout. -/
inductive RollsBack (merge : Merge) : Prop where
  | lockout {currentVote newVote : LandedVote} {current rest : List LandedVote} :
      merge.current = currentVote :: current → merge.rest = newVote :: rest →
      currentVote.slot < newVote.slot → newVote.slot ≤ currentVote.lockout.lastLockedOutSlot →
      RollsBack merge
  | confirmations {currentVote newVote : LandedVote} {current rest : List LandedVote} :
      merge.current = currentVote :: current → merge.rest = newVote :: rest →
      currentVote.slot = newVote.slot → newVote.confirmationCount < currentVote.confirmationCount →
      RollsBack merge

/-- A round goes on, fails, or ends the comparison. -/
def MergeOutcome (merge : Merge) : Except Failure (Option Merge) → Prop
  | .ok none => merge.current = [] ∨ merge.rest = []
  | .ok (some merge') => Merges merge merge'
  | .error e => (∃ e', e = .vote e') ∧ RollsBack merge

theorem mergeRound_outcome {result : Except Failure (Option Merge)}
    (h : mergeRound merge = result) : MergeOutcome merge result := by
  subst h
  unfold mergeRound
  cases hcurrent : merge.current with
  | nil => exact .inl hcurrent
  | cons currentVote current =>
    cases hrest : merge.rest with
    | nil => exact .inr hrest
    | cons newVote rest =>
      rcases lt_trichotomy currentVote.slot newVote.slot with hlt | heq | hgt
      · simp only [compare_lt_iff_lt.mpr hlt]
        split_ifs with hle
        · exact ⟨⟨_, rfl⟩, .lockout hcurrent hrest hlt hle⟩
        · exact hrest ▸ Merges.expired hcurrent hrest hlt (not_le.mp hle)
      · simp only [compare_eq_iff_eq.mpr heq]
        split_ifs with hcount
        · exact ⟨⟨_, rfl⟩, .confirmations hcurrent hrest heq hcount⟩
        · exact Merges.kept hcurrent hrest heq (not_lt.mp hcount)
      · simp only [compare_gt_iff_gt.mpr hgt]
        exact hcurrent ▸ Merges.added hcurrent hrest hgt

/-- What becomes of a current vote: it is kept with its latency, or the next new vote is past its
lockout. -/
def Survives (newState : List LandedVote) (vote : LandedVote) (merged : List LandedVote) : Prop :=
  (∃ w ∈ merged, w.slot = vote.slot ∧ vote.confirmationCount ≤ w.confirmationCount ∧
    w.latency = vote.latency) ∨
  ∃ t ∈ newState.map lockout, vote.slot < t.slot ∧
    (∀ u ∈ newState.map lockout, vote.slot < u.slot → t.slot ≤ u.slot) ∧
      vote.lockout.lastLockedOutSlot < t.slot

lemma Survives.append {vote : LandedVote} {merged : List LandedVote}
    (h : Survives newState vote merged) (more : List LandedVote) :
    Survives newState vote (merged ++ more) := by
  refine h.imp_left ?_
  rintro ⟨w, hw, hkept⟩
  exact ⟨w, mem_append_left _ hw, hkept⟩

/-- What is known of the votes that were compared. -/
structure Merged (current newState : List LandedVote) (merge : Merge) : Prop where
  lockouts : (merge.merged ++ merge.rest).map lockout = newState.map lockout
  passed : ∀ w ∈ merge.merged, ∀ v ∈ merge.current, w.slot < v.slot
  done : ∃ done, current = done ++ merge.current ∧ ∀ v ∈ done, Survives newState v merge.merged

lemma merged_start : Merged current newState ⟨current, [], newState⟩ :=
  ⟨rfl, by simp, [], rfl, by simp⟩

lemma Merged.newVote_mem (h : Merged current newState merge) {newVote : LandedVote}
    {rest : List LandedVote} (hrest : merge.rest = newVote :: rest) :
    newVote.lockout ∈ newState.map lockout := by
  rw [← h.lockouts, hrest]
  simp

section Sorted
variable (hnew : (newState.map lockout).Pairwise fun v w => v.slot < w.slot)
include hnew

section
variable {newVote : LandedVote} {rest : List LandedVote} (h : Merged current newState merge)
  (hrest : merge.rest = newVote :: rest)
include h hrest

/-- The new votes before the next one are earlier, and those after it later. -/
lemma Merged.sorted :
    (∀ w ∈ merge.merged, w.slot < newVote.slot) ∧ ∀ w ∈ rest, newVote.slot < w.slot := by
  rw [← h.lockouts, pairwise_map, hrest, pairwise_append, pairwise_cons] at hnew
  exact ⟨fun w hw => hnew.2.2 w hw newVote (.head _), hnew.2.1.1⟩

/-- A new vote is one before the next one, the next one or one after it. -/
lemma Merged.mem_lockouts {u : Lockout} (hu : u ∈ newState.map lockout) :
    (∃ w ∈ merge.merged, w.slot = u.slot) ∨ u = newVote.lockout ∨ newVote.slot < u.slot := by
  rw [← h.lockouts, hrest, mem_map] at hu
  obtain ⟨w, hw, rfl⟩ := hu
  rcases mem_append.mp hw with hw | hw
  · exact .inl ⟨w, hw, rfl⟩
  · rcases mem_cons.mp hw with rfl | hw
    · exact .inr (.inl rfl)
    · exact .inr (.inr ((h.sorted hnew hrest).2 w hw))

end

/-- A round keeps what is known. -/
theorem Merged.merges (hcurrent : current.Pairwise fun v w => v.slot < w.slot)
    (h : Merged current newState merge) (hmerges : Merges merge merge') :
    Merged current newState merge' := by
  obtain ⟨done, hdone, hsurvives⟩ := h.done
  cases hmerges with
  | @expired currentVote newVote current' rest hcur hrest hlt hlast =>
    refine ⟨h.lockouts, fun w hw v hv => h.passed w hw v (hcur ▸ .tail _ hv),
      done ++ [currentVote], by rw [hdone, hcur]; simp, fun v hv => ?_⟩
    rcases mem_append.mp hv with hv | hv
    · exact hsurvives v hv
    rw [mem_singleton.mp hv]
    refine .inr ⟨newVote.lockout, h.newVote_mem hrest, hlt, fun u hu hslot => ?_, hlast⟩
    rcases h.mem_lockouts hnew hrest hu with ⟨w, hw, heq⟩ | rfl | hlater
    · have := h.passed w hw currentVote (hcur ▸ mem_cons_self)
      omega
    · exact le_rfl
    · exact hlater.le
  | @kept currentVote newVote current' rest hcur hrest heq hcount =>
    rw [hdone, hcur, pairwise_append, pairwise_cons] at hcurrent
    refine ⟨?_, fun w hw v hv => ?_, done ++ [currentVote], by rw [hdone, hcur]; simp,
      fun v hv => ?_⟩
    · rw [← h.lockouts, hrest]
      simp
    · rcases mem_append.mp hw with hw | hw
      · exact h.passed w hw v (hcur ▸ .tail _ hv)
      · rw [mem_singleton.mp hw]
        exact heq ▸ hcurrent.2.1.1 v hv
    · rcases mem_append.mp hv with hv | hv
      · exact (hsurvives v hv).append _
      · rw [mem_singleton.mp hv]
        exact .inl ⟨_, mem_append_right _ (mem_singleton_self _), heq.symm, hcount, rfl⟩
  | @added currentVote newVote current' rest hcur hrest hlt =>
    rw [hdone, hcur, pairwise_append, pairwise_cons] at hcurrent
    refine ⟨?_, fun w hw v hv => ?_, done, hdone, fun v hv => (hsurvives v hv).append _⟩
    · rw [← h.lockouts, hrest]
      simp
    rcases mem_append.mp hw with hw | hw
    · exact h.passed w hw v hv
    rw [mem_singleton.mp hw]
    have hv' : v ∈ currentVote :: current' := hcur ▸ hv
    rcases mem_cons.mp hv' with rfl | hv'
    · exact hlt
    · exact hlt.trans (hcurrent.2.1.1 v hv')

/-- A comparison that returns has dealt with every current vote, if there is a later new vote. -/
theorem mergeVotes_ok (hcurrent : current.Pairwise fun v w => v.slot < w.slot)
    (hlater : ∀ v ∈ current, ∃ w ∈ newState.map lockout, v.slot < w.slot)
    {result : List LandedVote} (h : mergeVotes current newState = .ok result) :
    result.map lockout = newState.map lockout ∧ ∀ v ∈ current, Survives newState v result := by
  obtain ⟨merge, hloop, heq⟩ := bind_eq_ok.mp h
  cases heq
  obtain ⟨hmerged, hover⟩ := whileLoop_ok (Merged current newState)
    (fun _ _ hmerged hround => hmerged.merges hnew hcurrent (mergeRound_outcome hround))
    merged_start hloop
  refine ⟨hmerged.lockouts, fun v hv => ?_⟩
  obtain ⟨done, hdone, hsurvives⟩ := hmerged.done
  rcases mem_append.mp (hdone ▸ hv) with hmem | hmem
  · exact (hsurvives v hmem).append _
  rcases mergeRound_outcome hover with hnil | hnil
  · rw [hnil] at hmem
    cases hmem
  -- all new votes were passed, so none is later
  · obtain ⟨u, hu, hlt⟩ := hlater v hv
    rw [← hmerged.lockouts, hnil, append_nil, mem_map] at hu
    obtain ⟨w, hw, rfl⟩ := hu
    exact absurd (hmerged.passed w hw v hmem) hlt.not_gt

omit hnew in
lemma Merges.length_lt (h : Merges merge merge') :
    merge'.current.length + merge'.rest.length < merge.current.length + merge.rest.length := by
  cases h with
  | expired hcurrent hrest => simp [hcurrent]
  | kept hcurrent hrest =>
    simp only [hcurrent, hrest, length_cons]
    omega
  | added hcurrent hrest => simp [hrest]

omit hnew in
/-- The comparison does not panic. -/
theorem mergeVotes_error {e : Failure} (h : mergeVotes current newState = .error e) :
    ∃ e', e = .vote e' := by
  obtain hloop | ⟨_, -, h⟩ := bind_eq_error.mp h
  · obtain ⟨merge, -, herror⟩ := whileLoop_error (fun _ => True)
      (fun merge => merge.current.length + merge.rest.length)
      (fun _ _ _ hround => ⟨trivial, (mergeRound_outcome hround).length_lt⟩) trivial
      (Nat.lt_succ_self _) hloop
    exact (mergeRound_outcome herror).1
  · cases h

/-- The comparison returns if no lockout is rolled back. -/
theorem mergeVotes_returns (hcurrent : current.Pairwise fun v w => v.slot < w.slot)
    (hkeeps : ∀ v ∈ current,
      (∃ w ∈ newState.map lockout, w.slot = v.slot ∧ v.confirmationCount ≤ w.confirmationCount) ∨
      ∀ w ∈ newState.map lockout,
        w.slot < v.slot ∨ v.slot < w.slot ∧ v.lockout.lastLockedOutSlot < w.slot) :
    ∃ result, mergeVotes current newState = .ok result := by
  have hok : ∀ merge e, Merged current newState merge → mergeRound merge ≠ .error e := by
    intro merge e hmerged herror
    have hmem : ∀ v, v ∈ merge.current → v ∈ current := by
      obtain ⟨done, hdone, -⟩ := hmerged.done
      exact fun v hv => hdone ▸ mem_append_right _ hv
    cases (mergeRound_outcome herror).2 with
    | @lockout currentVote newVote _ _ hcur hrest hlt hle =>
      have hcurMem : currentVote ∈ merge.current := hcur ▸ mem_cons_self
      rcases hkeeps currentVote (hmem _ hcurMem) with ⟨u, hu, hslot, -⟩ | hexpired
      · rcases hmerged.mem_lockouts hnew hrest hu with ⟨w, hw, heq⟩ | rfl | hlater
        · have := hmerged.passed w hw currentVote hcurMem
          omega
        · exact hlt.ne' hslot
        · omega
      · rcases hexpired _ (hmerged.newVote_mem hrest) with hbefore | ⟨-, hpast⟩
        · exact lt_asymm hlt hbefore
        · exact hpast.not_ge hle
    | @confirmations currentVote newVote _ _ hcur hrest heq hlt =>
      have hcurMem : currentVote ∈ merge.current := hcur ▸ mem_cons_self
      rcases hkeeps currentVote (hmem _ hcurMem) with ⟨u, hu, hslot, hcount⟩ | hexpired
      · rcases hmerged.mem_lockouts hnew hrest hu with ⟨w, hw, heq'⟩ | rfl | hlater
        · have := hmerged.passed w hw currentVote hcurMem
          omega
        · exact hlt.not_ge hcount
        · omega
      · rcases hexpired _ (hmerged.newVote_mem hrest) with hbefore | ⟨hafter, -⟩
        · exact hbefore.ne heq.symm
        · exact hafter.ne heq
  obtain ⟨merge, hloop, -⟩ := whileLoop_returns (Merged current newState)
    (fun merge => merge.current.length + merge.rest.length)
    (fun _ _ hmerged hround =>
      have hmerges := mergeRound_outcome hround
      ⟨hmerged.merges hnew hcurrent hmerges, hmerges.length_lt⟩)
    hok merged_start (Nat.lt_succ_self _)
  exact ⟨_, bind_eq_ok.mpr ⟨merge, hloop, rfl⟩⟩

end Sorted
end Merging

/-! ## The update -/

section Update
variable {self self' : VoteState} {newState : List LandedVote} {newRoot : Option ℕ}
  {timestamp : Option ℤ} {epoch currentSlot : ℕ}

/-- The current votes that are compared with the new ones. -/
def votesAbove (self : VoteState) (newRoot : Option ℕ) : List LandedVote :=
  match newRoot with
  | none => self.votes
  | some newRoot => self.votes.dropWhile (·.slot ≤ newRoot)

lemma earnCredits_index (root : ℕ) (votes : List LandedVote) (index credits : ℕ) :
    (earnCredits self root votes index credits).1 =
      index + (votes.takeWhile (·.slot ≤ root)).length := by
  induction votes generalizing index credits with
  | nil => rfl
  | cons vote votes ih =>
    by_cases hle : vote.slot ≤ root
    · rw [earnCredits, if_pos hle, ih, takeWhile_cons_of_pos (by simpa using hle),
        length_cons]
      omega
    · simp [earnCredits, hle]

lemma drop_earnedByRoot :
    self.votes.drop (earnedByRoot self newRoot).1 = votesAbove self newRoot := by
  cases newRoot with
  | none => rfl
  | some root =>
    rw [earnedByRoot, votesAbove, earnCredits_index, Nat.zero_add]
    induction self.votes with
    | nil => rfl
    | cons vote votes ih => by_cases hle : vote.slot ≤ root <;> simp [hle, ih]

/-- With ordered votes, the votes that are compared are those above the root. -/
lemma mem_votesAbove (hself : self.votes.Pairwise fun v w => v.slot < w.slot) {vote : LandedVote} :
    vote ∈ votesAbove self newRoot ↔
      vote ∈ self.votes ∧ ∀ root, newRoot = some root → root < vote.slot := by
  cases newRoot with
  | none => simp [votesAbove]
  | some root =>
    simp only [votesAbove, Option.some.injEq, forall_eq']
    generalize self.votes = votes at hself
    induction votes with
    | nil => simp
    | cons v votes ih =>
      obtain ⟨hv, hvotes⟩ := pairwise_cons.mp hself
      by_cases hle : v.slot ≤ root
      · rw [dropWhile_cons_of_pos (by simpa using hle), ih hvotes, mem_cons]
        refine ⟨fun h => ⟨.inr h.1, h.2⟩, ?_⟩
        rintro ⟨rfl | hmem, hlt⟩
        · exact absurd hle hlt.not_ge
        · exact ⟨hmem, hlt⟩
      rw [dropWhile_cons_of_neg (by simpa using hle)]
      refine ⟨fun hmem => ⟨hmem, ?_⟩, fun h => h.1⟩
      rcases mem_cons.mp hmem with rfl | hmem
      · exact not_le.mp hle
      · exact (not_le.mp hle).trans (hv vote hmem)

lemma votesAbove_sublist : (votesAbove self newRoot).Sublist self.votes := by
  cases newRoot with
  | none => exact List.Sublist.refl _
  | some root => exact dropWhile_sublist _

lemma lockout_setLatency (vote : LandedVote) :
    (setLatency currentSlot vote).lockout = vote.lockout := by
  unfold setLatency
  split <;> rfl

lemma map_lockout_setLatency (votes : List LandedVote) :
    (votes.map (setLatency currentSlot)).map lockout = votes.map lockout := by
  rw [map_map]
  exact map_congr_left fun vote _ => lockout_setLatency vote

lemma latency_setLatency {vote : LandedVote} (h : vote.latency ≠ 0) :
    (setLatency currentSlot vote).latency = vote.latency := by
  rw [setLatency, if_neg h]

lemma liftVote_eq_ok {α : Type} {x : Except VoteError α} {a : α} :
    liftVote x = .ok a ↔ x = .ok a := by
  cases x <;> simp [liftVote]

lemma liftVote_eq_error {α : Type} {x : Except VoteError α} {e : Failure}
    (h : liftVote x = .error e) : ∃ e', e = .vote e' := by
  cases x with
  | error e' =>
    cases h
    exact ⟨e', rfl⟩
  | ok a => cases h

/-- New votes pass the checks if they are those of a well-formed tower, the root does not decrease,
and the comparison returns. -/
theorem checkNewVoteState_eq_ok {earned : ℕ} {merged : List LandedVote} :
    checkNewVoteState self newState newRoot = .ok (earned, merged) ↔
      newState ≠ [] ∧ self.rootSlot ≤ newRoot ∧
        TowerVoteState.WellFormed ⟨newState.map lockout, newRoot⟩ ∧
        mergeVotes (votesAbove self newRoot) newState = .ok merged ∧
        earned = (earnedByRoot self newRoot).2 := by
  unfold checkNewVoteState
  by_cases hnil : newState = []
  · simp [hnil]
  rw [if_neg hnil]
  by_cases hlength : maxLockoutHistory < newState.length
  · rw [if_pos hlength]
    refine iff_of_false (by simp) ?_
    rintro ⟨-, -, hwf, -⟩
    have := hwf.shape.length_le
    rw [length_map] at this
    omega
  rw [if_neg hlength]
  rw [← checkNewRoot_eq_ok, ← checkNewVotes_eq_ok (not_lt.mp hlength)]
  simp only [bind_eq_ok, liftVote_eq_ok, drop_earnedByRoot, pure, Except.pure, Except.ok.injEq,
    Prod.mk.injEq]
  constructor
  · rintro ⟨_, hroot, _, hvotes, _, hmerge, rfl, rfl⟩
    exact ⟨hnil, hroot, hvotes, hmerge, rfl⟩
  · rintro ⟨-, hroot, hvotes, hmerge, rfl⟩
    exact ⟨(), hroot, (), hvotes, merged, hmerge, rfl, rfl⟩

/-- The checks do not panic on a non-empty list of votes. -/
lemma checkNewVoteState_error (hne : newState ≠ []) {e : Failure}
    (h : checkNewVoteState self newState newRoot = .error e) : ∃ e', e = .vote e' := by
  unfold checkNewVoteState at h
  rw [if_neg hne] at h
  split_ifs at h
  · cases h
    exact ⟨_, rfl⟩
  obtain hroot | ⟨_, -, h⟩ := bind_eq_error.mp h
  · exact liftVote_eq_error hroot
  obtain hvotes | ⟨_, -, h⟩ := bind_eq_error.mp h
  · exact liftVote_eq_error hvotes
  obtain hmerge | ⟨_, -, h⟩ := bind_eq_error.mp h
  · exact mergeVotes_error hmerge
  · cases h

lemma tower_awardCredits (earned : ℕ) :
    (awardCredits self newRoot epoch earned).toTowerVoteState = self.toTowerVoteState := by
  unfold awardCredits
  split
  · exact VoteState.toTowerVoteState_incrementCredits _ _
  · rfl

/-- An update that fails leaves votes and root as they were. -/
theorem processNewVoteState_error {e : Failure}
    (h : processNewVoteState self newState newRoot timestamp epoch currentSlot =
      (.error e, self')) :
    self'.toTowerVoteState = self.toTowerVoteState ∧ (newState ≠ [] → ∃ e', e = .vote e') := by
  unfold processNewVoteState at h
  cases hcheck : checkNewVoteState self newState newRoot with
  | error e' =>
    simp only [hcheck] at h
    cases h
    exact ⟨rfl, fun hne => checkNewVoteState_error hne hcheck⟩
  | ok checked =>
    obtain ⟨earned, merged⟩ := checked
    simp only [hcheck] at h
    split at h
    · cases h
      exact ⟨tower_awardCredits earned, fun _ => ⟨_, rfl⟩⟩
    · cases h

/-- An update that succeeds replaces votes and root. -/
theorem processNewVoteState_ok
    (h : processNewVoteState self newState newRoot timestamp epoch currentSlot = (.ok (), self')) :
    ∃ earned merged, checkNewVoteState self newState newRoot = .ok (earned, merged) ∧
      self'.votes = merged.map (setLatency currentSlot) ∧ self'.rootSlot = newRoot := by
  unfold processNewVoteState at h
  cases hcheck : checkNewVoteState self newState newRoot with
  | error e' =>
    simp only [hcheck] at h
    cases h
  | ok checked =>
    obtain ⟨earned, merged⟩ := checked
    simp only [hcheck] at h
    split at h
    · cases h
    · cases h
      exact ⟨earned, merged, rfl, rfl, rfl⟩

/-- Without a timestamp, an update whose checks pass succeeds. -/
theorem processNewVoteState_returns (epoch currentSlot : ℕ) {earned : ℕ} {merged : List LandedVote}
    (h : checkNewVoteState self newState newRoot = .ok (earned, merged)) :
    ∃ self', processNewVoteState self newState newRoot none epoch currentSlot = (.ok (), self') ∧
      self'.votes = merged.map (setLatency currentSlot) ∧ self'.rootSlot = newRoot := by
  unfold processNewVoteState
  simp only [h, processNewTimestamp]
  exact ⟨_, rfl, rfl, rfl⟩

end Update

/-! ## No lockout is rolled back -/

section Guarantee
variable {voteState voteState' : VoteState} {lockouts lockouts' : List Lockout}
  {root root' : Option ℕ} {hash : Hash} {slotHashes : SlotHashes} {timestamp : Option ℤ}
  {epoch slot : ℕ}

lemma map_lockout_ofLockout : (lockouts.map ofLockout).map lockout = lockouts := by
  rw [map_map]
  exact map_id lockouts

/-- The votes of a well-formed vote state are ordered. -/
lemma pairwise_votes (h : voteState.toTowerVoteState.WellFormed) :
    voteState.votes.Pairwise fun v w => v.slot < w.slot := by
  have hslots : (voteState.votes.map lockout).Pairwise fun v w => v.slot < w.slot := h.shape.slots
  rw [pairwise_map] at hslots
  exact hslots

/-- The votes are before the last one. -/
lemma vote_le_lastVotedSlot (h : voteState.toTowerVoteState.WellFormed) {vote : LandedVote}
    (hvote : vote ∈ voteState.votes) :
    ∃ last, voteState.lastVotedSlot = some last ∧ vote.slot ≤ last := by
  obtain ⟨last, hlast, hle⟩ := le_lastVotedSlot h.shape (mem_map_of_mem (f := lockout) hvote)
  exact ⟨last, VoteState.lastVotedSlot_toTowerVoteState ▸ hlast, hle⟩

/-- What an accepted proposal went through. -/
structure Accepted (voteState : VoteState) (lockouts' : List Lockout) (root' : Option ℕ) (slot : ℕ)
    (voteState' : VoteState) (merged : List LandedVote) : Prop where
  later : ∃ last, lockouts'.getLast? = some last ∧ ∀ v ∈ voteState.votes, v.slot < last.slot
  rootSlot_le : voteState.rootSlot ≤ root'
  wellFormed : TowerVoteState.WellFormed ⟨lockouts', root'⟩
  lockouts : merged.map lockout = lockouts'
  survives : ∀ v ∈ votesAbove voteState root', Survives (lockouts'.map ofLockout) v merged
  votes : voteState'.votes = merged.map (setLatency slot)
  rootSlot : voteState'.rootSlot = root'

/-- The new votes are the proposed lockouts. -/
lemma Accepted.toTowerVoteState {merged : List LandedVote}
    (h : Accepted voteState lockouts' root' slot voteState' merged) :
    voteState'.toTowerVoteState = ⟨lockouts', root'⟩ := by
  rw [VoteState.toTowerVoteState, h.votes, h.rootSlot, map_lockout_setLatency, h.lockouts]

lemma accepted_of_update (hwf : voteState.toTowerVoteState.WellFormed)
    (hdescending : slotHashes.Pairwise fun a b => b.1 < a.1)
    (hcheck : checkAndFilterProposedVoteState voteState lockouts root hash slotHashes =
      .ok (lockouts', root'))
    (hprocess : processNewVoteState voteState (lockouts'.map ofLockout) root' timestamp
      epoch slot = (.ok (), voteState')) :
    ∃ merged, Accepted voteState lockouts' root' slot voteState' merged := by
  obtain ⟨earliest, lastProposed, hhistory, -, rfl, hpasses⟩ :=
    checkAndFilterProposedVoteState_ok hdescending hcheck
  have hlast := hpasses.getLast?_filter hhistory
  have hlater : ∀ v ∈ voteState.votes, v.slot < lastProposed.slot := by
    intro v hv
    obtain ⟨last, hlast', hle⟩ := vote_le_lastVotedSlot hwf hv
    exact hle.trans_lt (hpasses.newer last hlast')
  obtain ⟨earned, merged, hnew, hvotes, hroot⟩ := processNewVoteState_ok hprocess
  obtain ⟨-, hle, hwf', hmerge, -⟩ := checkNewVoteState_eq_ok.mp hnew
  rw [map_lockout_ofLockout] at hwf'
  obtain ⟨hlockouts, hsurvives⟩ := mergeVotes_ok
    (by rw [map_lockout_ofLockout]; exact hwf'.shape.slots)
    ((pairwise_votes hwf).sublist votesAbove_sublist) (fun v hv => by
      rw [map_lockout_ofLockout]
      exact ⟨lastProposed, mem_of_getLast? hlast, hlater v (votesAbove_sublist.mem hv)⟩) hmerge
  rw [map_lockout_ofLockout] at hlockouts
  exact ⟨merged, ⟨lastProposed, hlast, hlater⟩, hle, hwf', hlockouts, hsurvives, hvotes, hroot⟩

end Guarantee

/-- If a proposed vote state passes the check and replaces the vote state, its last vote is later
than all current votes, the root does not decrease, and every current vote above the new root is
kept with at least its confirmations and its latency, or the next new vote is past its lockout. -/
theorem lockouts_not_rolled_back (voteState voteState' : VoteState)
    (lockouts lockouts' : List Lockout)
    (root root' : Option ℕ) (hash : Hash) (slotHashes : SlotHashes) (timestamp : Option ℤ)
    (epoch slot : ℕ) (hwf : voteState.toTowerVoteState.WellFormed)
    (hdescending : slotHashes.Pairwise fun a b => b.1 < a.1)
    (hcheck : checkAndFilterProposedVoteState voteState lockouts root hash slotHashes =
      .ok (lockouts', root'))
    (hprocess : processNewVoteState voteState (lockouts'.map ofLockout) root' timestamp
      epoch slot = (.ok (), voteState')) :
    (∃ last, voteState'.lastVotedSlot = some last ∧ ∀ v ∈ voteState.votes, v.slot < last) ∧
    voteState.rootSlot ≤ voteState'.rootSlot ∧
    ∀ v ∈ voteState.votes, (∀ r, voteState'.rootSlot = some r → r < v.slot) →
      (∃ w ∈ voteState'.votes, w.slot = v.slot ∧ v.confirmationCount ≤ w.confirmationCount ∧
        (v.latency ≠ 0 → w.latency = v.latency)) ∨
      ∃ t ∈ voteState'.votes, v.slot < t.slot ∧
        (∀ u ∈ voteState'.votes, v.slot < u.slot → t.slot ≤ u.slot) ∧
          v.lockout.lastLockedOutSlot < t.slot := by
  obtain ⟨merged, h⟩ := accepted_of_update hwf hdescending hcheck hprocess
  have htower := h.toTowerVoteState
  obtain ⟨last, hlast, hlater⟩ := h.later
  refine ⟨⟨last.slot, ?_, hlater⟩, h.rootSlot ▸ h.rootSlot_le, fun v hv habove => ?_⟩
  · rw [← VoteState.lastVotedSlot_toTowerVoteState, htower, lastVotedSlot,
      lastLockout, hlast]
    rfl
  -- the new votes are the proposed lockouts
  have hmem : ∀ u, u ∈ lockouts' ↔ ∃ w ∈ voteState'.votes, w.lockout = u := by
    intro u
    rw [← mem_map, show voteState'.votes.map lockout = lockouts' from congrArg votes htower]
  rcases h.survives v ((mem_votesAbove (pairwise_votes hwf)).mpr ⟨hv, h.rootSlot ▸ habove⟩) with
    ⟨w, hw, hslot, hcount, hlatency⟩ | ⟨t, ht, hlt, hnext, hpast⟩
  · have hlockout : (setLatency slot w).lockout = w.lockout := lockout_setLatency w
    refine .inl ⟨setLatency slot w, h.votes ▸ mem_map_of_mem hw, ?_, ?_, fun hne => ?_⟩
    · rw [LandedVote.slot, hlockout]
      exact hslot
    · rw [confirmationCount, confirmationCount, hlockout]
      exact hcount
    · rw [latency_setLatency (hlatency ▸ hne), hlatency]
  · rw [map_lockout_ofLockout] at ht hnext
    obtain ⟨t', ht', rfl⟩ := (hmem t).mp ht
    exact .inr ⟨t', ht', hlt, fun u hu hslot => hnext u.lockout ((hmem _).mpr ⟨u, hu, rfl⟩) hslot,
      hpast⟩

theorem lockouts_not_rolled_back_rootedAtTen :
    rootedAtTen.rootSlot ≤ some 10 ∧
    ∀ v ∈ rootedAtTen.votes, (∀ r, some 10 = some r → r < v.slot) →
      (∃ w ∈ [(⟨1, ⟨11, 2⟩⟩ : LandedVote), ⟨2, ⟨12, 1⟩⟩], w.slot = v.slot ∧
        v.confirmationCount ≤ w.confirmationCount ∧ (v.latency ≠ 0 → w.latency = v.latency)) ∨
      ∃ t ∈ [(⟨1, ⟨11, 2⟩⟩ : LandedVote), ⟨2, ⟨12, 1⟩⟩], v.slot < t.slot ∧
        (∀ u ∈ [(⟨1, ⟨11, 2⟩⟩ : LandedVote), ⟨2, ⟨12, 1⟩⟩], v.slot < u.slot → t.slot ≤ u.slot) ∧
          v.lockout.lastLockedOutSlot < t.slot :=
  (lockouts_not_rolled_back rootedAtTen
    ⟨[⟨1, ⟨11, 2⟩⟩, ⟨2, ⟨12, 1⟩⟩], some 10, [], ⟨0, 0⟩⟩ [⟨11, 2⟩, ⟨12, 1⟩] [⟨11, 2⟩, ⟨12, 1⟩]
    (some 10) (some 10) 7 [(12, 7), (11, 5), (10, 3)] none 0 14
    ⟨⟨by decide, by decide, by decide, by decide, by decide, by decide⟩, by decide⟩ (by decide)
    (by decide +kernel) (by decide +kernel)).2

end Trezoa.VoteProgram
