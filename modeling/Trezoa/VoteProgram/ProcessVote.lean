import Trezoa.VoteProgram.NewVoteState

/-!
# Votes of an account

The instructions of `programs/vote/src/vote_state/mod.rs` that change the votes of an account:
`process_vote` adds slots one by one, `do_process_vote_state_update` and `do_process_tower_sync`
replace the tower.

* `towers_wellFormed`: over any sequence of instructions.
* `processVote_exact`: which votes are accepted.
-/

namespace Trezoa.VoteProgram

open List Lib Consensus LandedVote TowerVoteState VoteState Option VoteProgram

structure Vote where
  slots : List ℕ
  hash : Hash

structure VoteStateUpdate where
  lockouts : List Lockout
  root : Option ℕ
  hash : Hash
  timestamp : Option ℤ

/-- `TowerSync`, without the block id. -/
structure TowerSync where
  lockouts : List Lockout
  root : Option ℕ
  hash : Hash
  timestamp : Option ℤ

/-- A round of the loop of `check_slots_are_valid`, on `i` and `j`. -/
def slotsRound (lastVotedSlot : Option ℕ) (voteSlots : List ℕ) (slotHashes : SlotHashes)
    (indices : ℕ × ℕ) : Except Failure (Option (ℕ × ℕ)) :=
  if indices.1 < voteSlots.length ∧ 0 < indices.2 then do
    let slot ← getAt voteSlots indices.1
    if lastVotedSlot.any (slot ≤ ·) then .ok (some (indices.1 + 1, indices.2))
    else do
      let ancestor ← getAt slotHashes (indices.2 - 1)
      if slot ≠ ancestor.1 then .ok (some (indices.1, indices.2 - 1))
      else .ok (some (indices.1 + 1, indices.2 - 1))
  else .ok none

/-- The checks of `check_slots_are_valid` after the loop. -/
def checkFound (voteSlots : List ℕ) (voteHash : Hash) (slotHashes : SlotHashes) (indices : ℕ × ℕ) :
    Except Failure Unit :=
  if indices.2 = slotHashes.length then .error (.vote .voteTooOld)
  else if indices.1 ≠ voteSlots.length then .error (.vote .slotsMismatch)
  else do
    let found ← getAt slotHashes indices.2
    if found.2 ≠ voteHash then .error (.vote .slotHashMismatch) else .ok ()

def checkSlotsAreValid (voteState : VoteState) (voteSlots : List ℕ) (voteHash : Hash)
    (slotHashes : SlotHashes) : Except Failure Unit := do
  let indices ← whileLoop (slotsRound voteState.lastVotedSlot voteSlots slotHashes) .outOfFuel
    (voteSlots.length + slotHashes.length + 1) (0, slotHashes.length)
  checkFound voteSlots voteHash slotHashes indices

def processVoteUnfiltered (voteState : VoteState) (voteSlots : List ℕ) (vote : Vote)
    (slotHashes : SlotHashes) (epoch currentSlot : ℕ) : Except Failure Unit × VoteState :=
  match checkSlotsAreValid voteState voteSlots vote.hash slotHashes with
  | .error e => (.error e, voteState)
  | .ok () =>
    (.ok (), voteSlots.foldl
      (fun voteState slot => voteState.processNextVoteSlot slot epoch currentSlot) voteState)

def processVote (voteState : VoteState) (vote : Vote) (slotHashes : SlotHashes)
    (epoch currentSlot : ℕ) : Except Failure Unit × VoteState :=
  if vote.slots = [] then (.error (.vote .emptySlots), voteState)
  else
    let earliestSlotInHistory := (slotHashes.getLast?.map Prod.fst).getD 0
    let voteSlots := vote.slots.filter (earliestSlotInHistory ≤ ·)
    if voteSlots = [] then (.error (.vote .votesTooOldAllFiltered), voteState)
    else processVoteUnfiltered voteState voteSlots vote slotHashes epoch currentSlot

/-- The body that `do_process_vote_state_update` and `do_process_tower_sync` share. -/
def checkAndProcess (voteState : VoteState) (slotHashes : SlotHashes) (epoch slot : ℕ)
    (lockouts : List Lockout) (root : Option ℕ) (hash : Hash) (timestamp : Option ℤ) :
    Except Failure Unit × VoteState :=
  match checkAndFilterProposedVoteState voteState lockouts root hash slotHashes with
  | .error e => (.error e, voteState)
  | .ok (lockouts, root) =>
    processNewVoteState voteState (lockouts.map ofLockout) root timestamp epoch slot

def doProcessVoteStateUpdate (voteState : VoteState) (slotHashes : SlotHashes) (epoch slot : ℕ)
    (voteStateUpdate : VoteStateUpdate) : Except Failure Unit × VoteState :=
  checkAndProcess voteState slotHashes epoch slot voteStateUpdate.lockouts voteStateUpdate.root
    voteStateUpdate.hash voteStateUpdate.timestamp

def doProcessTowerSync (voteState : VoteState) (slotHashes : SlotHashes) (epoch slot : ℕ)
    (towerSync : TowerSync) : Except Failure Unit × VoteState :=
  checkAndProcess voteState slotHashes epoch slot towerSync.lockouts towerSync.root towerSync.hash
    towerSync.timestamp

/-! ## Sequences of instructions -/

/-- The instructions that change votes. -/
inductive Instruction where
  | vote (vote : Vote)
  | updateVoteState (voteStateUpdate : VoteStateUpdate)
  | towerSync (towerSync : TowerSync)

/-- An instruction with the slot hashes and the clock it is processed with. -/
structure Call where
  instruction : Instruction
  slotHashes : SlotHashes
  epoch : ℕ
  slot : ℕ

/-- The effect of an instruction. -/
def call (voteState : VoteState) (c : Call) : Except Failure Unit × VoteState :=
  match c.instruction with
  | .vote vote => processVote voteState vote c.slotHashes c.epoch c.slot
  | .updateVoteState update => doProcessVoteStateUpdate voteState c.slotHashes c.epoch c.slot update
  | .towerSync towerSync => doProcessTowerSync voteState c.slotHashes c.epoch c.slot towerSync

/-- A sequence of instructions on an account without votes. -/
def run (calls : List Call) : VoteState :=
  calls.foldl (fun voteState c => (call voteState c).2) .new

/-- The slot hashes of a call are strictly descending. -/
def Call.Descending (c : Call) : Prop := c.slotHashes.Pairwise fun a b => b.1 < a.1

/-- A failure that is an error of the instruction, and not a panic. -/
def Returns (result : Except Failure Unit) : Prop := ∀ e, result = .error e → ∃ e', e = .vote e'

/-! ## Votes -/

section Votes
variable {voteState : VoteState} {voteSlots : List ℕ} {voteHash : Hash} {slotHashes : SlotHashes}
  {indices : ℕ × ℕ}

/-- The scan of `check_slots_are_valid` on lists, oldest hash first: the slots that are left and the
hashes that are passed. -/
def scan (last : Option ℕ) : List ℕ → List (ℕ × Hash) → List ℕ × List (ℕ × Hash)
  | [], _ => ([], [])
  | slot :: slots, [] => (slot :: slots, [])
  | slot :: slots, entry :: hashes =>
    if last.any (slot ≤ ·) then scan last slots (entry :: hashes)
    else if slot ≠ entry.1 then (scan last (slot :: slots) hashes).map id (entry :: ·)
    else (scan last slots hashes).map id (entry :: ·)
termination_by slots hashes => slots.length + hashes.length

/-- The slots that are newer than the last vote. -/
def newSlots (last : Option ℕ) (slots : List ℕ) : List ℕ :=
  slots.filter fun slot => !last.any (slot ≤ ·)

variable {last : Option ℕ} {slots : List ℕ} {hashes : SlotHashes}

/-- The loop is the scan of the slots from `i` on and the hashes before `j`. -/
lemma whileLoop_slotsRound {fuel : ℕ} (hfuel : slots.length + hashes.length ≤ fuel)
    (done : List ℕ) (passed : SlotHashes) :
    whileLoop (slotsRound last (done ++ slots) (hashes.reverse ++ passed)) .outOfFuel (fuel + 1)
        (done.length, hashes.length) =
      .ok ((done ++ slots).length - (scan last slots hashes).1.length,
        hashes.length - (scan last slots hashes).2.length) := by
  induction fuel generalizing slots done hashes passed with
  | zero =>
    obtain ⟨rfl, rfl⟩ : slots = [] ∧ hashes = [] := by simpa using hfuel
    simp [whileLoop, slotsRound, scan]
  | succ fuel ih =>
    rcases slots with _ | ⟨slot, slots⟩
    · simp [whileLoop, slotsRound, scan]
    rcases hashes with _ | ⟨entry, hashes⟩
    · simp [whileLoop, slotsRound, scan]
    rw [length_cons, length_cons] at hfuel
    have hslot : getAt (done ++ slot :: slots) done.length = .ok slot := by simp [getAt]
    have hentry : getAt ((entry :: hashes).reverse ++ passed) hashes.length = .ok entry := by
      simp [getAt]
    rw [whileLoop, slotsRound, if_pos (by simp), hslot, scan]
    simp only [bind, Except.bind, length_cons, Nat.add_sub_cancel, hentry]
    split_ifs
    · simpa using @ih slots (entry :: hashes) (by rw [length_cons]; omega) (done ++ [slot]) passed
    · simpa using @ih (slot :: slots) hashes (by rw [length_cons]; omega) done (entry :: passed)
    · simpa using @ih slots hashes (by omega) (done ++ [slot]) (entry :: passed)

/-- A scan without slots left has found the new ones among the hashes it has passed, the last one at
the end of them. -/
lemma scan_spec : (scan last slots hashes).1.length ≤ slots.length ∧
    (scan last slots hashes).2 <+: hashes ∧ ((scan last slots hashes).1 = [] →
      newSlots last slots <+ (scan last slots hashes).2.map Prod.fst ∧
      (newSlots last slots).getLast? = (scan last slots hashes).2.getLast?.map Prod.fst) := by
  fun_induction scan last slots hashes with
  | case1 hashes => exact ⟨le_rfl, nil_prefix, fun _ => ⟨.refl _, rfl⟩⟩
  | case2 slot slots => exact ⟨le_rfl, nil_prefix, nofun⟩
  | case3 slot slots entry hashes hold ih =>
    have hnew : newSlots last (slot :: slots) = newSlots last slots := by simp [newSlots, hold]
    exact ⟨ih.1.trans (Nat.le_succ _), hnew ▸ ih.2⟩
  | case4 slot slots entry hashes hold hne ih =>
    refine ⟨ih.1, (prefix_cons_inj _).mpr ih.2.1, fun hnil => ?_⟩
    obtain ⟨hsublist, hlast⟩ := ih.2.2 hnil
    -- the slot that is looked for is found later
    cases hpassed : (scan last (slot :: slots) hashes).2 with
    | nil => simp [newSlots, hold, hpassed] at hsublist
    | cons entry' passed =>
      simp only [Prod.map_snd, hpassed] at hsublist hlast ⊢
      exact ⟨hsublist.cons _, hlast⟩
  | case5 slot slots entry hashes hold heq ih =>
    refine ⟨Nat.le_succ_of_le ih.1, (prefix_cons_inj _).mpr ih.2.1, fun hnil => ?_⟩
    obtain ⟨hsublist, hlast⟩ := ih.2.2 hnil
    have hnew : newSlots last (slot :: slots) = entry.1 :: newSlots last slots := by
      simp [newSlots, hold, ← not_ne_iff.mp heq]
    rw [hnew, Prod.map_snd, getLast?_cons, getLast?_cons, hlast]
    refine ⟨hsublist.cons_cons _, ?_⟩
    cases (scan last slots hashes).2.getLast? <;> rfl

/-- A scan of increasing slots, a new one among them, finds the new ones if they have hashes. -/
lemma scan_complete (hslots : slots.Pairwise (· < ·))
    (hhashes : hashes.Pairwise fun a b => a.1 < b.1)
    (hmem : ∀ slot ∈ newSlots last slots, slot ∈ hashes.map Prod.fst)
    (hnew : newSlots last slots = [] → slots = []) : (scan last slots hashes).1 = [] := by
  fun_induction scan last slots hashes with
  | case1 hashes => rfl
  | case2 slot slots =>
    exact hnew (eq_nil_iff_forall_not_mem.mpr fun y hy => by simpa using hmem y hy)
  | case3 slot slots entry hashes hold ih =>
    have hskip : newSlots last (slot :: slots) = newSlots last slots := by simp [newSlots, hold]
    rw [hskip] at hmem hnew
    exact ih hslots.tail hhashes hmem fun hnil => by cases hnew hnil
  | case4 slot slots entry hashes hold hne ih =>
    obtain ⟨hentry, hhashes⟩ := pairwise_cons.mp hhashes
    have hnext (y : ℕ) (hy : y ∈ (entry :: hashes).map Prod.fst) (hne : y ≠ entry.1) :
        y ∈ hashes.map Prod.fst := (mem_cons.mp hy).resolve_left hne
    obtain ⟨found, hfound, rfl⟩ := mem_map.mp
      (hnext slot (hmem slot (mem_filter.mpr ⟨.head _, by simp [hold]⟩)) hne)
    refine ih hslots hhashes (fun y hy => hnext y (hmem y hy) ?_) hnew
    rcases mem_cons.mp (mem_of_mem_filter hy) with rfl | hy
    · exact hne
    · exact ((hentry found hfound).trans ((pairwise_cons.mp hslots).1 y hy)).ne'
  | case5 slot slots entry hashes hold heq ih =>
    obtain ⟨hlater, hslots⟩ := pairwise_cons.mp hslots
    -- what comes after a new slot is new
    have hall : newSlots last slots = slots := by
      refine filter_eq_self.mpr fun y hy => ?_
      have hlt := hlater y hy
      cases last with
      | none => rfl
      | some last =>
        simp only [any_some, decide_eq_true_eq, Bool.not_eq_true', decide_eq_false_iff_not]
          at hold ⊢
        omega
    rw [hall] at ih
    refine ih hslots hhashes.tail (fun y hy => (mem_cons.mp (hmem y ?_)).resolve_left ?_) id
    · exact mem_filter.mpr ⟨.tail _ hy, filter_eq_self.mp hall y hy⟩
    · exact not_ne_iff.mp heq ▸ (hlater y hy).ne'

/-- The check by the scan: a hash is passed, no slot is left, and the last hash is the vote's. -/
lemma checkSlotsAreValid_eq {left : List ℕ} {passed : SlotHashes}
    (hscan : scan voteState.lastVotedSlot voteSlots slotHashes.reverse = (left, passed)) :
    checkSlotsAreValid voteState voteSlots voteHash slotHashes =
      match passed.getLast? with
      | none => .error (.vote .voteTooOld)
      | some entry =>
        if left ≠ [] then .error (.vote .slotsMismatch)
        else if entry.2 ≠ voteHash then .error (.vote .slotHashMismatch) else .ok () := by
  obtain ⟨hle, hpassed, -⟩ := @scan_spec voteState.lastVotedSlot voteSlots slotHashes.reverse
  have hloop := @whileLoop_slotsRound voteState.lastVotedSlot voteSlots slotHashes.reverse
    (voteSlots.length + slotHashes.length) (by simp) [] []
  simp only [nil_append, reverse_reverse, append_nil, length_nil, length_reverse] at hloop
  rw [checkSlotsAreValid, hloop]
  rw [hscan] at hle hpassed ⊢
  obtain ⟨rest, hrest⟩ := hpassed
  obtain rfl : slotHashes = rest.reverse ++ passed.reverse := by
    rw [← reverse_append, hrest, reverse_reverse]
  change checkFound voteSlots voteHash _ (voteSlots.length - left.length, _ - passed.length) = _
  have hget : (rest.reverse ++ passed.reverse)[rest.length]? = passed.getLast? := by
    rw [getElem?_append_right (by simp), length_reverse, Nat.sub_self, ← head?_eq_getElem?,
      head?_reverse]
  rw [length_append, length_reverse, length_reverse, Nat.add_sub_cancel, checkFound, getAt, hget]
  cases hlast : passed.getLast? with
  | none => simp [getLast?_eq_none_iff.mp hlast]
  | some entry =>
    have hpos := length_pos_of_mem (mem_of_getLast? hlast)
    cases left with
    | nil => simp [bind, Except.bind, hpos.ne']
    | cons slot slots =>
      rw [length_cons] at hle
      simp [hpos.ne']
      omega

/-- `check_slots_are_valid` does not panic. -/
lemma checkSlotsAreValid_returns :
    Returns (checkSlotsAreValid voteState voteSlots voteHash slotHashes) := by
  rw [checkSlotsAreValid_eq rfl]
  intro e herror
  split at herror
  · cases herror
    exact ⟨_, rfl⟩
  split_ifs at herror
  · cases herror
    exact ⟨_, rfl⟩
  · cases herror
    exact ⟨_, rfl⟩

/-- The slots increase, all of them have hashes, and the last one has the given hash. -/
def MatchesHashes (slots : List ℕ) (hash : Hash) (slotHashes : SlotHashes) : Prop :=
  slots.Pairwise (· < ·) ∧ (∀ slot ∈ slots, slot ∈ slotHashes.map Prod.fst) ∧
    ∃ last, slots.getLast? = some last ∧ (last, hash) ∈ slotHashes

/-- The check accepts only new slots that match the hashes, and all such if the slots increase. -/
lemma checkSlotsAreValid_iff (hdescending : slotHashes.Pairwise fun a b => b.1 < a.1) :
    (checkSlotsAreValid voteState voteSlots voteHash slotHashes = .ok () →
      MatchesHashes (newSlots voteState.lastVotedSlot voteSlots) voteHash slotHashes) ∧
    (voteSlots.Pairwise (· < ·) →
      MatchesHashes (newSlots voteState.lastVotedSlot voteSlots) voteHash slotHashes →
      checkSlotsAreValid voteState voteSlots voteHash slotHashes = .ok ()) := by
  obtain ⟨-, hpassed, hfound⟩ := @scan_spec voteState.lastVotedSlot voteSlots slotHashes.reverse
  have hreverse := pairwise_reverse.mpr hdescending
  obtain ⟨⟨left, passed⟩, hscan⟩ :
    ∃ r, scan voteState.lastVotedSlot voteSlots slotHashes.reverse = r := ⟨_, rfl⟩
  rw [hscan] at hpassed hfound
  rw [checkSlotsAreValid_eq hscan]
  refine ⟨fun h => ?_, fun hslots ⟨_, hmem, last, hlast, hhash⟩ => ?_⟩
  · split at h
    · cases h
    next entry hlast =>
    split_ifs at h with hleft hhash
    obtain ⟨hsub, hlast'⟩ := hfound (not_ne_iff.mp hleft)
    have hsublist := hsub.trans (hpassed.sublist.map Prod.fst)
    refine ⟨(pairwise_map.mpr hreverse).sublist hsublist, fun slot hslot => ?_,
      entry.1, by rw [hlast', hlast]; rfl, ?_⟩
    · rw [← mem_reverse, ← map_reverse]
      exact hsublist.subset hslot
    · rw [← not_ne_iff.mp hhash]
      exact mem_reverse.mp (hpassed.subset (mem_of_getLast? hlast))
  have hleft := scan_complete hslots hreverse
    (fun slot hslot => by rw [map_reverse, mem_reverse]; exact hmem slot hslot)
    fun hnil => by rw [hnil] at hlast; cases hlast
  rw [hscan] at hleft
  obtain rfl : left = [] := hleft
  rw [hlast] at hfound
  obtain ⟨entry, hentry, rfl⟩ := map_eq_some_iff.mp (hfound rfl).2.symm
  have hin := mem_reverse.mp (hpassed.subset (mem_of_getLast? hentry))
  simp [hentry, hash_eq hdescending hin hhash]

/-- The slots in the tower, the root included. -/
def towerSlots (voteState : VoteState) : List ℕ :=
  voteState.votes.map (·.slot) ++ voteState.rootSlot.toList

variable {slot epoch currentSlot : ℕ}

lemma towerSlots_rootOldest : towerSlots (voteState.rootOldest epoch) ⊆ towerSlots voteState := by
  intro y hy
  unfold VoteState.rootOldest at hy
  split_ifs at hy
  · split at hy
    · exact hy
    next vote votes hvotes =>
    simp only [towerSlots, incrementCredits, toList_some, mem_append, mem_singleton] at hy
    rw [towerSlots, hvotes, map_cons, cons_append]
    rcases hy with hy | rfl
    · exact .tail _ (mem_append_left _ hy)
    · exact .head _
  · exact hy

/-- A vote for a new slot puts it on top of slots that were there. -/
lemma towerSlots_processNextVoteSlot (hnew : ¬voteState.lastVotedSlot.any (slot ≤ ·)) :
    (voteState.processNextVoteSlot slot epoch currentSlot).lastVotedSlot = some slot ∧
      towerSlots (voteState.processNextVoteSlot slot epoch currentSlot) ⊆
        slot :: towerSlots voteState := by
  have hpop : towerSlots (voteState.popExpiredVotes slot) ⊆ towerSlots voteState :=
    rdropWhile_prefix _ _ |>.sublist.map _ |>.append_right _ |>.subset
  have hdouble (voteState : VoteState) :
      voteState.doubleLockouts.votes.map (·.slot) = voteState.votes.map (·.slot) := by
    unfold VoteState.doubleLockouts VoteProgram.doubleLockouts
    refine ext_getElem (by simp) fun i _ _ => ?_
    simp only [getElem_map, getElem_mapIdx]
    split <;> rfl
  have hlast (voteState : VoteState) :
      voteState.lastVotedSlot = (voteState.votes.map (·.slot)).getLast? := by
    rw [VoteState.lastVotedSlot, VoteState.lastLockout, getLast?_map, Option.map_map]
    rfl
  rw [VoteState.processNextVoteSlot, if_neg hnew]
  refine ⟨by rw [hlast, hdouble]; simp [LandedVote.slot, Lockout.new], fun y hy => ?_⟩
  rw [towerSlots, hdouble, map_append, append_assoc, mem_append, mem_append] at hy
  rcases hy with hy | hy | hy
  · exact .tail _ (hpop (towerSlots_rootOldest (mem_append_left _ hy)))
  · exact mem_cons.mpr (.inl (mem_singleton.mp hy))
  · exact .tail _ (hpop (towerSlots_rootOldest (mem_append_right _ hy)))

/-- Votes put only new slots into the tower. -/
lemma towerSlots_foldl
    (hlast : ∀ s, last.any (s ≤ ·) → voteState.lastVotedSlot.any (s ≤ ·)) :
    towerSlots (slots.foldl
        (fun voteState slot => voteState.processNextVoteSlot slot epoch currentSlot) voteState) ⊆
      towerSlots voteState ++ newSlots last slots := by
  induction slots generalizing voteState with
  | nil => exact subset_append_left _ _
  | cons slot slots ih =>
    intro y hy
    by_cases hold : voteState.lastVotedSlot.any (slot ≤ ·)
    · rw [foldl_cons, VoteState.processNextVoteSlot, if_pos hold] at hy
      refine (mem_append.mp (ih hlast hy)).elim (mem_append_left _) fun hy => mem_append_right _ ?_
      exact ((sublist_cons_self _ _).filter _).subset hy
    obtain ⟨hslot, hadded⟩ := @towerSlots_processNextVoteSlot _ slot epoch currentSlot hold
    have hnew : slot ∈ newSlots last (slot :: slots) :=
      mem_filter.mpr ⟨.head _, by simpa using fun h => hold (hlast slot h)⟩
    have hnext (s : ℕ) (hs : last.any (s ≤ ·)) :
        (voteState.processNextVoteSlot slot epoch currentSlot).lastVotedSlot.any (s ≤ ·) := by
      have hle := hlast s hs
      cases hvoted : voteState.lastVotedSlot with
      | none => simp [hvoted] at hle
      | some voted =>
        simp only [hvoted, hslot, any_some, decide_eq_true_eq] at hold hle ⊢
        omega
    rcases mem_append.mp (ih hnext hy) with hy | hy
    · rcases mem_cons.mp (hadded hy) with rfl | hy
      · exact mem_append_right _ hnew
      · exact mem_append_left _ hy
    · exact mem_append_right _ (((sublist_cons_self _ _).filter _).subset hy)

/-- `process_vote` fails without an effect or votes for the slots that pass the check. -/
lemma processVote_cases (voteState : VoteState) (vote : Vote) (slotHashes : SlotHashes)
    (epoch currentSlot : ℕ) :
    let voteSlots := vote.slots.filter ((slotHashes.getLast?.map Prod.fst).getD 0 ≤ ·)
    (∃ e, processVote voteState vote slotHashes epoch currentSlot = (.error (.vote e), voteState) ∧
      (voteSlots = [] ∨ checkSlotsAreValid voteState voteSlots vote.hash slotHashes ≠ .ok ())) ∨
    processVote voteState vote slotHashes epoch currentSlot = (.ok (), voteSlots.foldl
      (fun voteState slot => voteState.processNextVoteSlot slot epoch currentSlot) voteState) ∧
      checkSlotsAreValid voteState voteSlots vote.hash slotHashes = .ok () := by
  intro voteSlots
  by_cases hempty : vote.slots = []
  · exact .inl ⟨_, if_pos hempty, .inl (by simp [voteSlots, hempty])⟩
  by_cases hold : voteSlots = []
  · exact .inl ⟨_, (if_neg hempty).trans (if_pos hold), .inl hold⟩
  have hresult : processVote voteState vote slotHashes epoch currentSlot =
      processVoteUnfiltered voteState voteSlots vote slotHashes epoch currentSlot :=
    (if_neg hempty).trans (if_neg hold)
  rw [hresult, processVoteUnfiltered]
  cases hcheck : checkSlotsAreValid voteState voteSlots vote.hash slotHashes with
  | error e =>
    obtain ⟨e, rfl⟩ := checkSlotsAreValid_returns e hcheck
    exact .inl ⟨e, rfl, .inr nofun⟩
  | ok _ => exact .inr ⟨rfl, rfl⟩

end Votes

/-! ## Steps -/

/-- The tower is well formed, and it has a vote if it has a root. -/
structure Grounded (voteState : VoteState) : Prop where
  wellFormed : voteState.toTowerVoteState.WellFormed
  voted : ∀ root, voteState.rootSlot = some root → voteState.votes ≠ []

/-- Neither the root nor the last voted slot decreases. -/
def Progresses (voteState voteState' : VoteState) : Prop :=
  voteState.rootSlot ≤ voteState'.rootSlot ∧ voteState.lastVotedSlot ≤ voteState'.lastVotedSlot

section Steps
variable {voteState voteState' voteState'' : VoteState} {slotHashes : SlotHashes}
  {epoch currentSlot : ℕ}

lemma Progresses.refl (voteState : VoteState) : Progresses voteState voteState :=
  ⟨option_le_refl _, option_le_refl _⟩

lemma Progresses.trans (h : Progresses voteState voteState')
    (h' : Progresses voteState' voteState'') : Progresses voteState voteState'' :=
  ⟨option_le_trans h.1 h'.1, option_le_trans h.2 h'.2⟩

/-- Only votes and root count. -/
lemma Grounded.of_tower (h : Grounded voteState)
    (htower : voteState'.toTowerVoteState = voteState.toTowerVoteState) :
    Grounded voteState' ∧ Progresses voteState voteState' := by
  have hvotes : voteState'.votes.map lockout = voteState.votes.map lockout :=
    congrArg TowerVoteState.votes htower
  have hroot : voteState'.rootSlot = voteState.rootSlot := congrArg TowerVoteState.rootSlot htower
  have hlast : voteState'.lastVotedSlot = voteState.lastVotedSlot := by
    rw [← lastVotedSlot_toTowerVoteState, htower, lastVotedSlot_toTowerVoteState]
  refine ⟨⟨htower ▸ h.wellFormed, fun root hroot' hnil => ?_⟩, ?_, ?_⟩
  · rw [hnil, map_nil, eq_comm, map_eq_nil_iff] at hvotes
    exact h.voted root (hroot ▸ hroot') hvotes
  · rw [hroot]
    exact option_le_refl _
  · rw [hlast]
    exact option_le_refl _

/-- A vote for one slot. -/
lemma Grounded.processNextVoteSlot (h : Grounded voteState) (slot epoch currentSlot : ℕ) :
    Grounded (voteState.processNextVoteSlot slot epoch currentSlot) ∧
      Progresses voteState (voteState.processNextVoteSlot slot epoch currentSlot) := by
  have htower : (voteState.processNextVoteSlot slot epoch currentSlot).toTowerVoteState =
      voteState.toTowerVoteState.processNextVoteSlot slot :=
    toTowerVoteState_processNextVoteSlot epoch currentSlot
  by_cases hlast : ∀ last ∈ voteState.toTowerVoteState.lastVotedSlot, last < slot
  · obtain ⟨rooted, kept, expired, hvoted⟩ :=
      TowerVoteState.voted h.wellFormed.shape.length_le hlast
    rw [← htower] at hvoted
    have hslot := hvoted.lastVotedSlot
    refine ⟨⟨?_, fun root _ hnil => ?_⟩, hvoted.rootSlot_le h.wellFormed, ?_⟩
    · rw [htower]
      refine h.wellFormed.processNextVoteSlot fun root hroot _ hnil => ?_
      exact absurd (map_eq_nil_iff.mp hnil) (h.voted root hroot)
    · rw [VoteState.lastVotedSlot_toTowerVoteState, VoteState.lastVotedSlot, VoteState.lastLockout,
        hnil] at hslot
      cases hslot
    rw [lastVotedSlot_toTowerVoteState] at hslot hlast
    rw [hslot]
    cases hlast' : voteState.lastVotedSlot with
    | none => exact none_le
    | some last => exact some_le_some.mpr (hlast last hlast').le
  · push Not at hlast
    obtain ⟨last, hlast, hle⟩ := hlast
    rw [processNextVoteSlot_of_le hlast hle] at htower
    exact h.of_tower htower

lemma Grounded.foldl_processNextVoteSlot (h : Grounded voteState) (slots : List ℕ) :
    Grounded (slots.foldl
        (fun voteState slot => voteState.processNextVoteSlot slot epoch currentSlot) voteState) ∧
      Progresses voteState (slots.foldl
        (fun voteState slot => voteState.processNextVoteSlot slot epoch currentSlot)
        voteState) := by
  induction slots generalizing voteState with
  | nil => exact ⟨h, Progresses.refl voteState⟩
  | cons slot slots ih =>
    obtain ⟨h₁, hprogresses₁⟩ := h.processNextVoteSlot slot epoch currentSlot
    obtain ⟨h₂, hprogresses₂⟩ := ih h₁
    exact ⟨h₂, hprogresses₁.trans hprogresses₂⟩

/-- What an instruction keeps. -/
def Keeps (voteState : VoteState) (result : Except Failure Unit × VoteState) : Prop :=
  Returns result.1 ∧ Grounded result.2 ∧ Progresses voteState result.2

section
variable (h : Grounded voteState)
include h

/-- An error without an effect. -/
lemma Grounded.keeps_error {e : Failure} (he : ∃ e', e = .vote e') :
    Keeps voteState (.error e, voteState) := by
  refine ⟨?_, h, Progresses.refl voteState⟩
  rintro _ ⟨⟩
  exact he

lemma Grounded.processVote (vote : Vote) :
    Keeps voteState (processVote voteState vote slotHashes epoch currentSlot) := by
  obtain ⟨e, hresult, -⟩ | ⟨hresult, -⟩ :=
    processVote_cases voteState vote slotHashes epoch currentSlot
  · rw [hresult]
    exact h.keeps_error ⟨e, rfl⟩
  · rw [hresult]
    refine ⟨fun e herror => ?_, h.foldl_processNextVoteSlot _⟩
    cases herror

lemma Grounded.checkAndProcess
    (hdescending : slotHashes.Pairwise fun a b => b.1 < a.1) (lockouts : List Lockout)
    (root : Option ℕ) (hash : Hash) (timestamp : Option ℤ) :
    Keeps voteState (checkAndProcess voteState slotHashes epoch currentSlot lockouts root
      hash timestamp) := by
  unfold VoteProgram.checkAndProcess
  split
  · next e herror =>
    exact h.keeps_error (checkAndFilterProposedVoteState_error hdescending herror)
  next lockouts' root' hcheck =>
  have hne : lockouts'.map ofLockout ≠ [] := by
    obtain ⟨earliest, lastProposed, hhistory, -, rfl, hpasses⟩ :=
      checkAndFilterProposedVoteState_ok hdescending hcheck
    rw [ne_eq, map_eq_nil_iff]
    intro hnil
    have hlast := hpasses.getLast?_filter hhistory
    rw [hnil] at hlast
    cases hlast
  obtain ⟨result, voteState', hprocess⟩ : ∃ result voteState', processNewVoteState voteState
      (lockouts'.map ofLockout) root' timestamp epoch currentSlot =
        (result, voteState') := ⟨_, _, rfl⟩
  rw [hprocess]
  cases result with
  | error e =>
    obtain ⟨htower, herror⟩ := processNewVoteState_error hprocess
    refine ⟨?_, h.of_tower htower⟩
    rintro _ ⟨⟩
    exact herror hne
  | ok _ =>
    obtain ⟨merged, haccepted⟩ := accepted_of_update h.wellFormed hdescending hcheck hprocess
    have htower := haccepted.toTowerVoteState
    obtain ⟨last, hlast, hlater⟩ := haccepted.later
    have hlast' : voteState'.lastVotedSlot = some last.slot := by
      rw [← VoteState.lastVotedSlot_toTowerVoteState, htower, TowerVoteState.lastVotedSlot,
        TowerVoteState.lastLockout, hlast]
      rfl
    refine ⟨fun e herror => ?_, ⟨htower ▸ haccepted.wellFormed, fun root _ hnil => ?_⟩,
      haccepted.rootSlot ▸ haccepted.rootSlot_le, ?_⟩
    · cases herror
    · rw [VoteState.lastVotedSlot, VoteState.lastLockout, hnil] at hlast'
      cases hlast'
    rw [hlast']
    cases hold : voteState.lastVotedSlot with
    | none => exact none_le
    | some slot =>
      obtain ⟨lockout, hlockout, rfl⟩ := map_eq_some_iff.mp hold
      obtain ⟨vote, hvote, rfl⟩ := map_eq_some_iff.mp hlockout
      exact some_le_some.mpr (hlater vote (mem_of_getLast? hvote)).le

/-- Every instruction returns and keeps the account grounded, whether it succeeds or fails. -/
theorem call_step {c : Call} (hc : c.Descending) : Keeps voteState (call voteState c) := by
  unfold call
  cases c.instruction with
  | vote vote => exact h.processVote vote
  | updateVoteState update => exact h.checkAndProcess hc _ _ _ _
  | towerSync towerSync => exact h.checkAndProcess hc _ _ _ _

/-- A sequence of instructions. -/
lemma Grounded.foldl_call {calls : List Call} (hcalls : ∀ c ∈ calls, c.Descending) :
    Grounded (calls.foldl (fun voteState c => (call voteState c).2) voteState) ∧
      Progresses voteState (calls.foldl (fun voteState c => (call voteState c).2) voteState) := by
  induction calls generalizing voteState with
  | nil => exact ⟨h, Progresses.refl voteState⟩
  | cons c calls ih =>
    obtain ⟨hc, hcalls⟩ := forall_mem_cons.mp hcalls
    obtain ⟨-, h₁, hprogresses₁⟩ := call_step h hc
    obtain ⟨h₂, hprogresses₂⟩ := ih h₁ hcalls
    exact ⟨h₂, hprogresses₁.trans hprogresses₂⟩

end

lemma grounded_new : Grounded .new where
  wellFormed := ⟨shape_nil, fun root hroot => by cases hroot⟩
  voted root hroot := by cases hroot

end Steps

/-- After every sequence of instructions the tower of an account is well formed, no further
instruction panics, and neither the root nor the last voted slot decreases. -/
theorem towers_wellFormed (calls : List Call) (hcalls : ∀ c ∈ calls, c.Descending) :
    (run calls).toTowerVoteState.WellFormed ∧
    (∀ c : Call, c.Descending → ∀ e, (call (run calls) c).1 = .error e → ∃ e', e = .vote e') ∧
    ∀ more : List Call, (∀ c ∈ more, c.Descending) →
      (run calls).rootSlot ≤ (run (calls ++ more)).rootSlot ∧
        (run calls).lastVotedSlot ≤ (run (calls ++ more)).lastVotedSlot := by
  obtain ⟨h, -⟩ := grounded_new.foldl_call hcalls
  refine ⟨h.wellFormed, fun c hc => (call_step h hc).1, fun more hmore => ?_⟩
  rw [run, run, foldl_append]
  exact (h.foldl_call hmore).2

/-- A vote is checked against the slot hashes exactly, whatever the vote state and the slots. -/
theorem processVote_exact (voteState : VoteState) (vote : Vote) (slotHashes : SlotHashes)
    (epoch currentSlot : ℕ) (hdescending : slotHashes.Pairwise fun a b => b.1 < a.1) :
    let earliestSlotInHistory := (slotHashes.getLast?.map Prod.fst).getD 0
    let new := newSlots voteState.lastVotedSlot (vote.slots.filter (earliestSlotInHistory ≤ ·))
    let result := processVote voteState vote slotHashes epoch currentSlot
    Returns result.1 ∧
    (result.1 = .ok () → MatchesHashes new vote.hash slotHashes ∧
      ∀ slot ∈ towerSlots result.2, slot ∉ towerSlots voteState → slot ∈ slotHashes.map Prod.fst) ∧
    (vote.slots.Pairwise (· < ·) → MatchesHashes new vote.hash slotHashes → result.1 = .ok ()) ∧
    ∀ e, result.1 = .error e → result.2 = voteState := by
  intro earliestSlotInHistory new result
  obtain ⟨hsound, hcomplete⟩ := @checkSlotsAreValid_iff voteState
    (vote.slots.filter (earliestSlotInHistory ≤ ·)) vote.hash slotHashes hdescending
  obtain ⟨e, hresult, hcheck⟩ | ⟨hresult, hcheck⟩ :=
    processVote_cases voteState vote slotHashes epoch currentSlot
  · rw [show result = _ from hresult]
    refine ⟨by rintro _ ⟨⟩; exact ⟨e, rfl⟩, nofun, fun hslots hmatches => ?_, fun _ _ => rfl⟩
    rcases hcheck with hnil | hcheck
    · obtain ⟨-, -, last, hlast, -⟩ := hmatches
      simp [new, newSlots, earliestSlotInHistory, hnil] at hlast
    · exact absurd (hcomplete (hslots.filter _) hmatches) hcheck
  rw [show result = _ from hresult]
  have hmatches := hsound hcheck
  refine ⟨nofun, fun _ => ⟨hmatches, fun slot hslot hnot => ?_⟩, fun _ _ => rfl, nofun⟩
  rcases mem_append.mp (towerSlots_foldl (fun _ h => h) hslot) with hold | hnew
  · exact absurd hold hnot
  · exact hmatches.2.1 slot hnew

theorem processVote_exact_skips :
    (processVote ⟨[⟨1, ⟨5, 1⟩⟩], some 2, [], ⟨0, 0⟩⟩ ⟨[1, 4, 5, 7, 8], 80⟩
      [(8, 80), (7, 70), (6, 60), (4, 40)] 0 9).1 = .ok () :=
  (processVote_exact _ _ _ 0 9 (by decide)).2.2.1 (by decide)
    ⟨by decide, by decide, 8, by decide, by decide⟩

/-- Votes for slots 1 and 2, a tower that no sequence of votes builds, and a vote on top of it. -/
def mixedCalls : List Call :=
  [⟨.vote ⟨[1, 2], 2⟩, [(2, 2), (1, 1)], 0, 3⟩,
    ⟨.towerSync ⟨[⟨3, 31⟩, ⟨4, 30⟩], some 2, 4, none⟩, [(4, 4), (3, 3), (2, 2), (1, 1)], 0, 5⟩,
    ⟨.updateVoteState ⟨[⟨1, 1⟩], none, 1, none⟩, [(4, 4), (3, 3), (2, 2), (1, 1)], 0, 5⟩,
    ⟨.vote ⟨[5], 5⟩, [(5, 5), (4, 4), (3, 3)], 0, 6⟩]

theorem towers_wellFormed_mixedCalls :
    (run mixedCalls).toTowerVoteState = ⟨[⟨3, 31⟩, ⟨4, 30⟩, ⟨5, 1⟩], some 2⟩ ∧
      (run mixedCalls).toTowerVoteState.WellFormed :=
  ⟨by decide +kernel, (towers_wellFormed mixedCalls (by
    simp [mixedCalls, Call.Descending])).1⟩

end Trezoa.VoteProgram
