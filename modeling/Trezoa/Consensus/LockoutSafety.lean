import Trezoa.Consensus.Tower

/-!
# Lockout safety of the local tower

A validator that records votes only for slots that are not locked out keeps its lockouts over the
whole history of its votes.

* `lockout_safety`: the guarantees over all votes.
-/

namespace Trezoa.Consensus.Tower

open VoteProgram TowerVoteState List Option SlotTree

/-! ## Votes after the check -/

/-- The arguments of a vote. -/
structure BankVote where
  slot : ℕ
  hash : ℕ
  enableTowerSyncIx : Bool
  blockId : ℕ

/-- A vote that is recorded if its slot is not locked out. -/
def castVote (tree : SlotTree) (tower : Tower) (vote : BankVote) : Option Tower :=
  if tower.isLockedOut vote.slot (tree.ancestors vote.slot) = .ok false then
    (tower.recordBankVoteAndUpdateLockouts vote.slot vote.hash vote.enableTowerSyncIx
      vote.blockId).toOption.map Prod.snd
  else none

/-- Votes in a row, all of them recorded. -/
def castVotes (tree : SlotTree) (tower : Tower) (votes : List BankVote) : Option Tower :=
  votes.foldlM (castVote tree) tower

variable {tree : SlotTree} {start tower tower' : Tower} {vote : BankVote} {votes : List BankVote}
  {before after : TowerVoteState} {slot root a b : ℕ} {rooted kept expired : List Lockout}

lemma castVotes_concat : castVotes tree start (votes ++ [vote]) = some tower' ↔
    ∃ tower, castVotes tree start votes = some tower ∧ castVote tree tower vote = some tower' := by
  unfold castVotes
  rw [foldlM_append]
  simp [bind_eq_some_iff]

/-- A vote that is recorded passed the check. -/
lemma castVote_returns (h : castVote tree tower vote = some tower') :
    tower.isLockedOut vote.slot (tree.ancestors vote.slot) = .ok false ∧
      tower'.voteState = tower.voteState.processNextVoteSlot vote.slot := by
  unfold castVote at h
  split at h
  · next hlocked =>
    refine ⟨hlocked, ?_⟩
    obtain ⟨⟨newRoot, recorded⟩, hrecord, rfl⟩ := map_eq_some_iff.mp h
    cases heq : tower.recordBankVoteAndUpdateLockouts vote.slot vote.hash vote.enableTowerSyncIx
        vote.blockId with
    | error panic =>
      rw [heq] at hrecord
      cases hrecord
    | ok result =>
      rw [heq] at hrecord
      cases hrecord
      exact recordBankVoteAndUpdateLockouts_returns heq
  · cases h

/-! ## One fork -/

/-- The root and the votes lie on one fork, in this order. -/
structure Chained (tree : SlotTree) (tower : TowerVoteState) (root : ℕ) : Prop where
  wellFormed : tower.WellFormed
  rootSlot : tower.rootSlot = some root
  chain : (root :: tower.votes.map Lockout.slot).Pairwise (· ∈ tree.ancestors ·)

lemma Chained.mem_ancestors (h : Chained tree before root) {v : Lockout} (hv : v ∈ before.votes) :
    root ∈ tree.ancestors v.slot :=
  rel_of_pairwise_cons h.chain (mem_map_of_mem hv)

/-- A recent slot is above the root. -/
lemma Chained.lt_of_isRecent (h : Chained tree tower.voteState root)
    (hrecent : tower.isRecent slot = true) : root < slot := by
  unfold isRecent at hrecent
  rw [h.rootSlot] at hrecent
  split at hrecent
  · next last hlast =>
    obtain ⟨v, hv, rfl⟩ := map_eq_some_iff.mp hlast
    have hlt := lt_of_mem_ancestors (h.mem_ancestors (mem_of_getLast? hv))
    exact hlt.trans (of_decide_eq_true hrecent)
  · exact of_decide_eq_true hrecent

/-- The root after a vote, and the votes that stay, come from the fork before it. -/
lemma Chained.sublist (h : Chained tree before root)
    (hvoted : Voted before slot after rooted kept expired) :
    ∃ root', after.rootSlot = some root' ∧ (root' = root ∨ root ∈ tree.ancestors root') ∧
      (∀ v ∈ rooted, v.slot = root') ∧
      (root' :: kept.map Lockout.slot).Sublist (root :: before.votes.map Lockout.slot) := by
  rcases hvoted.rooted with ⟨hrooted, hroot⟩ | ⟨v, hrooted, hroot⟩
  · refine ⟨root, hroot.trans h.rootSlot, .inl rfl, by simp [hrooted], ?_⟩
    rw [hvoted.votes, hrooted, nil_append, map_append]
    exact (sublist_append_left _ _).cons_cons _
  · refine ⟨v.slot, hroot, .inr (h.mem_ancestors ?_), by simp [hrooted], ?_⟩
    · simp [hvoted.votes, hrooted]
    · rw [hvoted.votes, hrooted, map_append]
      exact .cons _ (sublist_append_left _ _)

/-- A vote that passes the check stays on the fork, and the root moves to a descendant. -/
theorem Chained.voted (h : Chained tree before root)
    (hvoted : Voted before slot after rooted kept expired) (hroot : root < slot)
    (hlast : ∀ last ∈ before.lastVotedSlot, last < slot)
    (hvotes : ∀ v ∈ after.votes, slot ≠ v.slot → v.slot ∈ tree.ancestors slot)
    (hroots : ∀ root', after.rootSlot = some root' → slot ≠ root' → root' ∈ tree.ancestors slot) :
    ∃ root', Chained tree after root' ∧ (root' = root ∨ root ∈ tree.ancestors root') ∧
      (∀ v ∈ rooted, v.slot = root') ∧ root' ∈ tree.ancestors slot := by
  obtain ⟨root', hroot', hmoves, hrooted, hsublist⟩ := h.sublist hvoted
  have hlt : ∀ v ∈ before.votes, v.slot < slot := fun v hv => Voted.vote_lt h.wellFormed hlast hv
  have hmem : root' ∈ tree.ancestors slot := by
    refine hroots root' hroot' (ne_of_gt ?_)
    rcases mem_cons.mp (hsublist.subset (.head _)) with rfl | hmem
    · exact hroot
    · obtain ⟨v, hv, rfl⟩ := mem_map.mp hmem
      exact hlt v hv
  refine ⟨root', ⟨?_, hroot', ?_⟩, hmoves, hrooted, hmem⟩
  · refine hvoted.wellFormed h.wellFormed hlast fun root₀ hroot₀ _ => ?_
    cases h.rootSlot.symm.trans hroot₀
    exact hroot
  rw [hvoted.pushed, map_slot_doubleLockouts, map_append, ← cons_append, pairwise_append]
  refine ⟨h.chain.sublist hsublist, pairwise_singleton _ _, fun a ha b hb => ?_⟩
  obtain rfl : b = slot := mem_singleton.mp hb
  rcases mem_cons.mp ha with rfl | ha
  · exact hmem
  obtain ⟨v, hv, rfl⟩ := mem_map.mp ha
  obtain ⟨w, hw, hslot, -⟩ := hvoted.exists_mem_votes hv
  rw [← hslot]
  refine hvotes w hw (ne_of_gt ?_)
  rw [hslot]
  exact hlt v (hvoted.mem_of_mem_kept hv)

/-- The assertion of the check holds for descendants of the root. -/
lemma Chained.isLockedOut_returns (h : Chained tree tower.voteState root)
    (hroot : root ∈ tree.ancestors slot) :
    ∃ locked, tower.isLockedOut slot (tree.ancestors slot) = .ok locked := by
  cases heq : tower.isLockedOut slot (tree.ancestors slot) with
  | ok locked => exact ⟨locked, rfl⟩
  | error panic =>
    exfalso
    obtain ⟨hrecent, hvotes, root', hroot', hmem⟩ := isLockedOut_eq_error heq
    have hlast := Tower.lt_of_isRecent hrecent
    obtain ⟨rooted, kept, expired, hvoted⟩ :=
      TowerVoteState.voted h.wellFormed.shape.length_le hlast
    rcases hvoted.rooted with ⟨-, hsame⟩ | ⟨v, hrooted, hnew⟩
    · cases (hsame.trans h.rootSlot).symm.trans hroot'
      exact hmem hroot
    -- a vote is rooted only from a full stack, so there is a vote above it that stays
    cases hnew.symm.trans hroot'
    have hfull := hvoted.full (by simp [hrooted])
    obtain ⟨w, hw⟩ := exists_mem_of_length_pos
      (show 0 < kept.length by unfold maxLockoutHistory at hfull; omega)
    have hchain : v.slot ∈ tree.ancestors w.slot := by
      have hpairwise := (pairwise_cons.mp h.chain).2
      rw [hvoted.votes, hrooted] at hpairwise
      refine rel_of_pairwise_cons hpairwise (mem_map_of_mem ?_)
      exact mem_append_left _ hw
    obtain ⟨w', hw', hslot, -⟩ := hvoted.exists_mem_votes hw
    refine hmem (mem_ancestors_trans hchain (hslot ▸ hvotes w' hw' (ne_of_gt ?_)))
    rw [hslot]
    exact Voted.vote_lt h.wellFormed hlast (hvoted.mem_of_mem_kept hw)

/-- A vote for a slot that passed the check is recorded. -/
lemma Chained.record_returns (h : Chained tree tower.voteState root)
    (hlocked : tower.isLockedOut vote.slot (tree.ancestors vote.slot) = .ok false) :
    ∃ result, tower.recordBankVoteAndUpdateLockouts vote.slot vote.hash vote.enableTowerSyncIx
      vote.blockId = .ok result := by
  have hlast := Tower.lt_of_isRecent (isLockedOut_eq_false hlocked).1
  obtain ⟨rooted, kept, expired, hvoted⟩ := TowerVoteState.voted h.wellFormed.shape.length_le hlast
  obtain ⟨root', hroot', -⟩ := h.sublist hvoted
  have hany : tower.voteState.lastVotedSlot.any (vote.slot ≤ ·) = false := by
    rw [Option.any_eq_false]
    exact fun last hmem => decide_eq_false (hlast last hmem).not_ge
  unfold recordBankVoteAndUpdateLockouts
  rw [hany]
  simp only [Bool.false_eq_true, if_false, Tower.root, h.rootSlot, updateLastVoteFromVoteState,
    hroot']
  exact ⟨_, rfl⟩

/-! ## The history of the votes -/

/-- The vote for `a` is gone from the tower, and the lockout that it had in the last tower with it
ends before `b`. -/
def ExpiredBefore (tree : SlotTree) (start : Tower) (votes : List BankVote) (a b : ℕ) : Prop :=
  ∃ k earlier lockout, k < votes.length ∧
    castVotes tree start (votes.take k) = some earlier ∧
    lockout ∈ earlier.voteState.votes ∧ lockout.slot = a ∧ lockout.lastLockedOutSlot < b ∧
    ∀ m later, k < m → m ≤ votes.length → castVotes tree start (votes.take m) = some later →
      ∀ v ∈ later.voteState.votes, v.slot ≠ a

lemma ExpiredBefore.mono {b' : ℕ} (h : ExpiredBefore tree start votes a b) (hle : b ≤ b') :
    ExpiredBefore tree start votes a b' := by
  obtain ⟨k, earlier, lockout, hk, hearlier, hmem, hslot, hlt, hgone⟩ := h
  exact ⟨k, earlier, lockout, hk, hearlier, hmem, hslot, hlt.trans_le hle, hgone⟩

/-- The towers after all votes but the last one, and after all. -/
lemma castVotes_take_concat {k : ℕ} {later : Tower}
    (hrun : castVotes tree start (votes ++ [vote]) = some tower') (hk : votes.length < k)
    (hlater : castVotes tree start ((votes ++ [vote]).take k) = some later) : later = tower' := by
  rw [take_of_length_le (by simp; omega)] at hlater
  exact some.inj (hlater.symm.trans hrun)

/-- What became of the vote for `a`. -/
inductive Outcome (tree : SlotTree) (start : Tower) (votes : List BankVote) (tower : Tower)
    (a : ℕ) : Prop where
  | rooted (root : ℕ) : tower.voteState.rootSlot = some root →
      a = root ∨ a ∈ tree.ancestors root → Outcome tree start votes tower a
  | present (v : Lockout) : v ∈ tower.voteState.votes → v.slot = a →
      Outcome tree start votes tower a
  | expired (last : ℕ) : tower.voteState.lastVotedSlot = some last →
      ExpiredBefore tree start votes a last → Outcome tree start votes tower a

/-- The state of the history: every vote has an outcome and is not after the last one, and every two
votes are on one fork or the earlier one expired before the later one. -/
structure History (tree : SlotTree) (start : Tower) (votes : List BankVote) (tower : Tower) :
    Prop where
  chained : ∃ root, Chained tree tower.voteState root
  last : ∀ vote ∈ votes, ∃ last, tower.voteState.lastVotedSlot = some last ∧ vote.slot ≤ last
  outcome : ∀ vote ∈ votes, Outcome tree start votes tower vote.slot
  pairs : ∀ {i j : ℕ} {a b : BankVote}, i < j → votes[i]? = some a → votes[j]? = some b →
    a.slot ∈ tree.ancestors b.slot ∨ ExpiredBefore tree start votes a.slot b.slot

lemma History.nil (hstart : start.voteState = ⟨[], some root⟩) : History tree start [] start where
  chained := ⟨root, by
    rw [hstart]
    exact ⟨⟨shape_nil, by simp⟩, rfl, by simp⟩⟩
  last := by simp
  outcome := by simp
  pairs := by simp

/-- What a vote that is cast does to a tower on one fork. -/
lemma Chained.castVote (h : Chained tree tower.voteState root)
    (hcast : castVote tree tower vote = some tower') :
    ∃ rooted kept expired root',
      Voted tower.voteState vote.slot tower'.voteState rooted kept expired ∧
      (∀ last ∈ tower.voteState.lastVotedSlot, last < vote.slot) ∧
      Chained tree tower'.voteState root' ∧ (root' = root ∨ root ∈ tree.ancestors root') ∧
      (∀ v ∈ rooted, v.slot = root') ∧ root' ∈ tree.ancestors vote.slot := by
  obtain ⟨hlocked, hstate⟩ := castVote_returns hcast
  obtain ⟨hrecent, hvotes, hroots⟩ := isLockedOut_eq_false hlocked
  have hlast := Tower.lt_of_isRecent hrecent
  obtain ⟨rooted, kept, expired, hvoted⟩ := TowerVoteState.voted h.wellFormed.shape.length_le hlast
  rw [← hstate] at hvoted hvotes hroots
  obtain ⟨root', hchained⟩ := h.voted hvoted (h.lt_of_isRecent hrecent) hlast hvotes hroots
  exact ⟨rooted, kept, expired, root', hvoted, hlast, hchained⟩

section
variable (hrun : castVotes tree start votes = some tower)
  (hrun' : castVotes tree start (votes ++ [vote]) = some tower')
  (hvoted : Voted tower.voteState vote.slot tower'.voteState rooted kept expired)
include hrun hrun' hvoted

/-- A vote that is gone stays gone. -/
lemma ExpiredBefore.concat (h : ExpiredBefore tree start votes a b)
    (hne : vote.slot ≠ a) : ExpiredBefore tree start (votes ++ [vote]) a b := by
  obtain ⟨k, earlier, lockout, hk, hearlier, hmem, hslot, hlt, hgone⟩ := h
  have hlength : (votes ++ [vote]).length = votes.length + 1 := by simp
  refine ⟨k, earlier, lockout, by omega, ?_, hmem, hslot, hlt, fun m later hkm hm hlater v hv => ?_⟩
  · rw [take_append_of_le_length hk.le]
    exact hearlier
  rcases Nat.lt_or_ge votes.length m with hlast | hm'
  · cases castVotes_take_concat hrun' hlast hlater
    rcases hvoted.mem_votes hv with hslot' | ⟨w, hw, hslot', -⟩
    · rw [hslot']
      exact hne
    rw [← hslot']
    refine hgone votes.length tower hk le_rfl ?_ w (hvoted.mem_of_mem_kept hw)
    rw [take_length]
    exact hrun
  · rw [take_append_of_le_length hm'] at hlater
    exact hgone m later hkm hm' hlater v hv

/-- A vote that expires is gone. -/
lemma expiredBefore_of_mem_expired (hwf : tower.voteState.WellFormed)
    (hlast : ∀ last ∈ tower.voteState.lastVotedSlot, last < vote.slot) {v : Lockout}
    (hv : v ∈ expired) :
    ExpiredBefore tree start (votes ++ [vote]) v.slot vote.slot := by
  have hmem : v ∈ tower.voteState.votes := by
    rw [hvoted.votes]
    exact mem_append_right _ hv
  refine ⟨votes.length, tower, v, by simp, by simpa using hrun, hmem, rfl, hvoted.expired v hv,
    fun m later hkm _ hlater w hw => ?_⟩
  cases castVotes_take_concat hrun' hkm hlater
  rcases hvoted.mem_votes hw with hslot | ⟨u, hu, hslot, -⟩
  · rw [hslot]
    exact (Voted.vote_lt hwf hlast hmem).ne'
  · rw [← hslot]
    exact (hvoted.lt_expired hwf.shape hu hv).ne

/-- A further vote keeps the outcome of an earlier one. -/
lemma Outcome.concat (houtcome : Outcome tree start votes tower a)
    (h : Chained tree tower.voteState root)
    (hlast : ∀ last ∈ tower.voteState.lastVotedSlot, last < vote.slot)
    {root' : ℕ} (hroot' : tower'.voteState.rootSlot = some root')
    (hmoves : root' = root ∨ root ∈ tree.ancestors root')
    (hrooted : ∀ v ∈ rooted, v.slot = root') (hlt : a < vote.slot) :
    Outcome tree start (votes ++ [vote]) tower' a := by
  cases houtcome with
  | rooted root₀ hroot ha =>
    cases h.rootSlot.symm.trans hroot
    refine .rooted root' hroot' ?_
    rcases hmoves with rfl | hmoves
    · exact ha
    · rcases ha with rfl | ha
      · exact .inr hmoves
      · exact .inr (mem_ancestors_trans ha hmoves)
  | present v hv hslot =>
    rw [hvoted.votes, mem_append, mem_append] at hv
    rcases hv with (hv | hv) | hv
    · exact .rooted root' hroot' (.inl (hslot.symm.trans (hrooted v hv)))
    · obtain ⟨w, hw, hslot', -⟩ := hvoted.exists_mem_votes hv
      exact .present w hw (hslot'.trans hslot)
    · exact .expired vote.slot hvoted.lastVotedSlot
        (hslot ▸ expiredBefore_of_mem_expired hrun hrun' hvoted h.wellFormed hlast hv)
  | expired last hlast' hexpired =>
    refine .expired vote.slot hvoted.lastVotedSlot ?_
    exact (hexpired.mono (hlast last hlast').le).concat hrun hrun' hvoted hlt.ne'

end

/-- An earlier vote is on the fork of the last one or expired before it. -/
lemma Outcome.pair (houtcome : Outcome tree start votes tower a)
    (h : Chained tree tower.voteState root) (hroot : root ∈ tree.ancestors b)
    (hb : tower.voteState.lastVotedSlot = some b) (hlt : a < b) :
    a ∈ tree.ancestors b ∨ ExpiredBefore tree start votes a b := by
  cases houtcome with
  | rooted root₀ hroot₀ ha =>
    cases h.rootSlot.symm.trans hroot₀
    rcases ha with rfl | ha
    · exact .inl hroot
    · exact .inl (mem_ancestors_trans ha hroot)
  | present v hv hslot =>
    obtain ⟨w, hw, rfl⟩ := map_eq_some_iff.mp hb
    obtain ⟨votes', hvotes⟩ := getLast?_eq_some_iff.mp hw
    have hpairwise := (pairwise_cons.mp h.chain).2
    rw [hvotes, map_append, pairwise_append] at hpairwise
    rw [hvotes, mem_append, mem_singleton] at hv
    rcases hv with hv | rfl
    · exact .inl (hslot ▸ hpairwise.2.2 _ (mem_map_of_mem hv) _ (by simp))
    · exact absurd hslot hlt.ne'
  | expired last hlast hexpired =>
    cases hlast.symm.trans hb
    exact .inr hexpired

/-- A further vote continues the history. -/
theorem History.concat (h : History tree start votes tower)
    (hrun : castVotes tree start votes = some tower)
    (hcast : castVote tree tower vote = some tower') :
    History tree start (votes ++ [vote]) tower' := by
  obtain ⟨root, hroot⟩ := h.chained
  have hrun' := castVotes_concat.mpr ⟨tower, hrun, hcast⟩
  obtain ⟨rooted, kept, expired, root', hvoted, hlast, hchained, hmoves, hrooted, hmem⟩ :=
    hroot.castVote hcast
  have hlt : ∀ earlier ∈ votes, earlier.slot < vote.slot := fun earlier hearlier => by
    obtain ⟨last, hlast', hle⟩ := h.last earlier hearlier
    exact hle.trans_lt (hlast last hlast')
  have houtcome : ∀ earlier ∈ votes,
      Outcome tree start (votes ++ [vote]) tower' earlier.slot := fun earlier hearlier =>
    (h.outcome earlier hearlier).concat hrun hrun' hvoted hroot hlast hchained.rootSlot hmoves
      hrooted (hlt earlier hearlier)
  refine ⟨⟨root', hchained⟩, fun earlier hearlier => ?_, fun earlier hearlier => ?_, ?_⟩
  · refine ⟨vote.slot, hvoted.lastVotedSlot, ?_⟩
    rcases mem_append.mp hearlier with hearlier | hearlier
    · exact (hlt earlier hearlier).le
    · rw [mem_singleton.mp hearlier]
  · rcases mem_append.mp hearlier with hearlier | hearlier
    · exact houtcome earlier hearlier
    · obtain ⟨w, hw, hslot⟩ := map_eq_some_iff.mp hvoted.lastVotedSlot
      rw [mem_singleton.mp hearlier]
      exact .present w (mem_of_getLast? hw) hslot
  intro i j a b hij hi hj
  -- the later vote is the new one, or the pair was there before
  have hj' := List.getElem?_eq_some_iff.mp hj
  have hjlength : j < votes.length + 1 := by simpa using hj'.1
  rw [getElem?_append_left (by omega)] at hi
  have ha := mem_of_getElem? hi
  rcases Nat.lt_or_ge j votes.length with hjold | hjnew
  · rw [getElem?_append_left hjold] at hj
    rcases h.pairs hij hi hj with hancestor | hexpired
    · exact .inl hancestor
    · exact .inr (hexpired.concat hrun hrun' hvoted (hlt a ha).ne')
  · obtain rfl : j = votes.length := by omega
    obtain rfl : vote = b := by simpa using hj
    exact (houtcome a ha).pair hchained hmem hvoted.lastVotedSlot (hlt a ha)

/-- All votes of a run have their history. -/
theorem history (hstart : start.voteState = ⟨[], some root⟩)
    (hrun : castVotes tree start votes = some tower) : History tree start votes tower := by
  induction votes using reverseRecOn generalizing tower with
  | nil =>
    cases hrun
    exact .nil hstart
  | append_singleton votes vote ih =>
    obtain ⟨tower, hrun, hcast⟩ := castVotes_concat.mp hrun
    exact (ih hrun).concat hrun hcast

/-- The root only moves to descendants. -/
theorem root_moves (hstart : start.voteState = ⟨[], some root⟩)
    (hrun : castVotes tree start votes = some tower) {k : ℕ} {earlier : Tower}
    (hearlier : castVotes tree start (votes.take k) = some earlier) :
    ∃ old new, earlier.voteState.rootSlot = some old ∧ tower.voteState.rootSlot = some new ∧
      (new = old ∨ old ∈ tree.ancestors new) := by
  induction votes using reverseRecOn generalizing tower with
  | nil =>
    rw [take_nil] at hearlier
    cases hrun.symm.trans hearlier
    obtain ⟨old, hold⟩ := (history hstart hrun).chained
    exact ⟨old, old, hold.rootSlot, hold.rootSlot, .inl rfl⟩
  | append_singleton votes vote ih =>
    rcases Nat.lt_or_ge votes.length k with hk | hk
    · cases castVotes_take_concat hrun hk hearlier
      obtain ⟨old, hold⟩ := (history hstart hrun).chained
      exact ⟨old, old, hold.rootSlot, hold.rootSlot, .inl rfl⟩
    rw [take_append_of_le_length hk] at hearlier
    obtain ⟨tower', hrun', hcast⟩ := castVotes_concat.mp hrun
    obtain ⟨old, middle, hold, hmiddle, hmoved⟩ := ih hrun' hearlier
    obtain ⟨root', hroot'⟩ := (history hstart hrun').chained
    cases hroot'.rootSlot.symm.trans hmiddle
    obtain ⟨-, -, -, new, -, -, hchained, hmoves, -, -⟩ := hroot'.castVote hcast
    refine ⟨old, new, hold, hchained.rootSlot, ?_⟩
    rcases hmoves with rfl | hmoves
    · exact hmoved
    · rcases hmoved with rfl | hmoved
      · exact .inr hmoves
      · exact .inr (mem_ancestors_trans hmoved hmoves)

/-! ## The guarantees -/

/-- A validator starts from a tower without votes and records only votes for slots that are not
locked out. At every point the root and the votes of the tower lie on one fork. The root only moves
to descendants. For two votes the earlier one is an ancestor of the later one, or the later one is
past the lockout that the earlier one had when it was last in the tower. The check of a descendant
of the current root does not panic, and neither does the vote after it. -/
theorem lockout_safety (tree : SlotTree) (start : Tower) (root : ℕ)
    (hstart : start.voteState = ⟨[], some root⟩) (votes : List BankVote) (tower : Tower)
    (hrun : castVotes tree start votes = some tower) :
    (∃ root, tower.voteState.rootSlot = some root ∧
      (root :: tower.voteState.votes.map Lockout.slot).Pairwise (· ∈ tree.ancestors ·)) ∧
    (∀ k earlier, castVotes tree start (votes.take k) = some earlier →
      ∃ old new, earlier.voteState.rootSlot = some old ∧ tower.voteState.rootSlot = some new ∧
        (new = old ∨ old ∈ tree.ancestors new)) ∧
    (∀ (i j : ℕ) (a b : BankVote), i < j → votes[i]? = some a → votes[j]? = some b →
      a.slot ∈ tree.ancestors b.slot ∨
        ∃ k earlier lockout, k < votes.length ∧
          castVotes tree start (votes.take k) = some earlier ∧
          lockout ∈ earlier.voteState.votes ∧ lockout.slot = a.slot ∧
          lockout.lastLockedOutSlot < b.slot ∧
          ∀ m later, k < m → m ≤ votes.length → castVotes tree start (votes.take m) = some later →
            ∀ v ∈ later.voteState.votes, v.slot ≠ a.slot) ∧
    (∀ slot root, tower.voteState.rootSlot = some root → root ∈ tree.ancestors slot →
      ∃ locked, tower.isLockedOut slot (tree.ancestors slot) = .ok locked) ∧
    ∀ vote : BankVote, tower.isLockedOut vote.slot (tree.ancestors vote.slot) = .ok false →
      ∃ result, tower.recordBankVoteAndUpdateLockouts vote.slot vote.hash vote.enableTowerSyncIx
        vote.blockId = .ok result := by
  have hhistory := history hstart hrun
  obtain ⟨current, hchained⟩ := hhistory.chained
  refine ⟨⟨current, hchained.rootSlot, hchained.chain⟩,
    fun k earlier hearlier => root_moves hstart hrun hearlier,
    fun i j a b hij hi hj => hhistory.pairs hij hi hj, fun slot root hroot hmem => ?_,
    fun vote hlocked => hchained.record_returns hlocked⟩
  cases hchained.rootSlot.symm.trans hroot
  exact hchained.isLockedOut_returns hmem

/-- A chain of slots in which slot 5 forks off slot 1. -/
def forkedAtOne : SlotTree where
  parent slot := if slot = 0 then none else if slot = 5 then some 1 else some (slot - 1)
  parent_lt {slot up} h := by
    split at h
    · cases h
    · split at h <;> cases h <;> omega

/-- The vote for slot 2 expires before the vote for slot 5 on another fork. -/
theorem lockout_safety_forkedAtOne :
    ∃ tower, castVotes forkedAtOne (empty 0)
        [⟨1, 0, true, 0⟩, ⟨2, 0, true, 0⟩, ⟨5, 0, true, 0⟩] = some tower ∧
      ∃ k earlier lockout, castVotes forkedAtOne (empty 0)
          ([⟨1, 0, true, 0⟩, ⟨2, 0, true, 0⟩, ⟨5, 0, true, 0⟩].take k) = some earlier ∧
        lockout ∈ earlier.voteState.votes ∧ lockout.slot = 2 ∧ lockout.lastLockedOutSlot < 5 := by
  obtain ⟨tower, hrun⟩ : ∃ tower, castVotes forkedAtOne (empty 0)
      [⟨1, 0, true, 0⟩, ⟨2, 0, true, 0⟩, ⟨5, 0, true, 0⟩] = some tower :=
    isSome_iff_exists.mp (by decide +kernel)
  refine ⟨tower, hrun, ?_⟩
  obtain ⟨-, -, hpairs, -⟩ := lockout_safety forkedAtOne (empty 0) 0 rfl _ tower hrun
  rcases hpairs 1 2 ⟨2, 0, true, 0⟩ ⟨5, 0, true, 0⟩ (by decide) rfl rfl with
    hancestor | ⟨k, earlier, lockout, -, hearlier, hmem, hslot, hlt, -⟩
  · exact absurd hancestor (by decide +kernel)
  · exact ⟨k, earlier, lockout, hearlier, hmem, hslot, hlt⟩

/-- A chain of slots from slot 0 to slot 32; all later slots fork off slot 0. -/
def forkedAtZero : SlotTree where
  parent slot := if slot = 0 then none else if slot ≤ 32 then some (slot - 1) else some 0
  parent_lt {slot up} h := by
    split at h
    · cases h
    · split at h <;> cases h <;> omega

/-- After votes for the slots 1 to 32 the root is slot 1. The check of a slot that is past all
lockouts and descends from slot 0, but not from slot 1, runs into the assertion. -/
theorem isLockedOut_forkedAtZero :
    let votes : List BankVote := (range' 1 32).map fun slot => ⟨slot, 0, true, 0⟩
    (∀ vote ∈ votes, 0 ∈ forkedAtZero.ancestors vote.slot) ∧
    0 ∈ forkedAtZero.ancestors (2 ^ 31 + 100) ∧
    (castVotes forkedAtZero (empty 0) votes).map (fun tower =>
      tower.isLockedOut (2 ^ 31 + 100) (forkedAtZero.ancestors (2 ^ 31 + 100))) =
        some (.error .assertion) := by
  decide +kernel

end Trezoa.Consensus.Tower
