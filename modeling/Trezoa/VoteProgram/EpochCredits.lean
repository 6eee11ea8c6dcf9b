import Trezoa.VoteProgram.NewVoteState

/-!
# The history of credits

`epoch_credits` of a vote account: the credits up to an epoch and those before it, for the last
epochs with any.

* `epochCredits_chain`: they are one after any calls.
-/

namespace Trezoa.VoteProgram

open List Option VoteState

/-- The calls that add credits. -/
inductive CreditCall where
  | incrementCredits (epoch credits : ℕ)
  | processNextVoteSlot (nextVoteSlot epoch currentSlot : ℕ)
  | processNewVoteState (newState : List LandedVote) (newRoot : Option ℕ) (timestamp : Option ℤ)
      (epoch currentSlot : ℕ)

namespace CreditCall

def epoch : CreditCall → ℕ
  | incrementCredits epoch _ | processNextVoteSlot _ epoch _ | processNewVoteState _ _ _ epoch _ =>
    epoch

/-- The account after a call. -/
def run (self : VoteState) : CreditCall → VoteState
  | incrementCredits epoch credits => self.incrementCredits epoch credits
  | processNextVoteSlot slot epoch currentSlot => self.processNextVoteSlot slot epoch currentSlot
  | processNewVoteState newState newRoot timestamp epoch currentSlot =>
    (VoteProgram.processNewVoteState self newState newRoot timestamp epoch currentSlot).2

/-- The credits that a call adds: for the vote that it roots, or for those up to the new root. -/
def credits (self : VoteState) : CreditCall → Option ℕ
  | incrementCredits _ credits => some credits
  | processNextVoteSlot slot _ _ =>
    if self.lastVotedSlot.any (slot ≤ ·) then none
    else if (self.popExpiredVotes slot).votes.length = maxLockoutHistory then
      some ((self.popExpiredVotes slot).creditsForVoteAtIndex 0)
    else none
  | processNewVoteState newState newRoot _ _ _ =>
    match checkNewVoteState self newState newRoot with
    | .error _ => none
    | .ok (earned, _) => if self.rootSlot ≠ newRoot then some earned else none

/-- The epochs and the credits that calls add. -/
def added (self : VoteState) : List CreditCall → List (ℕ × ℕ)
  | [] => []
  | call :: calls => (call.credits self).toList.map (call.epoch, ·) ++ added (call.run self) calls

end CreditCall

open CreditCall

def totalCredits (added : List (ℕ × ℕ)) : ℕ := (added.map Prod.snd).sum

/-- An entry before another one: it has credits, or else it would have moved to the next epoch. -/
def Precedes (entry later : ℕ × ℕ × ℕ) : Prop := entry.1 < later.1 ∧ entry.2.2 < entry.2.1

/-- An entry has the credits that were added in its epoch, if none were cut off. -/
def Records (added : List (ℕ × ℕ)) (entry : ℕ × ℕ × ℕ) : Prop :=
  entry.2.2 ≤ entry.2.1 ∧ (totalCredits added ≤ u64Max →
    entry.2.1 - entry.2.2 = totalCredits (added.filter (·.1 = entry.1)))

/-- Entries as a record of the credits added. -/
@[mk_iff]
structure CreditChain (entries : List (ℕ × ℕ × ℕ)) (added : List (ℕ × ℕ)) : Prop where
  length_le : entries.length ≤ maxEpochCreditsHistory
  precedes : entries.Pairwise Precedes
  chain : entries.IsChain fun entry next => next.2.2 = entry.2.1
  records : ∀ entry ∈ entries, Records added entry
  total : (entries.getLast?.map (·.2.1)).getD 0 = min (totalCredits added) u64Max
  le_last : ∀ a ∈ added, ∃ last ∈ entries.getLast?, a.1 ≤ last.1

variable {self : VoteState} {added : List (ℕ × ℕ)} {epoch : ℕ} {front : List (ℕ × ℕ × ℕ)}
  {last : ℕ × ℕ × ℕ}

/-- A record by its last entry. -/
lemma creditChain_concat : CreditChain (front ++ [last]) added ↔
    front.length < maxEpochCreditsHistory ∧
      (front.Pairwise Precedes ∧ ∀ entry ∈ front, Precedes entry last) ∧
      (front.IsChain (fun entry next => next.2.2 = entry.2.1) ∧
        ∀ entry ∈ front.getLast?, last.2.2 = entry.2.1) ∧
      ((∀ entry ∈ front, Records added entry) ∧ Records added last) ∧
      last.2.1 = min (totalCredits added) u64Max ∧ ∀ a ∈ added, a.1 ≤ last.1 := by
  simp only [creditChain_iff, pairwise_append, isChain_append, or_imp, forall_and, mem_append,
    mem_singleton, getLast?_concat, forall_eq, length_append, pairwise_singleton,
    isChain_singleton, map_some, getD_some, true_and, head?_cons,
    mem_some_iff, forall_eq', exists_eq_left', length_singleton, Nat.succ_le_iff]

/-- The oldest entry may be dropped. -/
lemma CreditChain.of_cons {first : ℕ × ℕ × ℕ} (hne : front ≠ [])
    (h : CreditChain (first :: front) added) : CreditChain front added := by
  have hlast : (first :: front).getLast? = front.getLast? := getLast?_cons_of_ne_nil hne
  exact ⟨(Nat.le_succ _).trans h.length_le, h.precedes.tail, h.chain.tail,
    fun entry hentry => h.records entry (.tail _ hentry), hlast ▸ h.total, hlast ▸ h.le_last⟩

/-- An epoch that starts has no credits yet. -/
lemma records_start (hadded : ∀ a ∈ added, a.1 < epoch) (credits : ℕ) :
    Records added (epoch, credits, credits) := by
  refine ⟨le_rfl, fun _ => ?_⟩
  rw [filter_eq_nil_iff.mpr fun a ha => by simpa using (hadded a ha).ne, Nat.sub_self]
  rfl

/-- An entry with credits is followed by one for the epoch that starts. -/
lemma CreditChain.push (h : CreditChain (front ++ [last]) added) (hepoch : last.1 < epoch)
    (hlast : last.2.1 ≠ last.2.2) (hlength : front.length + 1 < maxEpochCreditsHistory) :
    CreditChain (front ++ [last] ++ [(epoch, last.2.1, last.2.1)]) added := by
  obtain ⟨-, ⟨-, hpre⟩, -, hrec, htotal, hle⟩ := creditChain_concat.mp h
  refine creditChain_concat.mpr ⟨by simpa using hlength, ⟨h.precedes, fun entry hentry => ?_⟩,
    ⟨h.chain, by simp⟩, ⟨h.records, records_start (fun a ha => (hle a ha).trans_lt hepoch) _⟩,
    htotal, fun a ha => (hle a ha).trans hepoch.le⟩
  rcases mem_append.mp hentry with hentry | hentry
  · exact ⟨(hpre entry hentry).1.trans hepoch, (hpre entry hentry).2⟩
  · obtain rfl := mem_singleton.mp hentry
    exact ⟨hepoch, lt_of_le_of_ne hrec.2.1 hlast.symm⟩

/-- An entry without credits moves to the epoch that starts. -/
lemma CreditChain.move {lastEpoch credits : ℕ} (hepoch : lastEpoch < epoch)
    (h : CreditChain (front ++ [(lastEpoch, credits, credits)]) added) :
    CreditChain (front ++ [(epoch, credits, credits)]) added := by
  obtain ⟨hlength, ⟨hpre, hlast⟩, hchain, hrec, htotal, hle⟩ := creditChain_concat.mp h
  exact creditChain_concat.mpr ⟨hlength, ⟨hpre, fun entry hentry =>
      ⟨(hlast entry hentry).1.trans hepoch, (hlast entry hentry).2⟩⟩, hchain,
    ⟨hrec.1, records_start (fun a ha => (hle a ha).trans_lt hepoch) _⟩, htotal,
    fun a ha => (hle a ha).trans hepoch.le⟩

/-- The entries before the credits are added: the last one is for the epoch. -/
lemma CreditChain.creditsEntries (h : CreditChain self.epochCredits added)
    (hlast : ∀ last ∈ self.epochCredits.getLast?, last.1 ≤ epoch) :
    ∃ front credits prev, self.creditsEntries epoch = front ++ [(epoch, credits, prev)] ∧
      CreditChain (front ++ [(epoch, credits, prev)]) added := by
  unfold VoteState.creditsEntries
  rcases eq_nil_or_concat' self.epochCredits with hnil | ⟨front, ⟨last, credits, prev⟩, heq⟩
  · rw [hnil] at h ⊢
    obtain rfl : added = [] := eq_nil_iff_forall_not_mem.mpr fun a ha => by
      simpa using h.le_last a ha
    exact ⟨[], 0, 0, rfl, by constructor <;> simp [totalCredits, Records, maxEpochCreditsHistory]⟩
  rw [heq] at h hlast ⊢
  simp only [getLast?_concat, mem_some_iff, forall_eq', dropLast_concat] at hlast ⊢
  split
  next hne =>
    have hlt : last < epoch := lt_of_le_of_ne hlast hne.symm
    split
    next hcredits =>
      split
      next hlong =>
        cases front with
        | nil => simp [maxEpochCreditsHistory] at hlong
        | cons first front =>
          exact ⟨front ++ [(last, credits, prev)], credits, credits, rfl,
            (h.of_cons (by simp)).push hlt hcredits (by simpa using h.length_le)⟩
      next hshort =>
        rw [not_lt, length_append, length_append] at hshort
        exact ⟨front ++ [(last, credits, prev)], credits, credits, rfl, h.push hlt hcredits hshort⟩
    next hcredits =>
      obtain rfl : credits = prev := not_ne_iff.mp hcredits
      rw [if_neg (by simpa using h.length_le)]
      exact ⟨front, credits, credits, rfl, h.move hlt⟩
  next hne =>
    obtain rfl : epoch = last := not_ne_iff.mp hne
    exact ⟨front, credits, prev, rfl, h⟩

/-- The credits are added to the last entry. -/
lemma CreditChain.add {credits prev : ℕ} (h : CreditChain (front ++ [(epoch, credits, prev)]) added)
    (earned : ℕ) : CreditChain (front ++ [(epoch, min (credits + earned) u64Max, prev)])
      (added ++ [(epoch, earned)]) := by
  obtain ⟨hlength, hpre, hchain, hrec, htotal, hle⟩ := creditChain_concat.mp h
  have hsum (l : List (ℕ × ℕ)) : totalCredits (l ++ [(epoch, earned)]) =
      totalCredits l + earned := by
    simp [totalCredits]
  refine creditChain_concat.mpr ⟨hlength, hpre, hchain, ⟨fun entry hentry => ?_, ?_⟩, ?_, ?_⟩
  · refine ⟨(hrec.1 entry hentry).1, fun hle => ?_⟩
    rw [hsum] at hle
    rw [(hrec.1 entry hentry).2 (by omega), filter_append]
    simp [(hpre.2 entry hentry).1.ne']
  · obtain ⟨hprev, hdiff⟩ := hrec.2
    dsimp only at hprev hdiff htotal
    refine ⟨by dsimp only; omega, fun hle => ?_⟩
    rw [hsum] at hle
    simp only [filter_append, filter_singleton, decide_true, cond_true, hsum, ← hdiff (by omega)]
    omega
  · dsimp only at htotal ⊢
    rw [hsum]
    omega
  · simpa [or_imp, forall_and] using hle

lemma CreditChain.incrementCredits (h : CreditChain self.epochCredits added)
    (hlast : ∀ last ∈ self.epochCredits.getLast?, last.1 ≤ epoch) (credits : ℕ) :
    CreditChain (self.incrementCredits epoch credits).epochCredits (added ++ [(epoch, credits)]) ∧
      ∀ last ∈ (self.incrementCredits epoch credits).epochCredits.getLast?, last.1 = epoch := by
  obtain ⟨front, last, prev, heq, hchain⟩ := h.creditsEntries hlast
  have hentries : (self.incrementCredits epoch credits).epochCredits =
      front ++ [(epoch, min (last + credits) u64Max, prev)] := by
    simp [VoteState.incrementCredits, heq]
  rw [hentries]
  exact ⟨hchain.add credits, by simp⟩

/-! ## Calls -/

/-- A call adds its credits in its epoch. -/
lemma epochCredits_run (call : CreditCall) : (call.run self).epochCredits =
    (call.credits self).elim self.epochCredits
      fun credits => (self.incrementCredits call.epoch credits).epochCredits := by
  cases call with
  | incrementCredits epoch credits => rfl
  | processNextVoteSlot slot epoch currentSlot =>
    simp only [CreditCall.run, CreditCall.credits, VoteState.processNextVoteSlot]
    split
    · rfl
    simp only [VoteState.doubleLockouts, VoteState.rootOldest]
    split
    next hfull =>
      cases hvotes : (self.popExpiredVotes slot).votes with
      | nil => simp [hvotes, maxLockoutHistory] at hfull
      | cons vote votes => rfl
    next => rfl
  | processNewVoteState newState newRoot timestamp epoch currentSlot =>
    simp only [CreditCall.run, CreditCall.credits, processNewVoteState]
    cases checkNewVoteState self newState newRoot with
    | error e => rfl
    | ok result =>
      have haward : (awardCredits self newRoot epoch result.1).epochCredits =
          (if self.rootSlot ≠ newRoot then some result.1 else none).elim self.epochCredits
            fun credits => (self.incrementCredits epoch credits).epochCredits := by
        unfold awardCredits
        split <;> rfl
      -- a timestamp that is too old comes after the credits
      rw [CreditCall.epoch, ← haward]
      cases timestamp with
      | none => rfl
      | some timestamp =>
        simp only [processNewTimestamp, processTimestamp]
        split_ifs <;> rfl

lemma CreditChain.foldl_run {calls : List CreditCall} (h : CreditChain self.epochCredits added)
    (hlast : ∀ last ∈ self.epochCredits.getLast?, ∀ call ∈ calls, last.1 ≤ call.epoch)
    (hcalls : calls.Pairwise (·.epoch ≤ ·.epoch)) :
    CreditChain (calls.foldl run self).epochCredits (added ++ CreditCall.added self calls) := by
  induction calls generalizing self added with
  | nil => simpa [CreditCall.added] using h
  | cons call calls ih =>
    obtain ⟨hcall, hcalls⟩ := pairwise_cons.mp hcalls
    have hrun := @epochCredits_run self call
    rw [CreditCall.added, ← append_assoc]
    cases hcredits : call.credits self with
    | none =>
      rw [hcredits, elim_none] at hrun
      rw [toList_none, map_nil, append_nil]
      refine ih (hrun ▸ h) (fun last hmem c hc => ?_) hcalls
      exact hlast last (hrun ▸ hmem) c (.tail _ hc)
    | some credits =>
      obtain ⟨hchain, hepoch⟩ :=
        h.incrementCredits (fun last hmem => hlast last hmem call (.head _)) credits
      rw [hcredits, elim_some] at hrun
      rw [← hrun] at hchain hepoch
      exact ih hchain (fun last hmem c hc => (hepoch last hmem).trans_le (hcall c hc)) hcalls

/-- After any calls in the order of their epochs, the entries are a record of the credits added. -/
theorem epochCredits_chain (self : VoteState) (calls : List CreditCall)
    (hself : self.epochCredits = []) (hcalls : calls.Pairwise (·.epoch ≤ ·.epoch)) :
    CreditChain (calls.foldl CreditCall.run self).epochCredits (CreditCall.added self calls) := by
  have h : CreditChain self.epochCredits [] := by
    rw [hself]
    constructor <;> simp [totalCredits]
  simpa using h.foldl_run (by simp [hself]) hcalls

/-- An entry without credits moves on: that of epoch 2 is the one of epoch 5. -/
theorem epochCredits_chain_moved : CreditChain [(0, 5, 0), (5, 12, 5)] [(0, 5), (2, 0), (5, 7)] :=
  epochCredits_chain .new [.incrementCredits 0 5, .incrementCredits 2 0, .incrementCredits 5 7] rfl
    (by decide)

end Trezoa.VoteProgram
