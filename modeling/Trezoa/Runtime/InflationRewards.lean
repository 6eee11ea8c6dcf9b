import Trezoa.Runtime.EpochRewards

/-!
# Vote credits are rewarded once

Models `runtime/src/inflation_rewards`: what a stake earns for the credits of its vote account, and
how a redemption moves the credits that the stake has observed.

* `redeemStakeRewards_counts_once`: every credit above the observed ones is counted, and no credit
  by two redemptions.

The stake that is effective in an epoch is code of another crate, and a parameter. Of the events for
the tracer, only those for the points of an epoch are modelled.
-/

namespace Trezoa.Runtime

open Lib List

def u128Max : ℕ := 2 ^ 128 - 1

/-- A subtraction that panics on overflow. -/
def subChecked (a b : ℕ) : Except RewardsPanic ℕ := if b ≤ a then .ok (a - b) else .error .overflow

structure PointValue where
  rewards : ℕ
  points : ℕ

/-- The credits of a vote account; an entry of the history has an epoch, the credits at its end and
those at its start. -/
structure DelegatedVoteState where
  credits : ℕ
  epochCreditsIter : List (ℕ × ℕ × ℕ)

structure CalculatedStakePoints where
  points : ℕ
  newCreditsObserved : ℕ
  forceCreditsUpdateWithSkippedReward : Bool
deriving DecidableEq

/-- The event for the points of an epoch. -/
structure CalculatedPoints where
  epoch : ℕ
  stakeAmount : ℕ
  earnedCredits : ℕ
  earnedPoints : ℕ
deriving DecidableEq

/-- The credits of an epoch that the stake has not seen. -/
def earnedCredits (creditsInStake newCreditsObserved finalEpochCredits initialEpochCredits : ℕ) :
    Except RewardsPanic ℕ :=
  if creditsInStake < initialEpochCredits then subChecked finalEpochCredits initialEpochCredits
  else if creditsInStake < finalEpochCredits then subChecked finalEpochCredits newCreditsObserved
  else .ok 0

/-- An entry of the history in the loop over it. -/
def addEpochPoints (effectiveStake : ℕ → UInt64) (creditsInStake : ℕ)
    (acc : CalculatedStakePoints × List CalculatedPoints) :
    ℕ × ℕ × ℕ → Except RewardsPanic (CalculatedStakePoints × List CalculatedPoints)
  | (epoch, finalEpochCredits, initialEpochCredits) => do
    let stakeAmount := (effectiveStake epoch).toNat
    let earnedCredits ← earnedCredits creditsInStake acc.1.newCreditsObserved finalEpochCredits
      initialEpochCredits
    let earnedPoints := stakeAmount * earnedCredits
    if acc.1.points + earnedPoints ≤ u128Max then
      .ok ({ acc.1 with
          points := acc.1.points + earnedPoints
          newCreditsObserved := max acc.1.newCreditsObserved finalEpochCredits },
        acc.2 ++ [⟨epoch, stakeAmount, earnedCredits, earnedPoints⟩])
    else .error .overflow

/-- The points of a stake, and the credits that it has observed after they are paid. -/
def calculateStakePointsAndCredits (effectiveStake : Stake → ℕ → UInt64) (stake : Stake)
    (voteState : DelegatedVoteState) :
    Except RewardsPanic (CalculatedStakePoints × List CalculatedPoints) :=
  let creditsInStake := stake.creditsObserved
  let creditsInVote := voteState.credits
  if creditsInVote < creditsInStake then .ok (⟨0, creditsInVote, true⟩, [])
  else if creditsInVote = creditsInStake then .ok (⟨0, creditsInStake, false⟩, [])
  else
    voteState.epochCreditsIter.foldlM (addEpochPoints (effectiveStake stake) creditsInStake)
      (⟨0, creditsInStake, false⟩, [])

/-- The part of the voter and that of the staker, and if both should have one. -/
def commissionSplit (commission on : ℕ) : ℕ × ℕ × Bool :=
  match min commission 100 with
  | 0 => (0, on, false)
  | 100 => (on, 0, false)
  | split => (on * split / 100, on * (100 - split) / 100, true)

structure CalculatedStakeRewards where
  stakerRewards : ℕ
  voterRewards : ℕ
  newCreditsObserved : ℕ

/-- What a redemption reads; no redemption changes the activation epoch of a stake. -/
structure Redemption where
  rewardedEpoch : ℕ
  activationEpoch : ℕ
  pointValue : PointValue
  voterCommission : ℕ
  voteState : DelegatedVoteState
  effectiveStake : Stake → ℕ → UInt64

def calculateStakeRewards (call : Redemption) (stake : Stake) :
    Except RewardsPanic (Option CalculatedStakeRewards) := do
  let (⟨points, newCreditsObserved, forced⟩, _) ←
    calculateStakePointsAndCredits call.effectiveStake stake call.voteState
  -- rewards are disabled, or the stake was just activated
  if call.pointValue.rewards = 0 ∨ call.activationEpoch = call.rewardedEpoch ∨ forced = true then
    .ok (some ⟨0, 0, newCreditsObserved⟩)
  else if points = 0 ∨ call.pointValue.points = 0 then .ok none
  else if u128Max < points * call.pointValue.rewards then .error .overflow
  else
    let rewards := points * call.pointValue.rewards / call.pointValue.points
    if u64Max < rewards then .error .tryFromInt
    else if rewards = 0 then .ok none
    else
      let (voterRewards, stakerRewards, isSplit) := commissionSplit call.voterCommission rewards
      if (voterRewards = 0 ∨ stakerRewards = 0) ∧ isSplit = true then .ok none
      else .ok (some ⟨stakerRewards, voterRewards, newCreditsObserved⟩)

/-- Redeems the rewards of a stake: those of the staker and of the voter, and the stake after it. -/
def redeemStakeRewards (call : Redemption) (stake : Stake) :
    Except RewardsPanic (Option (ℕ × ℕ) × Stake) := do
  match ← calculateStakeRewards call stake with
  | none => .ok (none, stake)
  | some ⟨stakerRewards, voterRewards, newCreditsObserved⟩ =>
    (addChecked stake.delegationStake stakerRewards).map fun delegationStake =>
      (some (stakerRewards, voterRewards),
        { stake with creditsObserved := newCreditsObserved, delegationStake := delegationStake })

/-! ## The credits of a history -/

/-- The credits of an entry above those observed. -/
def unobserved (observed : ℕ) (entry : ℕ × ℕ × ℕ) : Finset ℕ :=
  .Ico (max entry.2.2 observed) entry.2.1

/-- The event for an entry whose credits above those observed are counted. -/
def epochPoints (effectiveStake : ℕ → UInt64) (observed : ℕ) (entry : ℕ × ℕ × ℕ) :
    CalculatedPoints :=
  let earnedCredits := (unobserved observed entry).card
  ⟨entry.1, (effectiveStake entry.1).toNat, earnedCredits,
    (effectiveStake entry.1).toNat * earnedCredits⟩

namespace DelegatedVoteState

/-- The history is a chain, up to the credits of the account. -/
structure Chain (voteState : DelegatedVoteState) : Prop where
  chain : voteState.epochCreditsIter.IsChain fun entry next =>
    entry.1 < next.1 ∧ next.2.2 = entry.2.1
  last : voteState.credits = (voteState.epochCreditsIter.getLast?.map (·.2.1)).getD 0
  credits_le : voteState.credits ≤ u64Max

/-- No epoch takes credits away. -/
def Grows (voteState : DelegatedVoteState) : Prop :=
  ∀ entry ∈ voteState.epochCreditsIter, entry.2.2 ≤ entry.2.1

/-- The credits at the start of the history. -/
def initialCredits (voteState : DelegatedVoteState) : ℕ :=
  (voteState.epochCreditsIter.head?.map (·.2.2)).getD 0

/-- The credits of the history above those observed. -/
def creditsAbove (voteState : DelegatedVoteState) (observed : ℕ) : Finset ℕ :=
  voteState.epochCreditsIter.toFinset.biUnion (unobserved observed)

lemma mem_creditsAbove {voteState : DelegatedVoteState} {observed credit : ℕ} :
    credit ∈ voteState.creditsAbove observed ↔
      observed ≤ credit ∧ ∃ entry ∈ voteState.epochCreditsIter,
        entry.2.2 ≤ credit ∧ credit < entry.2.1 := by
  simp only [creditsAbove, Finset.mem_biUnion, mem_toFinset, unobserved, Finset.mem_Ico, max_le_iff]
  grind

end DelegatedVoteState

/-- A history from some credits to others. -/
inductive Spans : ℕ → List (ℕ × ℕ × ℕ) → ℕ → Prop
  | nil (credits : ℕ) : Spans credits [] credits
  | cons {epoch initial final credits : ℕ} {rest : List (ℕ × ℕ × ℕ)} (hle : initial ≤ final)
      (h : Spans final rest credits) : Spans initial ((epoch, final, initial) :: rest) credits

namespace Spans

variable {initial credits observed : ℕ} {history : List (ℕ × ℕ × ℕ)}

lemma of_isChain (default : ℕ)
    (hchain : history.IsChain fun entry next => entry.1 < next.1 ∧ next.2.2 = entry.2.1)
    (hgrows : ∀ entry ∈ history, entry.2.2 ≤ entry.2.1) :
    Spans ((history.head?.map (·.2.2)).getD default) history
      ((history.getLast?.map (·.2.1)).getD default) := by
  induction history generalizing default with
  | nil => exact .nil default
  | cons entry rest ih =>
    obtain ⟨hnext, hrest⟩ := isChain_cons.mp hchain
    obtain ⟨epoch, final, initial⟩ := entry
    have hspans := ih final hrest fun e he => hgrows e (.tail _ he)
    have hhead : (rest.head?.map (·.2.2)).getD final = final := by
      cases hhead : rest.head? with
      | none => rfl
      | some next => exact (hnext next hhead).2
    rw [hhead] at hspans
    rw [getLast?_cons]
    refine .cons (hgrows _ (.head _)) ?_
    cases hlast : rest.getLast? <;> simpa [hlast] using hspans

lemma le (h : Spans initial history credits) : initial ≤ credits := by
  induction h with
  | nil => exact le_rfl
  | cons hle _ ih => exact hle.trans ih

lemma final_le (h : Spans initial history credits) : ∀ entry ∈ history, entry.2.1 ≤ credits := by
  induction h with
  | nil => exact nofun
  | cons _ h ih => exact forall_mem_cons.mpr ⟨h.le, ih⟩

/-- The credits above those observed, epoch by epoch, are those up to the last ones. -/
lemma sum_unobserved (h : Spans initial history credits) :
    (history.map fun entry => (unobserved observed entry).card).sum =
      credits - max initial observed := by
  induction h with
  | nil => simp
  | cons hle h ih =>
    have := h.le
    rw [map_cons, sum_cons, ih]
    simp only [unobserved, Nat.card_Ico]
    omega

/-- The loop counts the credits above those observed. What it has observed itself is at most the
credits at the start of the next entry. -/
lemma foldlM {effectiveStake : ℕ → UInt64} {acc : CalculatedStakePoints}
    {events : List CalculatedPoints} (h : Spans initial history credits)
    (hobs : observed ≤ acc.newCreditsObserved)
    (hnew : acc.newCreditsObserved ≤ max observed initial)
    (hnil : history = [] → initial ≤ acc.newCreditsObserved)
    (hsum : acc.points + (history.map fun entry =>
      (epochPoints effectiveStake observed entry).earnedPoints).sum ≤ u128Max) :
    history.foldlM (addEpochPoints effectiveStake observed) (acc, events) = .ok
      ({ acc with
          points := acc.points + (history.map fun entry =>
            (epochPoints effectiveStake observed entry).earnedPoints).sum
          newCreditsObserved := max acc.newCreditsObserved credits },
        events ++ history.map (epochPoints effectiveStake observed)) := by
  induction h generalizing acc events with
  | nil credits => simp [max_eq_left (hnil rfl), pure, Except.pure]
  | @cons epoch initial final credits rest hle h ih =>
    rw [map_cons, sum_cons, ← Nat.add_assoc] at hsum
    have hearned : earnedCredits observed acc.newCreditsObserved final initial =
        .ok (unobserved observed (epoch, final, initial)).card := by
      simp only [unobserved, Nat.card_Ico, earnedCredits, subChecked]
      grind
    have hstep : addEpochPoints effectiveStake observed (acc, events) (epoch, final, initial) =
        .ok ({ acc with
            points := acc.points +
              (epochPoints effectiveStake observed (epoch, final, initial)).earnedPoints
            newCreditsObserved := max acc.newCreditsObserved final },
          events ++ [epochPoints effectiveStake observed (epoch, final, initial)]) := by
      rw [addEpochPoints, hearned]
      exact if_pos (le_of_add_le_left hsum)
    refine foldlM_cons_eq_ok.mpr ⟨_, hstep, (ih ?_ ?_ ?_ hsum).trans ?_⟩
    · exact hobs.trans (le_max_left _ _)
    · grind
    · exact fun _ => le_max_right _ _
    · simp [Nat.add_assoc, max_assoc, h.le]

end Spans

/-! ## One redemption -/

section
variable {voteState : DelegatedVoteState} (h : voteState.Chain) (hgrows : voteState.Grows)
include h hgrows

lemma DelegatedVoteState.Chain.spans :
    Spans voteState.initialCredits voteState.epochCreditsIter voteState.credits := by
  rw [h.last]
  exact Spans.of_isChain 0 h.chain hgrows

lemma DelegatedVoteState.Chain.lt_credits {observed credit : ℕ}
    (hcredit : credit ∈ voteState.creditsAbove observed) : credit < voteState.credits := by
  obtain ⟨-, entry, hentry, -, hlt⟩ := mem_creditsAbove.mp hcredit
  exact hlt.trans_le ((h.spans hgrows).final_le entry hentry)

variable {effectiveStake : Stake → ℕ → UInt64} {stake : Stake}

/-- A stake that is behind is paid for every credit above those it has observed. -/
lemma calculateStakePointsAndCredits_eq (hlt : stake.creditsObserved < voteState.credits) :
    calculateStakePointsAndCredits effectiveStake stake voteState = .ok
      (⟨(voteState.epochCreditsIter.map fun entry =>
          (epochPoints (effectiveStake stake) stake.creditsObserved entry).earnedPoints).sum,
        voteState.credits, false⟩,
        voteState.epochCreditsIter.map
          (epochPoints (effectiveStake stake) stake.creditsObserved)) := by
  have hspans := h.spans hgrows
  have hsum : (voteState.epochCreditsIter.map fun entry =>
      (epochPoints (effectiveStake stake) stake.creditsObserved entry).earnedPoints).sum ≤
        u128Max :=
    calc
      _ ≤ (voteState.epochCreditsIter.map fun entry =>
            u64Max * (unobserved stake.creditsObserved entry).card).sum :=
        sum_le_sum fun entry _ => Nat.mul_le_mul_right _ (Nat.le_pred_of_lt (UInt64.toNat_lt _))
      _ = u64Max * (voteState.credits - max voteState.initialCredits stake.creditsObserved) := by
        rw [sum_map_mul_left, hspans.sum_unobserved]
      _ ≤ u64Max * u64Max := Nat.mul_le_mul_left _ ((Nat.sub_le _ _).trans h.credits_le)
      _ ≤ u128Max := by decide
  have hloop := @Spans.foldlM _ _ stake.creditsObserved _ (effectiveStake stake)
    ⟨0, stake.creditsObserved, false⟩ [] hspans le_rfl (le_max_left _ _) (fun hnil => ?_)
    (by rwa [Nat.zero_add])
  · rw [calculateStakePointsAndCredits, if_neg hlt.not_gt, if_neg hlt.ne']
    rwa [Nat.zero_add, max_eq_right hlt.le] at hloop
  · rw [h.last, hnil] at hlt
    exact absurd hlt (Nat.not_lt_zero _)

/-- However a stake stands, it has then observed the credits of the vote account. -/
lemma newCreditsObserved_eq {result : CalculatedStakePoints × List CalculatedPoints}
    (hresult : calculateStakePointsAndCredits effectiveStake stake voteState = .ok result) :
    result.1.newCreditsObserved = voteState.credits := by
  rcases lt_trichotomy voteState.credits stake.creditsObserved with hlt | heq | hlt
  · rw [calculateStakePointsAndCredits, if_pos hlt] at hresult
    cases hresult
    rfl
  · rw [calculateStakePointsAndCredits, if_neg heq.not_lt, if_pos heq] at hresult
    cases hresult
    exact heq.symm
  · rw [calculateStakePointsAndCredits_eq h hgrows hlt] at hresult
    cases hresult
    rfl

end

/-- A redemption leaves the stake, or moves it to the credits of the vote account. -/
lemma redeemStakeRewards_cases {call : Redemption} {stake stake' : Stake}
    {result : Option (ℕ × ℕ)} (h : call.voteState.Chain) (hgrows : call.voteState.Grows)
    (hredeem : redeemStakeRewards call stake = .ok (result, stake')) :
    result = none ∧ stake' = stake ∨
      result ≠ none ∧ stake'.creditsObserved = call.voteState.credits := by
  obtain ⟨calculated, hcalculated, hredeem⟩ := bind_eq_ok.mp hredeem
  obtain ⟨points, hpoints, hcalculated⟩ := bind_eq_ok.mp hcalculated
  have hnew := newCreditsObserved_eq h hgrows hpoints
  cases calculated with
  | none =>
    cases hredeem
    exact .inl ⟨rfl, rfl⟩
  | some rewards =>
    obtain ⟨delegationStake, -, heq⟩ := map_eq_ok.mp hredeem
    cases heq
    refine .inr ⟨nofun, ?_⟩
    simp only at hcalculated
    split_ifs at hcalculated <;> cases hcalculated <;> exact hnew

/-! ## A sequence of redemptions -/

/-- Redemptions of a stake one after another, while the history of the vote account grows. -/
structure Redemptions (calls : ℕ → Redemption) (stakes : ℕ → Stake)
    (results : ℕ → Option (ℕ × ℕ)) (length : ℕ) : Prop where
  step : ∀ n < length, redeemStakeRewards (calls n) (stakes n) = .ok (results n, stakes (n + 1))
  chain : ∀ n < length, (calls n).voteState.Chain
  grows : ∀ n < length, (calls n).voteState.Grows
  credits_le : ∀ m n, m ≤ n → n < length → (calls m).voteState.credits ≤ (calls n).voteState.credits

namespace Redemptions

variable {calls : ℕ → Redemption} {stakes : ℕ → Stake} {results : ℕ → Option (ℕ × ℕ)}
  {length m n : ℕ} (h : Redemptions calls stakes results length)
include h

lemma step_cases (hn : n < length) : results n = none ∧ stakes (n + 1) = stakes n ∨
    results n ≠ none ∧ (stakes (n + 1)).creditsObserved = (calls n).voteState.credits :=
  redeemStakeRewards_cases (h.chain n hn) (h.grows n hn) (h.step n hn)

/-- After a redemption that was not skipped, its credits stay observed. -/
lemma credits_le_observed (hm : results m ≠ none) (hmn : m < n) (hn : n ≤ length) :
    (calls m).voteState.credits ≤ (stakes n).creditsObserved := by
  induction n, hmn using Nat.le_induction with
  | base =>
    obtain ⟨hnone, -⟩ | ⟨-, hobs⟩ := h.step_cases hn
    · exact absurd hnone hm
    · exact hobs.ge
  | succ n hmn ih =>
    obtain ⟨-, hstake⟩ | ⟨-, hobs⟩ := h.step_cases hn
    · exact hstake ▸ ih (Nat.le_of_succ_le hn)
    · exact hobs ▸ h.credits_le m n (Nat.le_of_succ_le hmn) hn

/-- Redemptions that are skipped leave the stake. -/
lemma stakes_eq (hmn : m ≤ n) (hn : n ≤ length)
    (hskip : ∀ k, m ≤ k → k < n → results k = none) : stakes n = stakes m := by
  induction n, hmn using Nat.le_induction with
  | base => rfl
  | succ n hmn ih =>
    obtain ⟨-, hstake⟩ | ⟨hsome, -⟩ := h.step_cases hn
    · exact hstake.trans
        (ih (Nat.le_of_succ_le hn) fun k hmk hkn => hskip k hmk (hkn.trans n.lt_succ_self))
    · exact absurd (hskip n hmn n.lt_succ_self) hsome

end Redemptions

/-- A redemption of a stake that is behind counts every credit of the history above those observed,
in its epoch and for the stake effective in it, and moves the stake to the credits of the vote
account. Over a sequence, no credit is counted again after a redemption that was not skipped, and
what was skipped is counted by the next one, as long as the history has it. -/
theorem redeemStakeRewards_counts_once :
    (∀ (effectiveStake : Stake → ℕ → UInt64) (stake : Stake) (voteState : DelegatedVoteState),
      voteState.Chain → voteState.Grows → stake.creditsObserved < voteState.credits →
      ∃ points events, calculateStakePointsAndCredits effectiveStake stake voteState =
          .ok (⟨points, voteState.credits, false⟩, events) ∧
        events = voteState.epochCreditsIter.map
          (epochPoints (effectiveStake stake) stake.creditsObserved) ∧
        points = (events.map CalculatedPoints.earnedPoints).sum ∧
        (events.map CalculatedPoints.earnedCredits).sum =
          voteState.credits - max stake.creditsObserved voteState.initialCredits) ∧
    ∀ (calls : ℕ → Redemption) (stakes : ℕ → Stake) (results : ℕ → Option (ℕ × ℕ)) (length : ℕ),
      Redemptions calls stakes results length → ∀ m n, m < n → n < length →
      (results m ≠ none →
        Disjoint ((calls m).voteState.creditsAbove (stakes m).creditsObserved)
          ((calls n).voteState.creditsAbove (stakes n).creditsObserved)) ∧
      ((∀ k, m ≤ k → k < n → results k = none) →
        (calls m).voteState.creditsAbove (stakes m).creditsObserved ∩
            (calls n).voteState.creditsAbove 0 ⊆
          (calls n).voteState.creditsAbove (stakes n).creditsObserved) := by
  refine ⟨fun effectiveStake stake voteState h hgrows hlt => ⟨_, _,
    calculateStakePointsAndCredits_eq h hgrows hlt, rfl, ?_, ?_⟩,
    fun calls stakes results length h m n hmn hn => ⟨fun hm => ?_, fun hskip credit hcredit => ?_⟩⟩
  · rw [map_map]
    rfl
  · rw [map_map, max_comm]
    exact (h.spans hgrows).sum_unobserved
  · refine Finset.disjoint_left.mpr fun credit hcm hcn => ?_
    have hlt := (h.chain m (hmn.trans hn)).lt_credits (h.grows m (hmn.trans hn)) hcm
    have hle := (DelegatedVoteState.mem_creditsAbove.mp hcn).1
    exact absurd (h.credits_le_observed hm hmn hn.le) (not_le.mpr (hle.trans_lt hlt))
  obtain ⟨hcm, hcn⟩ := Finset.mem_inter.mp hcredit
  rw [h.stakes_eq hmn.le hn.le hskip]
  exact DelegatedVoteState.mem_creditsAbove.mpr
    ⟨(DelegatedVoteState.mem_creditsAbove.mp hcm).1, (DelegatedVoteState.mem_creditsAbove.mp hcn).2⟩

/-- In a history that takes credits away, the loop underflows. -/
theorem calculateStakePointsAndCredits_underflows :
    (⟨20, [(0, 5, 10), (1, 20, 5)]⟩ : DelegatedVoteState).Chain ∧
      calculateStakePointsAndCredits (fun _ _ => 5) ⟨0, 5, 3⟩
        ⟨20, [(0, 5, 10), (1, 20, 5)]⟩ = .error .overflow :=
  ⟨⟨by simp, rfl, by decide⟩, rfl⟩

/-- A reward that is truncated to zero is skipped; the next redemption counts its credits, and the
one after that counts none of them. -/
theorem redeemStakeRewards_counts_once_truncated :
    let voteState : DelegatedVoteState := ⟨10, [(0, 4, 0), (1, 10, 4)]⟩
    let calls (n : ℕ) : Redemption :=
      ⟨1, 0, if n = 0 then ⟨1, 100⟩ else ⟨100, 10⟩, 0, voteState, fun _ _ => 5⟩
    let stakes (n : ℕ) : Stake := if n ≤ 1 then ⟨0, 5, 2⟩ else ⟨0, 405, 10⟩
    let results (n : ℕ) : Option (ℕ × ℕ) := if n = 1 then some (400, 0) else none
    Redemptions calls stakes results 3 ∧
      (∃ points events, calculateStakePointsAndCredits (fun _ _ => 5) ⟨0, 5, 2⟩ voteState =
          .ok (⟨points, 10, false⟩, events) ∧
        (events.map CalculatedPoints.earnedCredits).sum = 8) ∧
      voteState.creditsAbove 2 ∩ voteState.creditsAbove 0 ⊆ voteState.creditsAbove 2 ∧
      Disjoint (voteState.creditsAbove 2) (voteState.creditsAbove 10) := by
  intro voteState calls stakes results
  have hchain : voteState.Chain := ⟨by simp [voteState], rfl, by decide⟩
  have hgrows : voteState.Grows := by simp [DelegatedVoteState.Grows, voteState]
  have hredemptions : Redemptions calls stakes results 3 := by
    refine ⟨fun n hn => ?_, fun _ _ => hchain, fun _ _ => hgrows, fun _ _ _ _ => le_rfl⟩
    interval_cases n <;> decide +kernel
  obtain ⟨hcounts, hsequence⟩ := redeemStakeRewards_counts_once
  obtain ⟨points, events, heq, -, -, hsum⟩ := hcounts (fun _ _ => 5) ⟨0, 5, 2⟩ voteState hchain
    hgrows (by decide)
  refine ⟨hredemptions, ⟨points, events, heq, hsum⟩, ?_, ?_⟩
  · exact (hsequence _ _ _ _ hredemptions 0 1 (by decide) (by decide)).2 fun k _ hk => by
      interval_cases k
      rfl
  · exact (hsequence _ _ _ _ hredemptions 1 2 (by decide) (by decide)).1 nofun

end Trezoa.Runtime
