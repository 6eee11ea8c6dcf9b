import Trezoa.Votor.ParentReadyTracker

/-!
# Parent ready tracking is exact

What the parent ready tracker is for, and that its incremental propagation computes it.

* `parentReady_exact`: so it holds after every sequence of calls.
-/

namespace Trezoa.Votor

open Lib List

/-! ## Skip connections -/

/-- Every slot strictly between `a` and the later slot `s` is skipped. -/
def SkipConnected (skips : Set ℕ) (a s : ℕ) : Prop :=
  a < s ∧ ∀ t, a < t → t < s → t ∈ skips

section skipConnected
variable {skips : Set ℕ} {a s x : ℕ}

/-- A slot is connected to the next one, and over it if it is skipped. -/
lemma skipConnected_succ :
    SkipConnected skips a (s + 1) ↔ a = s ∨ s ∈ skips ∧ SkipConnected skips a s := by
  constructor
  · rintro ⟨hlt, hskips⟩
    rcases (Nat.lt_succ_iff.mp hlt).eq_or_lt with rfl | hlt
    · exact .inl rfl
    · refine .inr ⟨hskips s hlt s.lt_succ_self, hlt, fun t h₁ h₂ => ?_⟩
      exact hskips t h₁ (h₂.trans s.lt_succ_self)
  rintro (rfl | ⟨hs, hlt, hskips⟩)
  · exact ⟨a.lt_succ_self, fun t h₁ h₂ => by omega⟩
  refine ⟨hlt.trans s.lt_succ_self, fun t h₁ h₂ => ?_⟩
  rcases (Nat.lt_succ_iff.mp h₂).eq_or_lt with rfl | h₂
  · exact hs
  · exact hskips t h₁ h₂

/-- The slots a slot is connected to: the next one, and those that one is connected to if it is
skipped. -/
lemma skipConnected_iff_next :
    SkipConnected skips a s ↔ s = a + 1 ∨ a + 1 ∈ skips ∧ SkipConnected skips (a + 1) s := by
  constructor
  · rintro ⟨hlt, hskips⟩
    rcases (Nat.succ_le_of_lt hlt).eq_or_lt with heq | hlt'
    · exact .inl heq.symm
    · refine .inr ⟨hskips _ a.lt_succ_self hlt', hlt', fun t h₁ h₂ => ?_⟩
      exact hskips t (a.lt_succ_self.trans h₁) h₂
  rintro (rfl | ⟨ha, hlt, hskips⟩)
  · exact ⟨a.lt_succ_self, fun t h₁ h₂ => by omega⟩
  refine ⟨a.lt_succ_self.trans hlt, fun t h₁ h₂ => ?_⟩
  rcases (Nat.succ_le_of_lt h₁).eq_or_lt with rfl | h₁
  · exact ha
  · exact hskips t h₁ h₂

/-- Only the skips after a slot matter to what it is connected to. -/
lemma skipConnected_congr {skips' : Set ℕ} (h : ∀ t, a < t → (t ∈ skips ↔ t ∈ skips')) :
    SkipConnected skips a s ↔ SkipConnected skips' a s :=
  and_congr_right fun _ => forall_congr' fun t => imp_congr_right fun ht =>
    imp_congr_right fun _ => h t ht

/-- A new skip joins the slots connected to it with those it is connected to. -/
theorem skipConnected_insert :
    SkipConnected (insert x skips) a s ↔
      SkipConnected skips a s ∨ SkipConnected skips a x ∧ SkipConnected skips x s := by
  constructor
  · rintro ⟨hlt, hskips⟩
    have hmem : ∀ t, a < t → t < s → t ≠ x → t ∈ skips := fun t h₁ h₂ hne =>
      (hskips t h₁ h₂).resolve_left hne
    by_cases hx : a < x ∧ x < s
    · refine .inr ⟨⟨hx.1, fun t h₁ h₂ => ?_⟩, hx.2, fun t h₁ h₂ => ?_⟩
      · exact hmem t h₁ (h₂.trans hx.2) h₂.ne
      · exact hmem t (hx.1.trans h₁) h₂ h₁.ne'
    · refine .inl ⟨hlt, fun t h₁ h₂ => hmem t h₁ h₂ ?_⟩
      rintro rfl
      exact hx ⟨h₁, h₂⟩
  rintro (⟨hlt, hskips⟩ | ⟨⟨hax, h₁⟩, hxs, h₂⟩)
  · exact ⟨hlt, fun t ht ht' => .inr (hskips t ht ht')⟩
  refine ⟨hax.trans hxs, fun t ht ht' => ?_⟩
  rcases lt_trichotomy t x with hlt | rfl | hlt
  · exact .inr (h₁ t ht hlt)
  · exact .inl rfl
  · exact .inr (h₂ t hlt ht')

end skipConnected

namespace ParentReadyTracker

/-! ## The certificates -/

/-- The certificates that arrived above the root of their time, and the root. The initial root block
counts as notarized. -/
structure Ledger where
  root : ℕ
  blocks : Set Block
  skips : Set ℕ

namespace Ledger

/-- Before the first call. -/
def new (rootBlock : Block) : Ledger := ⟨rootBlock.1, {rootBlock}, ∅⟩

open Classical in
/-- What a call tells. -/
noncomputable def call (ledger : Ledger) : Call → Ledger
  | .addNewNotarFallbackOrStronger block =>
    if ledger.root < block.1 then { ledger with blocks := insert block ledger.blocks } else ledger
  | .addNewSkip slot =>
    if ledger.root < slot then { ledger with skips := insert slot ledger.skips } else ledger
  | .setRoot root => { ledger with root := root }

section call
variable {ledger : Ledger} {block : Block} {slot : ℕ}

lemma call_addNewNotarFallbackOrStronger (h : ledger.root < block.1) :
    ledger.call (.addNewNotarFallbackOrStronger block) =
      { ledger with blocks := insert block ledger.blocks } :=
  if_pos h

lemma call_addNewNotarFallbackOrStronger_of_le (h : block.1 ≤ ledger.root) :
    ledger.call (.addNewNotarFallbackOrStronger block) = ledger :=
  if_neg h.not_gt

lemma call_addNewSkip (h : ledger.root < slot) :
    ledger.call (.addNewSkip slot) = { ledger with skips := insert slot ledger.skips } :=
  if_pos h

lemma call_addNewSkip_of_le (h : slot ≤ ledger.root) : ledger.call (.addNewSkip slot) = ledger :=
  if_neg h.not_gt

@[simp] lemma root_call_addNewNotarFallbackOrStronger :
    (ledger.call (.addNewNotarFallbackOrStronger block)).root = ledger.root := by
  simp only [call]
  split <;> rfl

@[simp] lemma root_call_addNewSkip : (ledger.call (.addNewSkip slot)).root = ledger.root := by
  simp only [call]
  split <;> rfl

end call

/-- What a sequence of calls tells. -/
noncomputable def after (rootBlock : Block) (calls : List Call) : Ledger :=
  calls.foldl call (new rootBlock)

/-- `block` is a ready parent for slot `s`. -/
def Ready (ledger : Ledger) (s : ℕ) (block : Block) : Prop :=
  block ∈ ledger.blocks ∧ SkipConnected ledger.skips block.1 s

end Ledger

/-- The block of a call. -/
def Call.block? : Call → Option Block
  | .addNewNotarFallbackOrStronger block => some block
  | .addNewSkip _ | .setRoot _ => none

/-- The roots of a sequence of calls do not decrease, from `root` on. -/
def RootsAscend : ℕ → List Call → Prop
  | _, [] => True
  | root, .setRoot root' :: calls => root ≤ root' ∧ RootsAscend root' calls
  | root, _ :: calls => RootsAscend root calls

/-- No slot has more than three distinct blocks. -/
def AtMostThreeBlocks (blocks : List Block) : Prop :=
  ∀ slot, (blocks.dedup.filter (·.1 = slot)).length ≤ maxEntriesPerPubkeyForNotarizeLite

/-! ## Adding parents -/

/-- One event has been emitted for every block that is a parent of a first slot of a window. The
`initial` pair counts as emitted: the tracker was constructed with it. -/
def EventsExact (initial : ℕ × Block) (w : WithEvents) : Prop :=
  ∀ s block, w.1.root ≤ s →
    w.2.count (.parentReady s block) +
        (if s % numConsecutiveLeaderSlots = 0 ∧ (s, block) = initial then 1 else 0) =
      if s % numConsecutiveLeaderSlots = 0 ∧ block ∈ (w.1.status s).parentsReady then 1 else 0

/-- `w'` is `w` with `pairs` added to the parents, and the events for them. -/
structure Adds (pairs : Set (ℕ × Block)) (w w' : WithEvents) : Prop where
  root : w'.1.root = w.1.root
  skip : ∀ s, (w'.1.status s).skip = (w.1.status s).skip
  notarFallbacks : ∀ s, (w'.1.status s).notarFallbacks = (w.1.status s).notarFallbacks
  parentsReady : ∀ s block, block ∈ (w'.1.status s).parentsReady ↔
    block ∈ (w.1.status s).parentsReady ∨ (s, block) ∈ pairs
  events : ∀ initial, EventsExact initial w → EventsExact initial w'

variable {w w' w'' : WithEvents} {pairs pairs' : Set (ℕ × Block)} {s t : ℕ} {block : Block}

@[simp] lemma status_modifyStatus {tracker : ParentReadyTracker}
    {f : ParentReadyStatus → ParentReadyStatus} :
    (tracker.modifyStatus s f).status t =
      if t = s then f (tracker.status s) else tracker.status t :=
  EntryMap.get_modify

/-- What a change of one status leaves alone is left alone everywhere. -/
lemma status_modifyStatus_of_eq {γ : Type} {tracker : ParentReadyTracker}
    {f : ParentReadyStatus → ParentReadyStatus} {π : ParentReadyStatus → γ}
    (hf : ∀ status, π (f status) = π status) :
    π ((tracker.modifyStatus s f).status t) = π (tracker.status t) := by
  rw [status_modifyStatus]
  split
  · next heq => rw [hf, heq]
  · rfl

section frame
variable {tracker : ParentReadyTracker}

lemma skip_pushNotarFallback :
    ((tracker.pushNotarFallback block).status t).skip = (tracker.status t).skip :=
  status_modifyStatus_of_eq fun _ => rfl

lemma parentsReady_pushNotarFallback :
    ((tracker.pushNotarFallback block).status t).parentsReady = (tracker.status t).parentsReady :=
  status_modifyStatus_of_eq fun _ => rfl

lemma notarFallbacks_pushNotarFallback :
    ((tracker.pushNotarFallback block).status t).notarFallbacks =
      if t = block.1 then (tracker.status block.1).notarFallbacks ++ [block]
      else (tracker.status t).notarFallbacks := by
  rw [pushNotarFallback, status_modifyStatus]
  split <;> rfl

lemma notarFallbacks_setSkip :
    ((tracker.setSkip s).status t).notarFallbacks = (tracker.status t).notarFallbacks :=
  status_modifyStatus_of_eq fun _ => rfl

lemma parentsReady_setSkip :
    ((tracker.setSkip s).status t).parentsReady = (tracker.status t).parentsReady :=
  status_modifyStatus_of_eq fun _ => rfl

/-- The exactness of the events is about the parents only. -/
lemma EventsExact.of_parentsReady_eq {initial : ℕ × Block} (h : EventsExact initial w)
    (hroot : tracker.root = w.1.root)
    (hparents : ∀ s, (tracker.status s).parentsReady = (w.1.status s).parentsReady) :
    EventsExact initial (tracker, w.2) := by
  intro s block hs
  rw [h s block (hroot ▸ hs), hparents]

end frame

lemma mem_parentsReady_pushParent {block' : Block} :
    block' ∈ ((pushParent s block w).1.status t).parentsReady ↔
      block' ∈ (w.1.status t).parentsReady ∨ t = s ∧ block' = block := by
  simp only [pushParent, status_modifyStatus]
  split <;> simp_all

lemma count_pushParent {block' : Block} :
    (pushParent s block w).2.count (.parentReady t block') = w.2.count (.parentReady t block') +
      if s % numConsecutiveLeaderSlots = 0 ∧ t = s ∧ block' = block then 1 else 0 := by
  unfold pushParent
  by_cases hfirst : s % numConsecutiveLeaderSlots = 0
  · by_cases hpair : t = s ∧ block' = block
    · obtain ⟨rfl, rfl⟩ := hpair
      simp [hfirst]
    have hne : VotorEvent.parentReady s block ≠ .parentReady t block' := fun h => by
      cases h
      exact hpair ⟨rfl, rfl⟩
    simp [hfirst, hpair, hne]
  · simp [hfirst]

namespace Adds

lemma congr (h : Adds pairs w w') (hpairs : ∀ s block, (s, block) ∈ pairs ↔ (s, block) ∈ pairs') :
    Adds pairs' w w' := by
  have hset : pairs = pairs' := Set.ext fun p => hpairs p.1 p.2
  rwa [← hset]

lemma refl (w : WithEvents) : Adds ∅ w w := by
  constructor <;> simp

lemma trans (h : Adds pairs w w') (h' : Adds pairs' w' w'') : Adds (pairs ∪ pairs') w w'' where
  root := h'.root.trans h.root
  skip s := (h'.skip s).trans (h.skip s)
  notarFallbacks s := (h'.notarFallbacks s).trans (h.notarFallbacks s)
  parentsReady s block := by
    rw [h'.parentsReady, h.parentsReady, or_assoc]
    rfl
  events initial hexact := h'.events initial (h.events initial hexact)

/-- A loop adds what its rounds add. -/
lemma foldl {α : Type} {f : WithEvents → α → WithEvents} {added : α → Set (ℕ × Block)}
    (hf : ∀ w x, Adds (added x) w (f w x)) (l : List α) (w : WithEvents) :
    Adds {p | ∃ x ∈ l, p ∈ added x} w (l.foldl f w) := by
  induction l generalizing w with
  | nil => simpa using refl w
  | cons x l ih =>
    have hset : {p | ∃ y ∈ x :: l, p ∈ added y} = added x ∪ {p | ∃ y ∈ l, p ∈ added y} := by
      ext p
      simp
    rw [hset]
    exact (hf w x).trans (ih (f w x))

/-- A new pair is added with its event. -/
lemma pushParent (hnew : block ∉ (w.1.status s).parentsReady) :
    Adds {(s, block)} w (pushParent s block w) where
  root := rfl
  skip _ := status_modifyStatus_of_eq fun _ => rfl
  notarFallbacks _ := status_modifyStatus_of_eq fun _ => rfl
  parentsReady t block' := by
    rw [mem_parentsReady_pushParent]
    simp
  events initial hexact := by
    intro t block' hroot
    have hold := hexact t block' hroot
    rw [count_pushParent]
    simp only [mem_parentsReady_pushParent]
    by_cases hpair : t = s ∧ block' = block
    · -- the pair was not a parent, so its event has not been emitted and it is not the initial one
      obtain ⟨rfl, rfl⟩ := hpair
      simp only [hnew, and_false, if_false, Nat.add_eq_zero_iff] at hold
      simp [hold.1, hold.2]
    · simpa [hpair] using hold

/-- A block is added to a slot that does not have it yet. -/
lemma addPotentialParent (s : ℕ) (w : WithEvents) (block : Block) :
    Adds {(s, block)} w (addPotentialParent s w block) := by
  unfold ParentReadyTracker.addPotentialParent
  split
  · next hmem =>
    refine { refl w with parentsReady := fun t block' => ?_ }
    have : t = s ∧ block' = block → block' ∈ (w.1.status t).parentsReady := by
      rintro ⟨rfl, rfl⟩
      exact hmem
    simpa using this
  · next hnew => exact pushParent hnew

/-- The highest slot does not matter to what is added. -/
lemma raiseHighest (h : Adds pairs w w') (s : ℕ) : Adds pairs w (w'.1.raiseHighest s, w'.2) where
  root := h.root
  skip := h.skip
  notarFallbacks := h.notarFallbacks
  parentsReady := h.parentsReady
  events := h.events

/-- A round of the loop for a new block. -/
lemma addParent (block : Block) (w : WithEvents) (s : ℕ) :
    Adds {(s, block)} w (addParent block w s) := by
  have h := addPotentialParent s w block
  unfold ParentReadyTracker.addPotentialParent at h
  unfold ParentReadyTracker.addParent
  split at h
  · next hmem => rwa [if_pos hmem]
  · next hnew =>
    rw [if_neg hnew]
    exact h.raiseHighest s

/-- A round of the outer loop for a new skip. -/
lemma addPotentialParents (parents : List Block) (w : WithEvents) (s : ℕ) :
    Adds {p | p.1 = s ∧ p.2 ∈ parents} w (addPotentialParents parents w s) := by
  refine ((foldl (addPotentialParent s) parents w).congr fun t block => ?_).raiseHighest s
  constructor
  · rintro ⟨block', hmem, heq⟩
    cases heq
    exact ⟨rfl, hmem⟩
  · rintro ⟨rfl, hmem⟩
    exact ⟨block, hmem, rfl⟩

end Adds

/-! ## The slots that a new certificate reaches -/

/-- The slots with a skip certificate. -/
def skips (tracker : ParentReadyTracker) : Set ℕ := {s | (tracker.status s).skip = true}

variable {tracker tracker' : ParentReadyTracker} {a fuel slot : ℕ}

lemma mem_skips : s ∈ tracker.skips ↔ (tracker.status s).skip = true := Iff.rfl

/-- The walk over the slots depends on the skips only. -/
lemma futureSlots_congr (h : ∀ s, (tracker.status s).skip = (tracker'.status s).skip) :
    tracker.futureSlots fuel s = tracker'.futureSlots fuel s := by
  induction fuel generalizing s with
  | zero => rfl
  | succ fuel ih => simp only [futureSlots, h s, ih]

/-- The loop for a new block walks over the same slots as the one for a new skip. -/
lemma addParentFrom_eq :
    addParentFrom block fuel s w =
      (w.1.futureSlots fuel s).map fun slots => slots.foldl (addParent block) w := by
  induction fuel generalizing s w with
  | zero => rfl
  | succ fuel ih =>
    have hskip := (Adds.addParent block w s).skip
    unfold addParentFrom futureSlots
    simp only [hskip s, ih, futureSlots_congr hskip]
    split
    · cases w.1.futureSlots fuel (s + 1) <;> rfl
    · rfl

/-- The walk ends when it has the rounds to meet a slot that is not skipped, with the slots that
the slot before the first one is connected to. -/
lemma futureSlots_of_not_skip (hstop : ∃ n < fuel, (tracker.status (a + 1 + n)).skip = false) :
    ∃ slots, tracker.futureSlots fuel (a + 1) = .ok slots ∧
      ∀ t, t ∈ slots ↔ SkipConnected tracker.skips a t := by
  induction fuel generalizing a with
  | zero => simp at hstop
  | succ fuel ih =>
    unfold futureSlots
    by_cases hskip : (tracker.status (a + 1)).skip = true
    · obtain ⟨n, hn, hstop⟩ := hstop
      have hpos : n ≠ 0 := by
        rintro rfl
        simp [hskip] at hstop
      obtain ⟨slots, hslots, hmem⟩ :=
        @ih (a + 1) ⟨n - 1, by omega, by rwa [show a + 1 + 1 + (n - 1) = a + 1 + n by omega]⟩
      refine ⟨(a + 1) :: slots, by rw [if_pos hskip, hslots]; rfl, fun t => ?_⟩
      rw [skipConnected_iff_next, mem_cons, hmem]
      simp [mem_skips, hskip]
    · refine ⟨[a + 1], by rw [if_neg hskip]; rfl, fun t => ?_⟩
      rw [skipConnected_iff_next, mem_singleton]
      simp [mem_skips, hskip]

/-- The number of entries is enough rounds. -/
theorem futureSlots_ok (tracker : ParentReadyTracker) (a : ℕ) :
    ∃ slots, tracker.futureSlots (tracker.slotStatuses.keys.length + 1) (a + 1) = .ok slots ∧
      ∀ t, t ∈ slots ↔ SkipConnected tracker.skips a t := by
  apply futureSlots_of_not_skip
  by_contra! hrun
  have hlen : tracker.slotStatuses.keys.length + 1 ≤ tracker.slotStatuses.keys.length := by
    refine EntryMap.length_run_le (a := a + 1) fun n hn hdefault => hrun n hn ?_
    unfold status
    rw [hdefault]
    rfl
  omega

/-- A new block is recorded, and added to the slots that it is connected to. -/
theorem addNewNotarFallbackOrStronger_adds (hroot : w.1.root < block.1)
    (hnew : block ∉ (w.1.status block.1).notarFallbacks)
    (hlength : ((w.1.pushNotarFallback block).status block.1).notarFallbacks.length ≤
      maxEntriesPerPubkeyForNotarizeLite) :
    ∃ w', addNewNotarFallbackOrStronger w block = .ok w' ∧
      Adds {p | SkipConnected (w.1.pushNotarFallback block).skips block.1 p.1 ∧ p.2 = block}
        (w.1.pushNotarFallback block, w.2) w' := by
  obtain ⟨slots, hslots, hconnected⟩ := futureSlots_ok (w.1.pushNotarFallback block) block.1
  unfold addNewNotarFallbackOrStronger
  simp only [if_neg hroot.not_ge, if_neg hnew, assert_of_true hlength, addParentFrom_eq, hslots]
  have hadds := Adds.foldl (Adds.addParent block) slots (w.1.pushNotarFallback block, w.2)
  refine ⟨_, rfl, hadds.congr fun s block' => ?_⟩
  simp [← hconnected]

/-- A new skip is recorded, and the potential parents of its slot are added to the slots that it is
connected to. -/
theorem addNewSkip_adds (hroot : w.1.root < slot) :
    ∃ w', addNewSkip w slot = .ok w' ∧
      Adds {p | SkipConnected (w.1.setSkip slot).skips slot p.1 ∧
        p.2 ∈ potentialParents ((w.1.setSkip slot).status (slot - 1))} (w.1.setSkip slot,
        w.2) w' := by
  obtain ⟨slots, hslots, hconnected⟩ := futureSlots_ok (w.1.setSkip slot) slot
  unfold addNewSkip
  simp only [if_neg hroot.not_ge, hslots]
  by_cases hparents : potentialParents ((w.1.setSkip slot).status (slot - 1)) = []
  · refine ⟨_, if_pos hparents, (Adds.refl _).congr fun s block => ?_⟩
    simp [hparents]
  · refine ⟨_, if_neg hparents, (Adds.foldl (Adds.addPotentialParents _) slots _).congr
      fun s block => ?_⟩
    simp [← hconnected]

/-! ## The invariant -/

/-- The tracker has recorded the certificates of a ledger. `all` lists the blocks of all calls. -/
structure Recorded (rootBlock : Block) (all : List Block) (ledger : Ledger) (w : WithEvents) :
    Prop where
  root : w.1.root = ledger.root
  root_le : rootBlock.1 ≤ ledger.root
  skip : ∀ s, ledger.root ≤ s → (s ∈ w.1.skips ↔ s ∈ ledger.skips)
  notarFallbacks : ∀ s block, ledger.root ≤ s →
    (block ∈ (w.1.status s).notarFallbacks ↔ block ∈ ledger.blocks ∧ block.1 = s)
  nodup : ∀ s, ledger.root ≤ s → (w.1.status s).notarFallbacks.Nodup
  events : EventsExact (rootBlock.1 + 1, rootBlock) w
  blocks : ∀ block ∈ ledger.blocks, block = rootBlock ∨ block ∈ all

/-- The tracker has recorded the certificates of a ledger and derived the ready parents. -/
structure Tracks (rootBlock : Block) (all : List Block) (ledger : Ledger) (w : WithEvents) : Prop
    extends Recorded rootBlock all ledger w where
  parentsReady : ∀ s block, ledger.root ≤ s → ledger.root ≤ block.1 →
    (block ∈ (w.1.status s).parentsReady ↔ ledger.Ready s block)

variable {rootBlock : Block} {all : List Block} {ledger : Ledger}

namespace Recorded

section
variable (h : Recorded rootBlock all ledger w)
include h

/-- Adding parents does not touch the certificates. -/
lemma adds (hadds : Adds pairs w w') : Recorded rootBlock all ledger w' where
  root := hadds.root.trans h.root
  root_le := h.root_le
  skip s hs := by
    rw [← h.skip s hs, mem_skips, mem_skips, hadds.skip]
  notarFallbacks s block hs := by
    rw [hadds.notarFallbacks]
    exact h.notarFallbacks s block hs
  nodup s hs := by
    rw [hadds.notarFallbacks]
    exact h.nodup s hs
  events := hadds.events _ h.events
  blocks := h.blocks

/-- A new block is recorded in its slot. -/
lemma pushNotarFallback (hroot : ledger.root < block.1)
    (hnew : block ∉ (w.1.status block.1).notarFallbacks) (hall : block ∈ all) :
    Recorded rootBlock all { ledger with blocks := insert block ledger.blocks }
      (w.1.pushNotarFallback block, w.2) where
  root := h.root
  root_le := h.root_le
  skip s hs := by
    rw [← h.skip s hs, mem_skips, mem_skips, skip_pushNotarFallback]
  notarFallbacks s block' hs := by
    rw [notarFallbacks_pushNotarFallback]
    by_cases heq : s = block.1
    · subst heq
      rw [if_pos rfl, mem_append, h.notarFallbacks _ _ hs, mem_singleton, Set.mem_insert_iff]
      constructor
      · rintro (⟨hmem, hslot⟩ | rfl)
        · exact ⟨.inr hmem, hslot⟩
        · exact ⟨.inl rfl, rfl⟩
      · rintro ⟨rfl | hmem, hslot⟩
        · exact .inr rfl
        · exact .inl ⟨hmem, hslot⟩
    rw [if_neg heq, h.notarFallbacks _ _ hs, Set.mem_insert_iff]
    refine and_congr_left fun hslot => ?_
    have hne : block' ≠ block := by
      rintro rfl
      exact heq hslot.symm
    simp [hne]
  nodup s hs := by
    rw [notarFallbacks_pushNotarFallback]
    split
    · next heq =>
      subst heq
      exact (h.nodup _ hs).append (nodup_singleton _) (by simpa using hnew)
    · exact h.nodup s hs
  events := h.events.of_parentsReady_eq rfl fun _ => parentsReady_pushNotarFallback
  blocks block' hblock' := by
    rcases hblock' with rfl | hblock'
    · exact .inr hall
    · exact h.blocks block' hblock'

/-- A new skip is recorded. -/
lemma setSkip (slot : ℕ) :
    Recorded rootBlock all { ledger with skips := insert slot ledger.skips }
      (w.1.setSkip slot, w.2) where
  root := h.root
  root_le := h.root_le
  skip s hs := by
    rw [Set.mem_insert_iff, ← h.skip s hs, mem_skips, mem_skips, ParentReadyTracker.setSkip,
      status_modifyStatus]
    split <;> simp_all
  notarFallbacks s block hs := by
    rw [← h.notarFallbacks s block hs, notarFallbacks_setSkip]
  nodup s hs := by
    rw [notarFallbacks_setSkip]
    exact h.nodup s hs
  events := h.events.of_parentsReady_eq rfl fun _ => parentsReady_setSkip
  blocks := h.blocks

/-- There is room for the blocks of a slot. -/
lemma length_notarFallbacks_le (hall : AtMostThreeBlocks all) (hroot : ledger.root < slot) :
    (w.1.status slot).notarFallbacks.length ≤ maxEntriesPerPubkeyForNotarizeLite := by
  refine le_trans ?_ (hall slot)
  refine (subperm_of_subset (h.nodup slot hroot.le) fun block hblock => ?_).length_le
  obtain ⟨hmem, hslot⟩ := (h.notarFallbacks slot block hroot.le).mp hblock
  have hne : block ≠ rootBlock := by
    rintro rfl
    have := h.root_le
    omega
  simpa [hslot] using (h.blocks block hmem).resolve_left hne

/-- From the root on, the tracker and the ledger agree on what a slot is connected to. -/
lemma skipConnected (ha : ledger.root ≤ a) :
    SkipConnected w.1.skips a s ↔ SkipConnected ledger.skips a s :=
  skipConnected_congr fun t ht => h.skip t (ha.trans ht.le)

end
end Recorded

/-! ## The calls -/

lemma status_new : (new rootBlock).status s =
    if s = rootBlock.1 + 1 then ⟨false, [], [rootBlock]⟩
    else if s = rootBlock.1 then ⟨false, [rootBlock], []⟩ else default := by
  unfold new status
  simp [EntryMap.get_modify, EntryMap.get_empty]

lemma skip_new : ((new rootBlock).status s).skip = false := by
  rw [status_new]
  split_ifs <;> rfl

lemma notarFallbacks_new :
    ((new rootBlock).status s).notarFallbacks = if s = rootBlock.1 then [rootBlock] else [] := by
  rw [status_new]
  split_ifs
  · omega
  all_goals rfl

lemma parentsReady_new :
    ((new rootBlock).status s).parentsReady = if s = rootBlock.1 + 1 then [rootBlock] else [] := by
  rw [status_new]
  split_ifs <;> rfl

namespace Tracks

/-- The root block is the parent of the next slot. -/
lemma new (rootBlock : Block) (all : List Block) :
    Tracks rootBlock all (Ledger.new rootBlock) (new rootBlock, []) where
  root := rfl
  root_le := le_rfl
  skip s hs := by
    rw [mem_skips, skip_new]
    simp [Ledger.new]
  notarFallbacks s block hs := by
    rw [notarFallbacks_new]
    split <;> grind [Ledger.new]
  nodup s hs := by
    rw [notarFallbacks_new]
    split <;> simp
  events s block hs := by
    rw [parentsReady_new]
    by_cases hnext : s = rootBlock.1 + 1 <;> simp [hnext]
  blocks block hblock := .inl hblock
  parentsReady s block hs hblock := by
    have hready : (Ledger.new rootBlock).Ready s block ↔ block = rootBlock ∧ s = block.1 + 1 := by
      unfold Ledger.Ready
      rw [skipConnected_iff_next]
      simp [Ledger.new]
    rw [hready, parentsReady_new]
    split <;> grind

section
variable (h : Tracks rootBlock all ledger w)
include h

/-- A new block is passed on to the slots it is connected to. -/
theorem addNewNotarFallbackOrStronger (hmost : AtMostThreeBlocks all) (hall : block ∈ all) :
    ∃ w', addNewNotarFallbackOrStronger w block = .ok w' ∧
      Tracks rootBlock all (ledger.call (.addNewNotarFallbackOrStronger block)) w' := by
  rcases le_or_gt block.1 ledger.root with hle | hroot
  · rw [Ledger.call_addNewNotarFallbackOrStronger_of_le hle]
    exact ⟨w, if_pos (h.root ▸ hle), h⟩
  have hroot' : w.1.root < block.1 := h.root ▸ hroot
  rw [Ledger.call_addNewNotarFallbackOrStronger hroot]
  by_cases hmem : block ∈ (w.1.status block.1).notarFallbacks
  · -- the certificate is already recorded
    have hblock := ((h.notarFallbacks _ block hroot.le).mp hmem).1
    rw [Set.insert_eq_of_mem hblock]
    refine ⟨w, ?_, h⟩
    unfold ParentReadyTracker.addNewNotarFallbackOrStronger
    simp only [if_neg hroot'.not_ge, if_pos hmem]
    rfl
  have hrecorded := h.pushNotarFallback hroot hmem hall
  obtain ⟨w', hw', hadds⟩ := addNewNotarFallbackOrStronger_adds hroot' hmem
    (hrecorded.length_notarFallbacks_le hmost hroot)
  refine ⟨w', hw', hrecorded.adds hadds, fun s block' hs hblock' => ?_⟩
  rw [hadds.parentsReady, parentsReady_pushNotarFallback, h.parentsReady s block' hs hblock']
  have hconnected := hrecorded.skipConnected (s := s) hroot.le
  constructor
  · rintro (⟨hmem, hskips⟩ | ⟨hskips, rfl⟩)
    · exact ⟨.inr hmem, hskips⟩
    · exact ⟨.inl rfl, hconnected.mp hskips⟩
  · rintro ⟨rfl | hmem, hskips⟩
    · exact .inr ⟨hconnected.mpr hskips, rfl⟩
    · exact .inl ⟨hmem, hskips⟩

/-- The blocks passed on over a slot are the ready parents of the next one. -/
lemma mem_potentialParents (hroot : ledger.root ≤ s) (hblock : ledger.root ≤ block.1) :
    block ∈ potentialParents (w.1.status s) ↔ ledger.Ready (s + 1) block := by
  unfold potentialParents Ledger.Ready
  rw [skipConnected_succ, mem_append, h.notarFallbacks s block hroot, ← h.skip s hroot, mem_skips]
  by_cases hskip : (w.1.status s).skip = true
  · rw [if_pos hskip, h.parentsReady s block hroot hblock, Ledger.Ready]
    tauto
  · simp [hskip]

/-- A new skip passes the ready parents of its slot on to the slots it is connected to. -/
theorem addNewSkip (slot : ℕ) :
    ∃ w', addNewSkip w slot = .ok w' ∧
      Tracks rootBlock all (ledger.call (.addNewSkip slot)) w' := by
  rcases le_or_gt slot ledger.root with hle | hroot
  · rw [Ledger.call_addNewSkip_of_le hle]
    exact ⟨w, if_pos (h.root ▸ hle), h⟩
  rw [Ledger.call_addNewSkip hroot]
  have hrecorded := h.setSkip slot
  obtain ⟨w', hw', hadds⟩ := addNewSkip_adds (w := w) (h.root ▸ hroot)
  refine ⟨w', hw', hrecorded.adds hadds, fun s block hs hblock => ?_⟩
  have hprevious : (w.1.setSkip slot).status (slot - 1) = w.1.status (slot - 1) := by
    rw [ParentReadyTracker.setSkip, status_modifyStatus, if_neg (by omega)]
  have hpassed := h.mem_potentialParents (s := slot - 1) (by omega) hblock
  rw [Nat.sub_add_cancel (by omega)] at hpassed
  have hconnected : SkipConnected (w.1.setSkip slot).skips slot s ↔
      SkipConnected ledger.skips slot s :=
    (hrecorded.skipConnected hroot.le).trans (skipConnected_congr fun t ht => by simp [ht.ne'])
  rw [hadds.parentsReady, parentsReady_setSkip, h.parentsReady s block hs hblock]
  show _ ∨ SkipConnected _ slot s ∧ block ∈ potentialParents _ ↔
    block ∈ ledger.blocks ∧ SkipConnected (insert slot ledger.skips) block.1 s
  rw [hprevious, hpassed, hconnected, skipConnected_insert, Ledger.Ready, Ledger.Ready]
  tauto

/-- A new root forgets what is below it. -/
theorem setRoot {root : ℕ} (hle : ledger.root ≤ root) :
    Tracks rootBlock all (ledger.call (.setRoot root)) (w.1.setRoot root, w.2) := by
  have hstatus : ∀ s, root ≤ s → (w.1.setRoot root).status s = w.1.status s := fun s hs =>
    EntryMap.get_retain (by simpa using hs)
  constructor
  · constructor
    · rfl
    · exact h.root_le.trans hle
    · intro s hs
      rw [mem_skips, hstatus s hs]
      exact h.skip s (hle.trans hs)
    · intro s block hs
      rw [hstatus s hs]
      exact h.notarFallbacks s block (hle.trans hs)
    · intro s hs
      rw [hstatus s hs]
      exact h.nodup s (hle.trans hs)
    · intro s block hs
      rw [hstatus s hs]
      exact h.events s block (h.root ▸ hle.trans hs)
    · exact h.blocks
  · intro s block hs hblock
    rw [hstatus s hs]
    exact h.parentsReady s block (hle.trans hs) (hle.trans hblock)

/-- Every call keeps the invariant. -/
theorem call (hmost : AtMostThreeBlocks all) {c : Call}
    (hall : ∀ block ∈ c.block?, block ∈ all) (hroot : ∀ root, c = .setRoot root →
    ledger.root ≤ root) :
    ∃ w', call w c = .ok w' ∧ Tracks rootBlock all (ledger.call c) w' := by
  cases c with
  | addNewNotarFallbackOrStronger block =>
    exact h.addNewNotarFallbackOrStronger hmost (hall block rfl)
  | addNewSkip slot => exact h.addNewSkip slot
  | setRoot root => exact ⟨_, rfl, h.setRoot (hroot root rfl)⟩

end

/-- The root of the ledger follows the roots of the calls. -/
lemma rootsAscend_call {c : Call} {calls : List Call} (h : RootsAscend ledger.root (c :: calls)) :
    (∀ root, c = .setRoot root → ledger.root ≤ root) ∧ RootsAscend (ledger.call c).root calls := by
  cases c with
  | addNewNotarFallbackOrStronger block =>
    rw [Ledger.root_call_addNewNotarFallbackOrStronger]
    exact ⟨by simp, h⟩
  | addNewSkip slot =>
    rw [Ledger.root_call_addNewSkip]
    exact ⟨by simp, h⟩
  | setRoot root =>
    refine ⟨?_, h.2⟩
    rintro root' ⟨⟩
    exact h.1

/-- Every sequence of calls keeps the invariant. -/
theorem run (h : Tracks rootBlock all ledger w) (hmost : AtMostThreeBlocks all) {calls : List Call}
    (hall : calls.filterMap Call.block? ⊆ all) (hascend : RootsAscend ledger.root calls) :
    ∃ w', calls.foldlM ParentReadyTracker.call w = .ok w' ∧
      Tracks rootBlock all (calls.foldl Ledger.call ledger) w' := by
  induction calls generalizing ledger w with
  | nil => exact ⟨w, rfl, h⟩
  | cons c calls ih =>
    obtain ⟨hroot, hascend⟩ := rootsAscend_call hascend
    have hblock : ∀ block ∈ c.block?, block ∈ all := fun block hblock =>
      hall (mem_filterMap.mpr ⟨c, .head _, hblock⟩)
    have hcalls : calls.filterMap Call.block? ⊆ all := fun block hmem =>
      hall ((List.Sublist.filterMap _ (sublist_cons_self c calls)).subset hmem)
    obtain ⟨w₁, hw₁, htracks⟩ := h.call hmost hblock hroot
    rw [foldlM_cons, hw₁]
    exact ih htracks hcalls hascend

end Tracks

/-- **Parent ready tracking is exact.** Whatever the order of the certificates, a block is a parent
of a slot above the root exactly when it is the initial root block or was added while above the
root, and every slot in between has a recorded skip. An event is emitted once for each such pair
with a first slot of a window, except the pair that the tracker was constructed with. -/
theorem parentReady_exact (rootBlock : Block) (calls : List Call)
    (hascend : RootsAscend rootBlock.1 calls)
    (hmost : AtMostThreeBlocks (calls.filterMap Call.block?)) :
    ∃ tracker events, run rootBlock calls = .ok (tracker, events) ∧
      ∀ s block, (Ledger.after rootBlock calls).root < s →
        (Ledger.after rootBlock calls).root ≤ block.1 →
        (block ∈ (tracker.status s).parentsReady ↔
          block ∈ (Ledger.after rootBlock calls).blocks ∧ block.1 < s ∧
            ∀ t, block.1 < t → t < s → t ∈ (Ledger.after rootBlock calls).skips) ∧
        events.count (.parentReady s block) =
          if s % numConsecutiveLeaderSlots = 0 ∧ block ∈ (tracker.status s).parentsReady ∧
            (s, block) ≠ (rootBlock.1 + 1, rootBlock) then 1 else 0 := by
  obtain ⟨⟨tracker, events⟩, hrun, htracks⟩ := (Tracks.new rootBlock _).run hmost
    (List.Subset.refl _) hascend
  refine ⟨tracker, events, hrun, fun s block hs hblock => ⟨?_, ?_⟩⟩
  · exact htracks.parentsReady s block hs.le hblock
  have hexact := htracks.events s block (htracks.root ▸ hs.le)
  -- the initial pair is counted on the left, so it has to be taken off on the right
  by_cases hfirst : s % numConsecutiveLeaderSlots = 0
  · by_cases hinitial : (s, block) = (rootBlock.1 + 1, rootBlock)
    · simp only [hfirst, hinitial, and_self, if_true, true_and] at hexact
      rw [if_neg fun h => h.2.2 hinitial]
      split at hexact <;> omega
    · simpa [hfirst, hinitial] using hexact
  · simpa [hfirst] using hexact

/-- The skips of slots 3 and 2 arrive around the block of slot 1. -/
def outOfOrderCalls : List Call :=
  [.addNewSkip 3, .addNewNotarFallbackOrStronger (1, 1), .addNewSkip 2]

theorem parentReady_exact_outOfOrderCalls :
    ∃ tracker events, run (0, 0) outOfOrderCalls = .ok (tracker, events) ∧
      (1, 1) ∈ (tracker.status 4).parentsReady ∧ events.count (.parentReady 4 (1, 1)) = 1 := by
  have hledger : Ledger.after (0, 0) outOfOrderCalls = ⟨0, {(1, 1), (0, 0)}, {2, 3}⟩ := by
    simp [outOfOrderCalls, Ledger.after, Ledger.call, Ledger.new]
  obtain ⟨tracker, events, hrun, hexact⟩ := parentReady_exact (0, 0) outOfOrderCalls trivial
    fun slot => (length_filter_le _ _).trans (by decide)
  rw [hledger] at hexact
  obtain ⟨hparents, hcount⟩ := hexact 4 (1, 1) (by decide) (by decide)
  have hready : (1, 1) ∈ (tracker.status 4).parentsReady := by
    refine hparents.mpr ⟨by simp, by decide, fun t h₁ h₂ => ?_⟩
    obtain rfl | rfl : t = 2 ∨ t = 3 := by omega
    · simp
    · simp
  refine ⟨tracker, events, hrun, hready, hcount.trans (if_pos ⟨rfl, hready, by decide⟩)⟩

end ParentReadyTracker
end Trezoa.Votor
