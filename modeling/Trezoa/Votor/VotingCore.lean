import Trezoa.Votor.EventHandler

/-!
# The voting core

The event handler without its effects: what it does to the vote history, the pending blocks, the
root and the ballot, as total functions in which no assertion, error or panic occurs.
-/

namespace Trezoa.Votor

open Lib List

/-- The part of the state that votes depend on. -/
structure Core where
  history : VoteHistory
  bankRoot : ℕ
  pending : List (Block × Block)
  ballot : Ballot

/-- The voting core of a state of the handler. -/
def State.core (s : State) : Core where
  history := s.voteHistory
  bankRoot := s.bankRoot
  pending := s.pendingBlocks
  ballot := s.ballot

namespace Core

/-! ## The functions of the handler on a core -/

/-- Cast a vote. -/
def cast (c : Core) (vote : Vote) : Core :=
  { c with history := c.history.record vote, ballot := c.ballot.castVote vote }

/-- The conditions under which `try_final` votes. -/
def FinalCond (c : Core) (block : Block) : Prop :=
  block ∈ c.history.notarizedBlocks ∧ block.1 ∉ c.history.itsOverSet ∧
    ¬c.history.BadWindow block.1 ∧ c.history.votedNotarMap block.1 = some block.2

instance (c : Core) (block : Block) : Decidable (c.FinalCond block) :=
  inferInstanceAs (Decidable (_ ∧ _ ∧ _ ∧ _))

/-- `try_final`. -/
def final (c : Core) (block : Block) : Core :=
  if c.FinalCond block then c.cast (.finalize block.1) else c

/-- The parent of a block lets it be voted for: at the start of a window it is ready, inside a
window it is the block of the slot before that the node voted for. -/
def ParentCond (c : Core) (block parent : Block) : Prop :=
  if leaderSlotIndex block.1 = 0 ∨ block.1 = 1 then
    (block.1, parent) ∈ c.history.parentReadySlots
  else
    parent.1 + 1 = block.1 ∧ c.history.votedNotarMap parent.1 = some parent.2

instance (c : Core) (block parent : Block) : Decidable (c.ParentCond block parent) := by
  unfold ParentCond
  infer_instance

/-- The conditions under which `try_notar` votes. -/
def NotarCond (c : Core) (block parent : Block) : Prop :=
  block.1 ∉ c.history.votedSet ∧ c.ParentCond block parent

instance (c : Core) (block parent : Block) : Decidable (c.NotarCond block parent) :=
  inferInstanceAs (Decidable (_ ∧ _))

/-- Forget the pending blocks of a slot. -/
def dropPending (c : Core) (slot : ℕ) : Core :=
  { c with pending := c.pending.filter (·.1.1 ≠ slot) }

/-- Vote for a block. -/
def notarize (c : Core) (block : Block) : Core :=
  ((c.cast (.notarize block.1 block.2)).dropPending block.1).final block

/-- `try_notar`. -/
def notar (c : Core) (block parent : Block) : Core :=
  if c.NotarCond block parent then c.notarize block else c

/-- `try_notar` on a list of blocks with their parents. -/
def notarAll (c : Core) (blocks : List (Block × Block)) : Core :=
  blocks.foldl (fun c x => c.notar x.1 x.2) c

/-- `check_pending_blocks`. -/
def checkPending (c : Core) : Core :=
  c.notarAll c.pending

/-- Vote skip in a slot without a vote. -/
def skip (c : Core) (slot : ℕ) : Core :=
  if slot ∈ c.history.votedSet then c else c.cast (.skip slot)

/-- The slots that `try_skip_window` visits. -/
def skipSlots (c : Core) (slot : ℕ) : List ℕ :=
  let start := max (max (firstOfConsecutiveLeaderSlots slot) c.bankRoot) 1
  range' start (lastOfConsecutiveLeaderSlots slot + 1 - start)

/-- `try_skip_window`. -/
def skipWindow (c : Core) (slot : ℕ) : Core :=
  (c.skipSlots slot).foldl skip c

/-- Keep a block for later. -/
def addPending (c : Core) (x : Block × Block) : Core :=
  { c with pending := insertBy (·.1.1) x c.pending }

/-- Record a ready parent. -/
def addParentReady (c : Core) (slot : ℕ) (parent : Block) : Core :=
  { c with history := (c.history.addParentReady slot parent).2 }

/-- Record a notarized block. -/
def addNotarized (c : Core) (block : Block) : Core :=
  { c with
    history := c.history.addBlockNotarized block
    ballot := c.ballot.seeNotarized block }

/-- Forget what is below a new root. -/
def pruneBelow (c : Core) (root : ℕ) : Core :=
  { c with
    history := c.history.setRoot root
    pending := c.pending.filter (root ≤ ·.1.1) }

def setRoot (c : Core) (root : ℕ) : Core :=
  { c.pruneBelow root with bankRoot := root }

/-! ## The invariant -/

/-- The slots in which a block may be pending: above the root, or the root once it is voted. -/
def Open (c : Core) (slot : ℕ) : Prop :=
  c.history.root < slot ∨ slot = c.history.root ∧ c.ballot.Voted slot

/-- A vote that the protocol allows, not below the root. -/
def MayCast (c : Core) (vote : Vote) : Prop :=
  c.history.root ≤ vote.slot ∧ c.ballot.MayCast vote

/-- The finalize vote for `block` is not missing: if the node voted for it, it is notarized and the
slot has no skip or fallback vote, then the finalize vote is cast. -/
def Finished (b : Ballot) (block : Block) : Prop :=
  .notarize block.1 block.2 ∈ b.cast → block ∈ b.notarized → ¬b.Skipped block.1 →
    .finalize block.1 ∈ b.cast

/-- The invariant of the voting core. With `complete`, no finalize vote is missing except possibly
the one for the block `late`. -/
structure Inv (complete : Prop) (late : Option Block) (c : Core) : Prop where
  records : Records c.history c.ballot
  safe : c.ballot.Safe
  bankRoot : c.bankRoot = c.history.root
  open_of_pending : ∀ x ∈ c.pending, c.Open x.1.1
  sorted : c.pending.Pairwise fun x y => x.1.1 ≤ y.1.1
  finished : complete → ∀ block, c.history.root ≤ block.1 → late ≠ some block →
    Finished c.ballot block

variable {complete : Prop} {late late' : Option Block} {c : Core} {vote : Vote}

variable {slot : ℕ}

lemma Open.root_le (h : c.Open slot) : c.history.root ≤ slot := by
  rcases h with h | ⟨rfl, -⟩
  · exact h.le
  · exact le_rfl

/-- A vote closes no slot. -/
lemma Open.cast (h : c.Open slot) : (c.cast vote).Open slot := by
  rcases h with hlt | ⟨heq, hv⟩
  · exact .inl hlt
  · exact .inr ⟨heq, Ballot.voted_castVote.mpr (.inl hv)⟩

lemma Open.final (h : c.Open slot) (block : Block) : (c.final block).Open slot := by
  unfold Core.final
  split
  · exact h.cast
  · exact h

lemma Open.notar (h : c.Open slot) (block parent : Block) : (c.notar block parent).Open slot := by
  unfold Core.notar
  split
  · exact Open.final (c := (c.cast _).dropPending _) h.cast block
  · exact h

namespace Inv

section
variable (h : Inv complete late c)
include h

/-- A vote that may be cast fails no assertion of `add_vote`. -/
lemma allowed (hv : c.MayCast vote) : c.history.Allowed vote := h.records.allowed hv.1 hv.2

/-- An open slot without a vote lies above the root. -/
lemma root_lt_of_open {slot : ℕ} (hopen : c.Open slot)
    (hvoted : slot ∉ c.history.votedSet) : c.history.root < slot := by
  rcases hopen with hlt | ⟨rfl, hv⟩
  · exact hlt
  · exact absurd ((h.records.voted _ le_rfl).mpr hv) hvoted

/-- The part of the invariant that does not depend on missing finalize votes. -/
lemma sound : Inv False none c := { h with finished := fun hfalse => hfalse.elim }

/-- The slot before an open slot without a vote is not below the root. -/
lemma root_le_of_succ_eq {slot slot' : ℕ} (hopen : c.Open slot)
    (hvoted : slot ∉ c.history.votedSet) (heq : slot' + 1 = slot) : c.history.root ≤ slot' := by
  have := h.root_lt_of_open hopen hvoted
  omega

/-- Casting an allowed vote keeps the invariant. A notarize vote may make the finalize vote for
its block due, a finalize vote settles its slot. -/
theorem cast (hv : c.MayCast vote)
    (hnotar : ∀ slot blockId, vote = .notarize slot blockId → late' = some (slot, blockId))
    (hlate : ∀ block, late = some block → late' = some block ∨ vote = .finalize block.1) :
    Inv complete late' (c.cast vote) where
  records := h.records.record (h.allowed hv)
  safe := h.safe.castVote hv.2
  bankRoot := h.bankRoot
  open_of_pending x hx := (h.open_of_pending x hx).cast
  sorted := h.sorted
  finished hc block hroot hne hn hb hskip := by
    have hskip' : ¬c.ballot.Skipped block.1 := fun hs =>
      hskip (Ballot.skipped_castVote.mpr (.inl hs))
    refine Ballot.mem_castVote.mpr ?_
    rcases Ballot.mem_castVote.mp hn with hn | rfl
    · by_cases hl : late = some block
      · rcases hlate block hl with hl' | rfl
        · exact absurd hl' hne
        · exact .inr rfl
      · exact .inl (h.finished hc block hroot hl hn hb hskip')
    · exact absurd (hnotar block.1 block.2 rfl) hne

end

/-- A vote other than notarize keeps the invariant. -/
theorem cast_of_ne (h : Inv complete none c) (hv : c.MayCast vote)
    (hnotar : ∀ slot blockId, vote ≠ .notarize slot blockId) : Inv complete none (c.cast vote) :=
  h.cast hv (fun slot blockId heq => absurd heq (hnotar slot blockId)) (by simp)

variable {block : Block}

/-- The conditions of `try_final` let the node cast the finalize vote. -/
lemma mayCast_finalize (h : Inv complete late c) (hroot : c.history.root ≤ block.1)
    (hf : c.FinalCond block) : c.MayCast (.finalize block.1) := by
  obtain ⟨hnotarized, -, hbad, hvoted⟩ := hf
  refine ⟨hroot, ⟨block.2, ?_, ?_⟩, ?_⟩
  · exact (h.records.votedNotar block.1 block.2 hroot).mp hvoted
  · exact (h.records.notarized block.1 block.2 hroot).mp hnotarized
  · rwa [← h.records.badWindow_iff hroot]

/-- `try_final` casts the finalize vote that may be due. -/
theorem final (h : Inv complete (some block) c) (hroot : c.history.root ≤ block.1) :
    Inv complete none (c.final block) := by
  unfold Core.final
  split
  · next hf =>
    refine h.cast (h.mayCast_finalize hroot hf) (by simp) ?_
    intro block' heq
    cases heq
    exact .inr rfl
  next hf =>
  refine { h with finished := fun hc block' hroot' _ => ?_ }
  by_cases heq : block' = block
  · subst heq
    intro hn hb hskip
    by_contra hover
    apply hf
    refine ⟨?_, ?_, ?_, ?_⟩
    · exact (h.records.notarized _ _ hroot).mpr hb
    · rwa [h.records.itsOver _ hroot]
    · rwa [h.records.badWindow_iff hroot]
    · exact (h.records.votedNotar _ _ hroot).mpr hn
  · exact h.finished hc block' hroot' (by simpa using Ne.symm heq)

/-- Forgetting pending blocks keeps the invariant. -/
theorem dropPending (h : Inv complete late c) (slot : ℕ) : Inv complete late (c.dropPending slot) :=
  { h with
    open_of_pending := fun x hx => h.open_of_pending x (mem_of_mem_filter hx)
    sorted := h.sorted.filter _ }

/-- The conditions of `try_notar` let the node cast the notarize vote. -/
lemma mayCast_notarize (h : Inv complete late c) (hroot : c.history.root ≤ block.1)
    (hvoted : block.1 ∉ c.history.votedSet) :
    c.MayCast (.notarize block.1 block.2) :=
  ⟨hroot, fun hv => hvoted ((h.records.voted _ hroot).mpr hv)⟩

/-- The notarize vote keeps the invariant, up to the finalize vote for its block. -/
lemma cast_notarize (h : Inv complete none c) (hroot : c.history.root ≤ block.1)
    (hvoted : block.1 ∉ c.history.votedSet) :
    Inv complete (some block) (c.cast (.notarize block.1 block.2)) := by
  refine h.cast (h.mayCast_notarize hroot hvoted) ?_ (by simp)
  rintro slot blockId ⟨⟩
  rfl

/-- `try_notar` keeps the invariant. -/
theorem notar (h : Inv complete none c) (parent : Block) (hroot : c.history.root ≤ block.1) :
    Inv complete none (c.notar block parent) := by
  unfold Core.notar
  split
  · next hcond => exact ((h.cast_notarize hroot hcond.1).dropPending block.1).final hroot
  · exact h

end Inv

@[simp] lemma root_final (block : Block) : (c.final block).history.root = c.history.root := by
  unfold final
  split <;> rfl

@[simp] lemma root_notar (block parent : Block) :
    (c.notar block parent).history.root = c.history.root := by
  unfold notar
  split
  · exact root_final block
  · rfl

/-- `try_notar` on blocks that are not below the root keeps the invariant. -/
theorem Inv.notarAll (h : Inv complete none c) {blocks : List (Block × Block)}
    (hroot : ∀ x ∈ blocks, c.history.root ≤ x.1.1) : Inv complete none (c.notarAll blocks) := by
  induction blocks generalizing c with
  | nil => exact h
  | cons x blocks ih =>
    refine ih (h.notar x.2 (hroot x (.head _))) ?_
    intro y hy
    rw [root_notar]
    exact hroot y (.tail _ hy)

/-- `check_pending_blocks` keeps the invariant. -/
theorem Inv.checkPending (h : Inv complete none c) : Inv complete none c.checkPending :=
  h.notarAll fun x hx => (h.open_of_pending x hx).root_le

/-- A skip vote keeps the invariant. -/
theorem Inv.skip (h : Inv complete none c) (hroot : c.history.root ≤ slot) :
    Inv complete none (c.skip slot) := by
  unfold Core.skip
  split
  · exact h
  · next hvoted =>
    refine h.cast_of_ne ⟨hroot, fun hv => hvoted ((h.records.voted _ hroot).mpr hv)⟩ ?_
    simp

@[simp] lemma root_skip (slot : ℕ) : (c.skip slot).history.root = c.history.root := by
  unfold skip
  split <;> rfl

/-- The slots that `try_skip_window` visits. -/
lemma mem_skipSlots {slot' : ℕ} :
    slot' ∈ c.skipSlots slot ↔ firstOfConsecutiveLeaderSlots slot ≤ slot' ∧ c.bankRoot ≤ slot' ∧
      1 ≤ slot' ∧ slot' ≤ lastOfConsecutiveLeaderSlots slot := by
  simp only [skipSlots, mem_range'_1]
  omega

/-- What a skip vote from the root on keeps, `try_skip_window` keeps. -/
lemma skipWindow_induction {P : Core → Prop}
    (hskip : ∀ c slot, P c → c.history.root ≤ slot → P (c.skip slot))
    (hroot : c.bankRoot = c.history.root) (h : P c) (slot : ℕ) : P (c.skipWindow slot) := by
  have hslots : ∀ slot' ∈ c.skipSlots slot, c.history.root ≤ slot' := fun slot' hmem => by
    rw [← hroot]
    exact (mem_skipSlots.mp hmem).2.1
  unfold Core.skipWindow
  generalize c.skipSlots slot = slots at hslots
  clear hroot
  induction slots generalizing c with
  | nil => exact h
  | cons slot' slots ih =>
    refine ih (hskip c slot' h (hslots slot' (.head _))) ?_
    intro slot'' hmem
    rw [root_skip]
    exact hslots slot'' (.tail _ hmem)

/-- `try_skip_window` keeps the invariant. -/
theorem Inv.skipWindow (h : Inv complete none c) (slot : ℕ) :
    Inv complete none (c.skipWindow slot) :=
  skipWindow_induction (fun _ _ h hroot => h.skip hroot) h.bankRoot h slot

/-- A slot with a vote keeps it. -/
lemma mem_votedSet_skip {slot' : ℕ} (hv : slot ∈ c.history.votedSet ∨ slot = slot') :
    slot ∈ (c.skip slot').history.votedSet := by
  unfold skip
  split
  · rcases hv with hv | rfl <;> assumption
  · rcases hv with hv | rfl
    · exact mem_insert_of_mem hv
    · exact mem_insert_self

/-- After skipping a list of slots, each of them has a vote. -/
lemma mem_votedSet_foldl_skip {slots : List ℕ} (hv : slot ∈ c.history.votedSet ∨ slot ∈ slots) :
    slot ∈ (slots.foldl skip c).history.votedSet := by
  induction slots generalizing c with
  | nil => simpa using hv
  | cons slot' slots ih =>
    apply ih
    rcases hv with hv | hv
    · exact .inl (mem_votedSet_skip (.inl hv))
    · rcases mem_cons.mp hv with rfl | hv
      · exact .inl (mem_votedSet_skip (.inr rfl))
      · exact .inr hv

lemma Inv.root_skipWindow (h : Inv complete late c) (slot : ℕ) :
    (c.skipWindow slot).history.root = c.history.root := by
  apply skipWindow_induction (P := fun c' => c'.history.root = c.history.root) _ h.bankRoot rfl
  exact fun c' slot' heq _ => (root_skip slot').trans heq

/-- After `try_skip_window` a slot above the root has a notarize or skip vote. So without a finalize
vote in it the protocol allows a fallback vote. -/
theorem Inv.fallback_skipWindow (h : Inv complete none c) (hroot : c.history.root < slot)
    (hover : slot ∉ (c.skipWindow slot).history.itsOverSet) (blockId : Hash) :
    (c.skipWindow slot).MayCast (.notarizeFallback slot blockId) ∧
      (c.skipWindow slot).MayCast (.skipFallback slot) := by
  have hrecords := (h.skipWindow slot).records
  have hle : (c.skipWindow slot).history.root ≤ slot := (h.root_skipWindow slot).trans_le hroot.le
  rw [hrecords.itsOver slot hle] at hover
  suffices hvoted : (c.skipWindow slot).ballot.Voted slot from
    ⟨⟨hle, hvoted, hover⟩, hle, hvoted, hover⟩
  rw [← hrecords.voted slot hle]
  apply mem_votedSet_foldl_skip
  refine .inr (mem_skipSlots.mpr ⟨(mem_leaderWindow slot).1, ?_, ?_, (mem_leaderWindow slot).2⟩)
  · exact h.bankRoot.trans_le hroot.le
  · exact Nat.one_le_of_lt hroot

/-- Keeping an open block for later keeps the invariant. -/
theorem Inv.addPending (h : Inv complete late c) {x : Block × Block} (hopen : c.Open x.1.1) :
    Inv complete late (c.addPending x) :=
  { h with
    open_of_pending := by
      intro y hy
      rcases (mem_insertBy _).mp hy with rfl | hy
      · exact hopen
      · exact h.open_of_pending y hy
    sorted := pairwise_le_insertBy _ h.sorted }

@[simp] lemma root_addParentReady (slot : ℕ) (parent : Block) :
    (c.addParentReady slot parent).history.root = c.history.root := by
  unfold addParentReady VoteHistory.addParentReady
  split <;> rfl

/-- A ready parent keeps the invariant. -/
theorem Inv.addParentReady (h : Inv complete late c) (slot : ℕ) (parent : Block) :
    Inv complete late (c.addParentReady slot parent) where
  records := h.records.addParentReady slot parent
  safe := h.safe
  bankRoot := by rw [root_addParentReady]; exact h.bankRoot
  open_of_pending x hx := by
    unfold Open
    rw [root_addParentReady]
    exact h.open_of_pending x hx
  sorted := h.sorted
  finished hc block hroot := h.finished hc block (by rwa [root_addParentReady] at hroot)

@[simp] lemma root_addNotarized (block : Block) :
    (c.addNotarized block).history.root = c.history.root := by
  unfold addNotarized VoteHistory.addBlockNotarized
  split <;> rfl

/-- A notarized block keeps the invariant, up to the finalize vote for it. -/
theorem Inv.addNotarized (h : Inv complete none c) (block : Block) :
    Inv complete (some block) (c.addNotarized block) where
  records := h.records.addBlockNotarized block
  safe := h.safe.seeNotarized block
  bankRoot := by rw [root_addNotarized]; exact h.bankRoot
  open_of_pending x hx := by
    unfold Open
    rw [root_addNotarized]
    exact h.open_of_pending x hx
  sorted := h.sorted
  finished hc block' hroot hne hn hb hskip := by
    rw [root_addNotarized] at hroot
    refine h.finished hc block' hroot (by simp) hn ?_ hskip
    rcases Ballot.mem_notarized_seeNotarized.mp hb with rfl | hb
    · exact absurd rfl hne
    · exact hb

/-- A new root in which the node has voted keeps the invariant. -/
theorem Inv.setRoot (h : Inv complete late c) {root : ℕ} (hroot : c.history.root < root)
    (hvoted : root ∈ c.history.votedSet) : Inv complete late (c.setRoot root) where
  records := h.records.setRoot hroot.le
  safe := h.safe
  bankRoot := rfl
  open_of_pending x hx := by
    have hle : root ≤ x.1.1 := by simpa using (mem_filter.mp hx).2
    rcases hle.lt_or_eq with hlt | rfl
    · exact .inl hlt
    · exact .inr ⟨rfl, (h.records.voted _ hroot.le).mp hvoted⟩
  sorted := h.sorted.filter _
  finished hc block hle := h.finished hc block (hroot.le.trans hle)

/-! ## No block is missed -/

/-- No pending block could be voted for. -/
def NoneMissed (c : Core) : Prop :=
  ∀ x ∈ c.pending, ¬c.NotarCond x.1 x.2

/-- The voting core between two events. -/
structure Settled (complete : Prop) (c : Core) : Prop extends Inv complete none c where
  noneMissed : c.NoneMissed

/-- What a finalize vote leaves as it is. -/
lemma notarCond_final (block : Block) (x : Block × Block) :
    (c.final block).NotarCond x.1 x.2 ↔ c.NotarCond x.1 x.2 := by
  unfold final
  split <;> rfl

lemma pending_final (block : Block) : (c.final block).pending = c.pending := by
  unfold final
  split <;> rfl

/-- A vote for `block` makes only blocks of the next slot eligible. -/
lemma notarCond_notarize {x : Block × Block} (hx : (c.notarize block).NotarCond x.1 x.2) :
    c.NotarCond x.1 x.2 ∨ x.1.1 = block.1 + 1 := by
  rw [notarize, notarCond_final] at hx
  obtain ⟨hvoted, hparent⟩ := hx
  have hvoted' : x.1.1 ∉ c.history.votedSet := fun hmem => hvoted (mem_insert_of_mem hmem)
  unfold ParentCond at hparent
  split at hparent
  · next hstart => exact .inl ⟨hvoted', by rw [ParentCond, if_pos hstart]; exact hparent⟩
  next hstart =>
  by_cases heq : x.2.1 = block.1
  · exact .inr (by rw [← hparent.1, heq])
  refine .inl ⟨hvoted', ?_⟩
  rw [ParentCond, if_neg hstart]
  refine ⟨hparent.1, ?_⟩
  rw [← hparent.2]
  exact (Function.update_of_ne heq _ _).symm

/-- The blocks pending after a vote are those of other slots. -/
lemma mem_pending_notarize {x : Block × Block} :
    x ∈ (c.notarize block).pending ↔ x ∈ c.pending ∧ x.1.1 ≠ block.1 := by
  rw [notarize, pending_final]
  simp [dropPending, cast]

/-- The rest of a pass over sorted blocks. So far a pending block that is eligible is still ahead of
the pass, and a pending block that is not ahead lies in no larger slot than those ahead. -/
lemma noneMissed_notarAll {blocks : List (Block × Block)}
    (hsorted : blocks.Pairwise fun x y => x.1.1 ≤ y.1.1)
    (hahead : ∀ x ∈ c.pending, c.NotarCond x.1 x.2 → x ∈ blocks)
    (hbehind : ∀ x ∈ c.pending, x ∈ blocks ∨ ∀ y ∈ blocks, x.1.1 ≤ y.1.1) :
    (c.notarAll blocks).NoneMissed := by
  induction blocks generalizing c with
  | nil => exact fun x hx hcond => by simpa using hahead x hx hcond
  | cons y blocks ih =>
    obtain ⟨hy, hsorted⟩ := pairwise_cons.mp hsorted
    have hbehind' : ∀ x ∈ c.pending, x ∈ blocks ∨ ∀ z ∈ blocks, x.1.1 ≤ z.1.1 := by
      intro x hx
      rcases hbehind x hx with hmem | hle
      · rcases mem_cons.mp hmem with rfl | hmem
        · exact .inr hy
        · exact .inl hmem
      · exact .inr fun z hz => hle z (.tail _ hz)
    show ((c.notar y.1 y.2).notarAll blocks).NoneMissed
    by_cases hcond : c.NotarCond y.1 y.2
    · -- the pass votes for `y`: what gets eligible lies in the next slot, so it is still ahead
      rw [notar, if_pos hcond]
      refine ih hsorted ?_ fun x hx => hbehind' x (mem_pending_notarize.mp hx).1
      intro x hx hx'
      obtain ⟨hmem, hne⟩ := mem_pending_notarize.mp hx
      have hxy : x ≠ y := fun heq => hne (by rw [heq])
      have hin : x ∈ y :: blocks := by
        rcases notarCond_notarize hx' with hold | hnext
        · exact hahead x hmem hold
        rcases hbehind x hmem with hin | hle
        · exact hin
        · have := hle y (.head _)
          omega
      exact (mem_cons.mp hin).resolve_left hxy
    rw [notar, if_neg hcond]
    refine ih hsorted ?_ hbehind'
    intro x hx hx'
    refine (mem_cons.mp (hahead x hx hx')).resolve_left ?_
    rintro rfl
    exact hcond hx'

/-- One pass over the pending blocks settles the core. -/
theorem Inv.settled_checkPending (h : Inv complete none c) : Settled complete c.checkPending :=
  { h.checkPending with
    noneMissed := noneMissed_notarAll h.sorted (fun _ hx _ => hx) fun _ hx => .inl hx }

/-- A vote that is no notarize vote makes no block eligible. -/
lemma NoneMissed.cast (h : c.NoneMissed)
    (hvote : ∀ slot blockId, vote ≠ .notarize slot blockId) : (c.cast vote).NoneMissed := by
  intro x hx hcond
  apply h x hx
  cases vote with
  | notarize slot blockId => exact absurd rfl (hvote slot blockId)
  | skip slot => exact ⟨fun hmem => hcond.1 (mem_insert_of_mem hmem), hcond.2⟩
  | _ => exact hcond

section
variable (h : Settled complete c)
include h

/-- A skip vote keeps a core settled. -/
theorem Settled.skip {slot : ℕ} (hroot : c.history.root ≤ slot) :
    Settled complete (c.skip slot) := by
  refine { h.toInv.skip hroot with noneMissed := ?_ }
  unfold Core.skip
  split
  · exact h.noneMissed
  · exact h.noneMissed.cast (by simp)

/-- A vote other than notarize keeps a core settled. -/
theorem Settled.cast (hv : c.MayCast vote)
    (hnotar : ∀ slot blockId, vote ≠ .notarize slot blockId) : Settled complete (c.cast vote) :=
  { h.toInv.cast_of_ne hv hnotar with noneMissed := h.noneMissed.cast hnotar }

/-- `try_skip_window` keeps a core settled. -/
theorem Settled.skipWindow (slot : ℕ) : Settled complete (c.skipWindow slot) :=
  skipWindow_induction (fun _ _ h hroot => h.skip hroot) h.bankRoot h slot

/-- A notarized block keeps a core settled, with the finalize vote that it may make due. -/
theorem Settled.addNotarized {block : Block}
    (hroot : c.history.root ≤ block.1) : Settled complete ((c.addNotarized block).final block) := by
  refine { (h.toInv.addNotarized block).final (by rwa [root_addNotarized]) with noneMissed := ?_ }
  intro x hx hcond
  rw [notarCond_final] at hcond
  rw [pending_final] at hx
  apply h.noneMissed x hx
  unfold Core.addNotarized VoteHistory.addBlockNotarized at hcond
  split at hcond <;> exact hcond

end

/-- A ready parent and a pass over the pending blocks settle a core. -/
theorem Inv.settled_addParentReady (h : Inv complete none c) (slot : ℕ) (parent : Block) :
    Settled complete (c.addParentReady slot parent).checkPending :=
  (h.addParentReady slot parent).settled_checkPending

/-- Keeping a block that cannot be voted for yet keeps a core settled. -/
theorem Settled.addPending (h : Settled complete c) {x : Block × Block} (hopen : c.Open x.1.1)
    (hcond : ¬c.NotarCond x.1 x.2) : Settled complete (c.addPending x) := by
  refine { h.toInv.addPending hopen with noneMissed := ?_ }
  intro y hy
  rcases (mem_insertBy _).mp hy with rfl | hy
  · exact hcond
  · exact h.noneMissed y hy

/-- A new root keeps a core settled: it forgets nothing about the slots from the root on. -/
theorem Settled.setRoot (h : Settled complete c) {root : ℕ} (hroot : c.history.root < root)
    (hvoted : root ∈ c.history.votedSet) : Settled complete (c.setRoot root) := by
  refine { h.toInv.setRoot hroot hvoted with noneMissed := ?_ }
  intro x hx hcond
  obtain ⟨hx, hle⟩ := mem_filter.mp hx
  have hle : root ≤ x.1.1 := by simpa using hle
  apply h.noneMissed x hx
  obtain ⟨hnot, hparent⟩ := hcond
  refine ⟨fun hmem => hnot (mem_filter.mpr ⟨hmem, by simpa using hle⟩), ?_⟩
  unfold ParentCond at hparent ⊢
  split at hparent
  · next hstart =>
    rw [if_pos hstart]
    exact mem_of_mem_filter hparent
  next hstart =>
  rw [if_neg hstart]
  refine ⟨hparent.1, ?_⟩
  -- the root remembers the notarize vote only from the root on
  have hsome : (if root ≤ x.2.1 then c.history.votedNotarMap x.2.1 else none) = some x.2.2 :=
    hparent.2
  split at hsome
  · exact hsome
  · cases hsome

/-- Nothing is pending at the start. -/
theorem settled_start {h : VoteHistory} {b : Ballot} (hrecords : Records h b) (hsafe : b.Safe)
    (hfinished : complete → ∀ block, h.root ≤ block.1 → Finished b block) :
    Settled complete ⟨h, h.root, [], b⟩ where
  records := hrecords
  safe := hsafe
  bankRoot := rfl
  open_of_pending := by simp
  sorted := .nil
  finished hc block hroot _ := hfinished hc block hroot
  noneMissed := by simp [NoneMissed]

end Core
end Trezoa.Votor
