import Trezoa.Lib.Loops
import Trezoa.Votor.VotingCore

/-!
# The event handler refines the voting core

For every function of the event handler a triple that says what it does to the voting core of the
state. A function that returns has done exactly what its counterpart on `Core` does; a function that
stops with an error has not stopped at an assertion of the vote history, and leaves a safe ballot
(`Aborted`). So the triples cover both what the handler does and that no assertion fails.
-/

namespace Trezoa.Votor

open Std.Do VoteHistory State

set_option mvcgen.warning false

/-- The handler stopped, but not at an assertion of the vote history, and with a safe ballot. -/
def Aborted (e : Stop) (s : State) : Prop :=
  e ≠ .panic .assertion ∧ s.core.ballot.Safe

/-- A vote that `add_vote` accepts and that leaves the ballot safe. -/
def Core.Castable (c : Core) (vote : Vote) : Prop :=
  c.history.Allowed vote ∧ (c.cast vote).ballot.Safe

/-- The invariant has what a vote needs besides its own condition. -/
lemma Core.Inv.castable {complete : Prop} {late : Option Block} {c : Core} {vote : Vote}
    (h : Inv complete late c) (hv : c.MayCast vote) : c.Castable vote :=
  ⟨h.allowed hv, h.safe.castVote hv.2⟩

lemma State.voteHistory_eq (s : State) : s.voteHistory = s.core.history := rfl

lemma State.bankRoot_eq (s : State) : s.bankRoot = s.core.bankRoot := rfl

/-- From the core `c` the function never stops, and leaves the core `next`. -/
abbrev Sets {α : Type} (c : Core) (f : Handler α) (next : Core) : Prop :=
  ⦃fun s => ⌜s.core = c⌝⦄ f ⦃post⟨fun _ s => ⌜s.core = next⌝, fun _ _ => ⌜False⌝⟩⦄

/-- From the core `c` the function leaves the core `next` if it does not abort. -/
abbrev Computes {α : Type} (c : Core) (f : Handler α) (next : Core) : Prop :=
  ⦃fun s => ⌜s.core = c⌝⦄ f ⦃post⟨fun _ s => ⌜s.core = next⌝, fun e s => ⌜Aborted e s⌝⟩⦄

/-- From the core `c` the function leaves a settled core if it does not abort. -/
abbrev Settles {α : Type} (complete : Prop) (c : Core) (f : Handler α) : Prop :=
  ⦃fun s => ⌜s.core = c⌝⦄ f
  ⦃post⟨fun _ s => ⌜Core.Settled complete s.core⌝, fun e s => ⌜Aborted e s⌝⟩⦄

variable (env : Environment) (complete : Prop) (c : Core)

/-! ## The updates of the state -/

/-- The clock is not part of the core. -/
@[spec]
theorem tick_spec : Sets c tick c := by
  mvcgen [tick]

/-- A reader of the history that does not panic. -/
@[spec]
theorem liftHistory_spec {α : Type} (f : VoteHistory → Except Panic α)
    (hf : ∀ panic, f c.history ≠ .error panic) :
    ⦃fun s => ⌜s.core = c⌝⦄ liftHistory f
    ⦃post⟨fun a s => ⌜s.core = c ∧ f c.history = .ok a⌝, fun _ _ => ⌜False⌝⟩⦄ := by
  mvcgen [liftHistory] <;> subst c
  · exact ⟨rfl, by assumption⟩
  · exact hf _ (by assumption)

/-- An allowed vote is recorded. -/
@[spec]
theorem addVote_spec (vote : Vote) (h : c.history.Allowed vote) :
    Sets c (addVote vote) (c.cast vote) := by
  have hok := addVote_of_allowed h
  mvcgen [addVote]
  case vc1.hf hcore => simp [hcore, hok]
  case vc2.post.success s hcore history s' hr _ =>
    rw [hcore, hok] at hr
    obtain ⟨hcore', ⟨⟩⟩ := hr
    subst hcore'
    rfl

/-- A notarized block is recorded. -/
@[spec]
theorem addBlockNotarized_spec (block : Block) :
    Sets c (addBlockNotarized block) (c.addNotarized block) := by
  mvcgen [addBlockNotarized] with subst c
  rfl

/-- A parent that is ready is recorded. -/
@[spec]
theorem addParentReady_spec (slot : ℕ) (parent : Block) :
    Sets c (addParentReady slot parent) (c.addParentReady slot parent) := by
  mvcgen [addParentReady] with subst c
  rfl

/-- The pending blocks of a slot are taken. -/
@[spec]
theorem removePending_spec (slot : ℕ) : Sets c (removePending slot) (c.dropPending slot) := by
  mvcgen [removePending] with subst c
  rfl

/-- A block becomes pending. -/
@[spec]
theorem pushPending_spec (block parent : Block) :
    Sets c (pushPending block parent) (c.addPending (block, parent)) := by
  mvcgen [pushPending] with subst c
  rfl

/-- What is below the root is forgotten. -/
@[spec]
theorem pruneBelow_spec (root : ℕ) : Sets c (pruneBelow root) (c.pruneBelow root) := by
  mvcgen [pruneBelow] with subst c
  rfl

/-- The root of the bank forks is set. -/
@[spec]
theorem setBankForksRoot_spec (root : ℕ) :
    Sets c (setBankForksRoot root) { c with bankRoot := root } := by
  mvcgen [setBankForksRoot] with subst c
  rfl

/-- Timers are not part of the core. -/
@[spec]
theorem setTimeouts_spec (slot : ℕ) : Sets c (setTimeouts slot) c := by
  mvcgen [setTimeouts]

/-- The highest parent is not part of the core. -/
@[spec]
theorem raiseHighestParentReady_spec (slot : ℕ) (parent : Block) :
    Sets c (raiseHighestParentReady slot parent) c := by
  mvcgen [raiseHighestParentReady]

/-! ## Messages to other components -/

/-- The commitment cache is not part of the core. -/
@[spec]
theorem updateCommitmentCache_spec (h : c.ballot.Safe) :
    Computes c (updateCommitmentCache env) c := by
  mvcgen [updateCommitmentCache] <;> simp_all [Aborted]

/-- Metrics are not part of the core. -/
@[spec]
theorem sendToMetrics_spec (h : c.ballot.Safe) : Computes c (sendToMetrics env) c := by
  mvcgen [sendToMetrics] <;> simp_all [Aborted]

section
variable (vote : Vote)

/-- A new vote is cast. -/
@[spec]
theorem insertVoteAndCreateBlsMessage_spec (h : c.Castable vote) :
    Computes c (insertVoteAndCreateBlsMessage env vote false) (c.cast vote) := by
  obtain ⟨hallowed, hsafe⟩ := h
  mvcgen [insertVoteAndCreateBlsMessage] <;> simp_all [Aborted]

/-- The vote is cast whether or not a message could be generated for it. -/
@[spec]
theorem generateVoteMessage_spec (h : c.Castable vote) :
    Computes c (generateVoteMessage env vote false) (c.cast vote) := by
  have hsafe := h.2
  mvcgen [generateVoteMessage] <;> simp_all [Aborted]
  assumption

/-- A refreshed vote is not cast again. -/
@[spec]
theorem insertVoteAndCreateBlsMessage_refresh_spec (h : c.ballot.Safe) :
    Computes c (insertVoteAndCreateBlsMessage env vote true) c := by
  mvcgen [insertVoteAndCreateBlsMessage] <;> simp_all [Aborted]

/-- Refreshing a vote does not cast it again. -/
@[spec]
theorem generateVoteMessage_refresh_spec (h : c.ballot.Safe) :
    Computes c (generateVoteMessage env vote true) c := by
  mvcgen [generateVoteMessage] <;> simp_all [Aborted]
  assumption

end

/-- A vote is sent as it was cast. -/
@[spec]
theorem sendVote_spec (vote : BLSOp) (h : c.ballot.Safe) : Computes c (sendVote env vote) c := by
  mvcgen [sendVote] <;> simp_all [Aborted]

/-! ## The functions that vote -/

section
variable (h : Core.Inv False none c)
include h

/-- A finalize vote, if it may be cast. -/
@[spec]
theorem tryFinal_spec (block : Block) (hroot : c.history.root ≤ block.1) :
    Computes c (tryFinal env block) (c.final block) := by
  have hcast : c.FinalCond block → c.Castable (.finalize block.1) := fun hf =>
    h.castable (h.mayCast_finalize hroot hf)
  mvcgen [tryFinal] <;>
    simp_all +zetaDelta [Core.final, Core.FinalCond, voteHistory_eq, isBlockNotarized]

/-- A notarize vote and then a finalize vote. -/
@[spec]
theorem voteNotar_spec (block : Block) (hroot : c.history.root ≤ block.1)
    (hvoted : block.1 ∉ c.history.votedSet) :
    ⦃fun s => ⌜s.core = c⌝⦄ voteNotar env block
    ⦃post⟨fun r s => ⌜r = true ∧ s.core = c.notarize block⌝, fun e s => ⌜Aborted e s⌝⟩⦄ := by
  have hcast := h.castable (h.mayCast_notarize hroot hvoted)
  have hsafe := hcast.2
  have hinv := ((h.cast_notarize hroot hvoted).dropPending block.1).sound
  mvcgen [voteNotar] <;> simp_all
  · exact hroot
  · rfl

/-- `try_notar` asks about the parent only above the root, where its slot is not below the root. -/
@[spec]
theorem tryNotar_spec (block parent : Block) (hopen : c.Open block.1) :
    ⦃fun s => ⌜s.core = c⌝⦄ tryNotar env block parent
    ⦃post⟨fun r s => ⌜r = decide (c.NotarCond block parent) ∧ s.core = c.notar block parent⌝,
      fun e s => ⌜Aborted e s⌝⟩⦄ := by
  have hroot := hopen.root_le
  have hparent := fun hvoted => @Core.Inv.root_le_of_succ_eq _ _ _ h _ parent.1 hopen hvoted
  mvcgen [tryNotar] <;>
    simp_all +zetaDelta [Core.notar, Core.NotarCond, Core.ParentCond, voteHistory_eq, isParentReady]

/-- The loop over pending blocks. -/
@[spec]
theorem tryNotarAll_spec (blocks : List (Block × Block)) (hopen : ∀ x ∈ blocks, c.Open x.1.1) :
    Computes c (tryNotarAll env blocks) (c.notarAll blocks) := by
  have hloop := Lib.forIn_foldl core Aborted
    (fun x : Block × Block => tryNotar env x.1 x.2)
    (fun blocks c => Core.Inv False none c ∧ ∀ x ∈ blocks, c.Open x.1.1)
    (fun c x => c.notar x.1 x.2) ?_ ?_ blocks c ⟨h, hopen⟩
  · mvcgen [tryNotarAll, hloop, -Spec.forIn_list]
  · rintro x blocks c ⟨h, hopen⟩
    have hx := hopen x (.head _)
    mvcgen <;> simp_all
  · rintro x blocks c ⟨h, hopen⟩
    have hx := hopen x (.head _)
    refine ⟨h.notar x.2 hx.root_le, fun y hy => ?_⟩
    exact (hopen y (.tail _ hy)).notar x.1 x.2

/-- All pending blocks are tried. -/
@[spec]
theorem checkPendingBlocks_spec : Computes c (checkPendingBlocks env) c.checkPending := by
  have hopen := h.open_of_pending
  mvcgen [checkPendingBlocks] with subst c
  · exact h
  · exact hopen
  · exact id

/-- A skip vote unless there is a first vote. -/
@[spec]
theorem trySkip_spec (slot : ℕ) (hroot : c.history.root ≤ slot) :
    Computes c (trySkip env slot) (c.skip slot) := by
  have hcast : slot ∉ c.history.votedSet → c.Castable (.skip slot) := fun hvoted =>
    h.castable ⟨hroot, fun hv => hvoted ((h.records.voted _ hroot).mpr hv)⟩
  mvcgen [trySkip] <;> simp_all [Core.skip]

/-- The loop over the slots of a window. -/
@[spec]
theorem trySkipAll_spec (slots : List ℕ) (hroot : ∀ slot ∈ slots, c.history.root ≤ slot) :
    Computes c (trySkipAll env slots) (slots.foldl Core.skip c) := by
  have hloop := Lib.forIn_foldl core Aborted (trySkip env)
    (fun slots c => Core.Inv False none c ∧ ∀ slot ∈ slots, c.history.root ≤ slot)
    Core.skip ?_ ?_ slots c ⟨h, hroot⟩
  · mvcgen [trySkipAll, hloop, -Spec.forIn_list]
  · rintro slot slots c ⟨h, hroot⟩
    exact trySkip_spec env c h slot (hroot slot (.head _))
  · rintro slot slots c ⟨h, hroot⟩
    refine ⟨h.skip (hroot slot (.head _)), fun slot' hmem => ?_⟩
    rw [Core.root_skip]
    exact hroot slot' (.tail _ hmem)

/-- Every slot of the window is tried. -/
@[spec]
theorem trySkipWindow_spec (slot : ℕ) :
    Computes c (trySkipWindow env slot) (c.skipWindow slot) := by
  mvcgen [trySkipWindow] with subst c
  · exact h
  · intro slot' hmem
    rw [← h.bankRoot]
    exact (Core.mem_skipSlots.mp hmem).2.1
  · exact id

end

/-- The loop over old votes. -/
@[spec]
theorem refreshAll_spec (votes : List Vote) (h : c.ballot.Safe) :
    Computes c (refreshAll env votes) c := by
  have hloop := Lib.forIn_invariant core Aborted (generateVoteMessage env · true) (· = c)
    votes fun vote _ => generateVoteMessage_refresh_spec env c vote h
  mvcgen [refreshAll, hloop, -Spec.forIn_list]

/-- Old votes are sent again. -/
@[spec]
theorem refreshVotes_spec (highestFinalizedSlot : ℕ) (h : c.ballot.Safe) :
    Computes c (refreshVotes env highestFinalizedSlot) c := by
  mvcgen [refreshVotes]

/-- The loop over votes to send. -/
@[spec]
theorem sendVotes_spec (votes : List BLSOp) (h : c.ballot.Safe) :
    Computes c (sendVotes env votes) c := by
  have hloop := Lib.forIn_invariant core Aborted (sendVote env) (· = c)
    votes fun vote _ => sendVote_spec env c vote h
  mvcgen [sendVotes, hloop, -Spec.forIn_list]

/-! ## Rooting -/

/-- What is older is forgotten, and the root set. -/
@[spec]
theorem setRoot_spec (root : ℕ) (h : c.ballot.Safe) :
    Computes c (setRoot env root) (c.setRoot root) := by
  have hsafe : (c.pruneBelow root).ballot.Safe := h
  mvcgen [setRoot] <;> simp_all [Aborted, Core.setRoot]

/-- The conditions of `check_rootable_blocks`, without the assertion. -/
def rootable (bankForks : ℕ → Option Bank) (oldRoot : ℕ) (history : VoteHistory)
    (block : Block) : Bool :=
  (bankForks block.1).any fun bank =>
    decide (oldRoot < block.1) && decide (block.1 ∈ history.votedSet) && bank.isFrozen &&
      decide (bank.blockId = some block.2)

/-- Above a root of bank forks that is not below the root of the history no assertion fails. -/
lemma isRootable_eq {bankForks : ℕ → Option Bank} {oldRoot : ℕ} {history : VoteHistory}
    (hroot : history.root ≤ oldRoot) (block : Block) :
    isRootable bankForks oldRoot history block =
      .ok (rootable bankForks oldRoot history block) := by
  unfold isRootable rootable
  cases bankForks block.1 with
  | none => rfl
  | some bank =>
    by_cases hlt : oldRoot < block.1
    · simp [hlt, voted_of_le (hroot.trans hlt.le), bind, Except.bind, pure, Except.pure]
    · simp [hlt, pure, Except.pure]

/-- A block that may become the root is newer, and its slot has a vote. -/
lemma of_rootable {bankForks : ℕ → Option Bank} {oldRoot : ℕ} {history : VoteHistory}
    {block : Block} (h : rootable bankForks oldRoot history block = true) :
    oldRoot < block.1 ∧ block.1 ∈ history.votedSet := by
  unfold rootable at h
  cases hb : bankForks block.1 with
  | none => simp [hb] at h
  | some bank =>
    simp only [hb, Option.any_some, Bool.and_eq_true, decide_eq_true_eq] at h
    exact h.1.1

/-- The candidates for a new root are voted slots above the old one. -/
lemma rootableSlots_eq {bankForks : ℕ → Option Bank} {oldRoot : ℕ} {history : VoteHistory}
    (hroot : history.root ≤ oldRoot) (blocks : List Block) :
    ∃ slots, rootableSlots bankForks oldRoot history blocks = .ok slots ∧
      ∀ slot ∈ slots, oldRoot < slot ∧ slot ∈ history.votedSet := by
  induction blocks with
  | nil => exact ⟨[], rfl, by simp⟩
  | cons block blocks ih =>
    obtain ⟨slots, heq, hslots⟩ := ih
    rw [rootableSlots, isRootable_eq hroot, heq]
    refine ⟨_, rfl, fun slot hmem => ?_⟩
    by_cases hr : rootable bankForks oldRoot history block = true
    · rw [if_pos hr] at hmem
      rcases List.mem_cons.mp hmem with rfl | hmem
      · exact of_rootable hr
      · exact hslots slot hmem
    · rw [if_neg hr] at hmem
      exact hslots slot hmem

/-- Rooting keeps a core settled. -/
theorem checkRootableBlocks_spec (h : Core.Settled complete c) :
    Settles complete c (checkRootableBlocks env) := by
  have hslots := fun bankForks => @rootableSlots_eq bankForks c.bankRoot c.history h.bankRoot.ge
  mvcgen [checkRootableBlocks]
  case vc1.hf s hs n bankForks s' hs' =>
    obtain ⟨slots, heq, -⟩ := hslots bankForks s'.finalizedBlocks
    simp [bankRoot_eq, hs, hs', heq]
  case vc2.post.success.post.success.h_1 => simp_all
  case vc3.post.success.post.success.h_2.post.success s hs n bankForks s₁ hs₁ slots root hmax s₂
    hs₂ _ s₃ =>
    intro hs₃
    obtain ⟨slots', heq, hslots⟩ := hslots bankForks s₁.finalizedBlocks
    rw [bankRoot_eq, hs₁, hs, heq] at hs₂
    obtain ⟨hcore, ⟨⟩⟩ := hs₂
    obtain ⟨hlt, hvoted⟩ := hslots root (List.max?_mem hmax)
    rw [hs₃, hcore]
    exact h.setRoot (h.bankRoot ▸ hlt) hvoted
  case vc4 s hs n bankForks s₁ hs₁ slots root hmax =>
    intro s₂ hs₂ _
    rw [hs₂, hs₁, hs]
    exact h.safe

/-- After the new parent, the pending blocks are tried. -/
@[spec]
theorem handleParentReadyEvent_spec (slot : ℕ) (parent : Block) (h : Core.Inv False none c) :
    Computes c (handleParentReadyEvent env slot parent)
      (c.addParentReady slot parent).checkPending := by
  have hinv := h.addParentReady slot parent
  mvcgen [handleParentReadyEvent] <;> simp_all

/-- A missing parent is only announced. -/
@[spec]
theorem addMissingParentReady_spec (block : Block) :
    Sets c (addMissingParentReady env block) c := by
  mvcgen [addMissingParentReady]
  simp_all

/-- Rooting and a missed parent ready event keep a core settled. -/
theorem rootAndAddMissing_spec (block : Block) (h : Core.Settled complete c) :
    Settles complete c (rootAndAddMissing env block) := by
  have hroot := checkRootableBlocks_spec env complete
  mvcgen [rootAndAddMissing, hroot]
  case vc1.h hs => exact hs ▸ h
  case vc2.post.success.post.success.h_1.post.success slot parent _ s' heq _ s'' =>
    intro hs
    rename_i hsettled _ _ _
    rw [hs, heq]
    exact hsettled.toInv.settled_addParentReady slot parent
  case vc3 =>
    intro s hs
    rename_i hsettled _ _ _ _
    exact hs ▸ hsettled.toInv.sound
  case vc4.post.success.post.success.h_2 => simp_all

/-! ## The events -/

/-- The block of a frozen bank. -/
@[spec]
theorem getBlockParentBlock_spec (bank : Bank) (h : c.ballot.Safe) :
    ⦃fun s => ⌜s.core = c⌝⦄ getBlockParentBlock bank
    ⦃post⟨fun r s => ⌜s.core = c ∧ r.1.1 = bank.slot⌝, fun e s => ⌜Aborted e s⌝⟩⦄ := by
  mvcgen [getBlockParentBlock]
  simp_all [Aborted]

/-- A timeout is only counted. -/
@[spec]
theorem sendTimeoutToMetrics_spec (slot : ℕ) (h : c.ballot.Safe) :
    Computes c (sendTimeoutToMetrics env slot) c := by
  mvcgen [sendTimeoutToMetrics]
  case vc2 => exact fun _ _ => h

section
variable (h : Core.Settled complete c)
include h

/-- A block is voted for, with the pending blocks that this makes eligible, or kept. -/
theorem voteOrKeep_spec (slot : ℕ) (block parent : Block) (hslot : block.1 = slot)
    (hroot : c.history.root < slot) :
    Settles complete c (voteOrKeep env slot block parent) := by
  subst hslot
  have hsound := h.toInv.sound
  have hopen : c.Open block.1 := .inl hroot
  have hsettled := (h.toInv.notar parent hroot.le).settled_checkPending
  have hinv := hsound.notar parent hroot.le
  -- when `try_notar` does not vote, the core is as it was
  have hsame : ¬c.NotarCond block parent → c.notar block parent = c := fun hcond => if_neg hcond
  have hkeep : ¬c.NotarCond block parent → Core.Settled complete (c.addPending (block, parent)) :=
    fun hcond => h.addPending hopen hcond
  mvcgen [voteOrKeep] <;> simp_all [hroot.le]

/-- The `Block` branch keeps a core settled. -/
theorem handleBlock_spec (completedBlock : CompletedBlock)
    (hroot : c.history.root < completedBlock.slot) :
    Settles complete c (handleBlock env completedBlock) := by
  have hsafe := h.safe
  have hslot := completedBlock.bank_slot
  have hvote := voteOrKeep_spec env complete
  have hend := rootAndAddMissing_spec env complete
  mvcgen [handleBlock, hvote, hend] <;> simp_all

/-- The handler of a notarized block. -/
lemma handleBlockNotarized_spec (block : Block) (hroot : c.history.root < block.1) :
    Settles complete c (handleBlockNotarized env block) := by
  have hinv := (h.toInv.addNotarized block).sound
  have hsettled := h.addNotarized hroot.le
  mvcgen [handleBlockNotarized] <;> simp_all
  exact hroot.le

/-- The handler of a leader without shreds. -/
lemma handleTimeoutCrashedLeader_spec (slot : ℕ) (hroot : c.history.root < slot) :
    Settles complete c (handleTimeoutCrashedLeader env slot) := by
  have hsound := h.toInv.sound
  have hwindow := h.skipWindow slot
  mvcgen [handleTimeoutCrashedLeader] <;> simp_all [hroot.le]

/-- The handler of a timeout. -/
lemma handleTimeout_spec (slot : ℕ) (hroot : c.history.root < slot) :
    Settles complete c (handleTimeout env slot) := by
  have hsafe := h.safe
  have hsound := h.toInv.sound
  have hwindow := h.skipWindow slot
  mvcgen [handleTimeout] <;> simp_all [hroot.le]

/-- The handler of a block that is safe to notarize. -/
lemma handleSafeToNotar_spec (block : Block) (hroot : c.history.root < block.1) :
    Settles complete c (handleSafeToNotar env block) := by
  have hsound := h.toInv.sound
  have hwindow := h.skipWindow block.1
  have hle := (hsound.root_skipWindow block.1).trans_le hroot.le
  have hmay := fun hover => (hsound.fallback_skipWindow hroot hover block.2).1
  have hcast := fun hover => hwindow.toInv.castable (hmay hover)
  have hsettled := fun hover => hwindow.cast (hmay hover) (by simp)
  mvcgen [handleSafeToNotar] <;> simp_all

/-- The handler of a slot that is safe to skip. -/
lemma handleSafeToSkip_spec (slot : ℕ) (hroot : c.history.root < slot) :
    Settles complete c (handleSafeToSkip env slot) := by
  have hsound := h.toInv.sound
  have hwindow := h.skipWindow slot
  have hle := (hsound.root_skipWindow slot).trans_le hroot.le
  have hmay := fun hover => (hsound.fallback_skipWindow hroot hover 0).2
  have hcast := fun hover => hwindow.toInv.castable (hmay hover)
  have hsettled := fun hover => hwindow.cast (hmay hover) (by simp)
  mvcgen [handleSafeToSkip] <;> simp_all

end

section
variable (event : VotorEvent) (h : Core.Settled complete c) (hevent : event ≠ .setIdentity)
  (hignore : event.shouldIgnore c.bankRoot = false)
include event h hevent hignore

/-- Every branch of `handle_event` but `SetIdentity` keeps a core settled. -/
theorem handleEventBranch_spec : Settles complete c (handleEventBranch env event) := by
  have hsafe := h.safe
  have hsound := h.toInv.sound
  have hroot : ∀ {slot : ℕ}, decide (slot ≤ c.history.root) = false → c.history.root < slot := by
    simp
  rw [h.bankRoot] at hignore
  cases event with
  | block completedBlock => exact handleBlock_spec env complete c h _ (hroot hignore)
  | blockNotarized block => exact handleBlockNotarized_spec env complete c h _ (hroot hignore)
  | firstShred slot =>
    mvcgen [handleEventBranch] with subst c
    exact h
  | parentReady slot parentBlock =>
    have hready := h.toInv.settled_addParentReady slot parentBlock
    mvcgen [handleEventBranch] <;> simp_all
  | timeoutCrashedLeader slot =>
    exact handleTimeoutCrashedLeader_spec env complete c h _ (hroot hignore)
  | timeout slot => exact handleTimeout_spec env complete c h _ (hroot hignore)
  | safeToNotar block => exact handleSafeToNotar_spec env complete c h _ (hroot hignore)
  | safeToSkip slot => exact handleSafeToSkip_spec env complete c h _ (hroot hignore)
  | produceWindow =>
    mvcgen [handleEventBranch] with subst c
    exact h
  | finalized block isFastFinalization =>
    have hend := rootAndAddMissing_spec env complete
    mvcgen [handleEventBranch, hend] with subst c
    exact h
  | standstill highestFinalizedSlot => mvcgen [handleEventBranch] <;> simp_all
  | setIdentity => exact absurd rfl hevent

/-- Handling an event that is not ignored keeps a core settled. -/
theorem handleEvent_spec : Settles complete c (handleEvent env event) := by
  have hbranch := handleEventBranch_spec env complete c event h hevent hignore
  mvcgen [handleEvent, hbranch]

end

/-- One round of the event loop keeps a core settled. -/
theorem eventRound_spec (event : VotorEvent) (hevent : event ≠ .setIdentity) :
    ⦃fun s => ⌜Core.Settled complete s.core⌝⦄ eventRound env event
    ⦃post⟨fun _ s => ⌜Core.Settled complete s.core⌝, fun e s => ⌜Aborted e s⌝⟩⦄ := by
  have hhandle := handleEvent_spec env complete
  mvcgen [eventRound, hhandle]
  case vc4.hignore hignore => exact Bool.eq_false_of_not_eq_true hignore
  case vc5.isFalse.post.success.post.success hsettled _ _ => exact fun hcore => hcore ▸ hsettled
  case vc6 => exact fun s hsettled => hsettled.safe

/-- The event loop keeps a core settled, on every sequence of events without `SetIdentity`. -/
theorem eventLoop_spec (events : List VotorEvent) (hevents : .setIdentity ∉ events) :
    ⦃fun s => ⌜Core.Settled complete s.core⌝⦄ eventLoop env events
    ⦃post⟨fun _ s => ⌜Core.Settled complete s.core⌝, fun e s => ⌜Aborted e s⌝⟩⦄ := by
  have hloop := Lib.forIn_invariant core Aborted (eventRound env) (Core.Settled complete)
    events fun event hmem => eventRound_spec env complete event (fun heq => hevents (heq ▸ hmem))
  mvcgen [eventLoop, hloop, -Spec.forIn_list]

end Trezoa.Votor
