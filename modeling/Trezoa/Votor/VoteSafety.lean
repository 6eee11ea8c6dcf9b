import Trezoa.Votor.HandlerSpecs

/-!
# Vote safety and no missed votes

The guarantees of the event loop over whole runs, from the triples of its functions.

* `votes_safe`: the votes of every run are safe, and no assertion of the vote history fails.
* `no_missed_votes`: after every event that was handled, no pending block could be voted for, and
  no finalize vote is missing.
-/

namespace Trezoa.Votor

open Std.Do Trezoa.Lib

set_option mvcgen.warning false

/-- The core at the start of the event loop is settled. -/
lemma settled_start {complete : Prop} {history : VoteHistory} {ballot : Ballot}
    (hrecords : Records history ballot) (hsafe : ballot.Safe)
    (hfinished : complete → ∀ block, history.root ≤ block.1 → Core.Finished ballot block)
    (myPubkey : Pubkey) (highestParentReady : ℕ × Block) :
    Core.Settled complete
      (State.start myPubkey history history.root highestParentReady ballot).core :=
  Core.settled_start hrecords hsafe hfinished

/-- Let a node start with a vote history that records safe votes, and with the root of the history
as the root of its bank forks. Whatever events other than `SetIdentity` it receives and whatever
its environment answers, all votes it has ever cast are safe, and it does not stop at an assertion
of the vote history. -/
theorem votes_safe (env : Environment) (events : List VotorEvent)
    (hevents : .setIdentity ∉ events) (myPubkey : Pubkey) (history : VoteHistory)
    (highestParentReady : ℕ × Block) (ballot : Ballot) (hrecords : Records history ballot)
    (hsafe : ballot.Safe) {result : Except Stop Unit} {s : State}
    (hrun : (eventLoop env events).run.run
      (.start myPubkey history history.root highestParentReady ballot) = (result, s)) :
    s.ballot.Safe ∧ result ≠ .error (.panic .assertion) := by
  have hstart := @settled_start False _ _ hrecords hsafe False.elim myPubkey highestParentReady
  have hspec := eventLoop_spec env False events hevents
  cases result with
  | ok a => exact ⟨(run_ok hspec hstart hrun).safe, by simp⟩
  | error e =>
    obtain ⟨hne, hballot⟩ := run_error hspec hstart hrun
    refine ⟨hballot, ?_⟩
    rintro ⟨⟩
    exact hne rfl

/-- An environment in which every message is generated and sent and bank forks is empty. -/
def quietEnvironment : Environment where
  generateVoteTx _ _ := some .consensusMessage
  ownVoteSender _ := true
  savedVoteHistory _ := true
  commitmentSender _ := true
  consensusMetricsSender _ := true
  blsSender _ := true
  bankForks _ _ := none
  setRoots _ := true
  insertOptimisticSlot _ := true
  bankNotificationSender _ := true
  clusterPubkey _ := 0
  restore _ _ := none

/-- A replayed block whose parent is in memory. -/
def replayedBlock (block parent : Block) : CompletedBlock where
  slot := block.1
  bank := ⟨block.1, some block.2, parent.1, some ⟨parent.1, some parent.2⟩, true⟩
  bank_slot := rfl

/-- The window of the slots 4 to 7: block 4 is voted for, the block of slot 6 comes before that of
slot 5 and stays pending. -/
def windowEvents : List VotorEvent :=
  [.parentReady 4 (3, 9), .block (replayedBlock (4, 1) (3, 9)),
  .block (replayedBlock (6, 3) (5, 2))]

/-- The run of `windowEvents` from an empty vote history with root 3. -/
def windowRun : Except Stop Unit × State :=
  (eventLoop quietEnvironment windowEvents).run.run (.start 0 (.new 0 3) 3 (3, (2, 0)) .empty)

theorem votes_safe_window : windowRun.2.ballot.cast = [.notarize 4 1] ∧ windowRun.2.ballot.Safe :=
  ⟨by decide +kernel,
    (votes_safe quietEnvironment windowEvents (by simp [windowEvents]) 0 (.new 0 3) (3, (2, 0))
      .empty (.new 0 3) Ballot.safe_empty (Prod.eta windowRun).symm).1⟩

/-- Where the conditions to vote do not hold, `try_notar` returns without doing anything. -/
lemma tryNotar_of_not_notarCond (env : Environment) {complete : Prop} {s : State}
    {block parent : Block} (h : Core.Inv complete none s.core) (hopen : s.core.Open block.1)
    (hcond : ¬s.core.NotarCond block parent) :
    (tryNotar env block parent).run.run s = (.ok false, s) := by
  have hroot := hopen.root_le
  have hparent := fun hvoted => @Core.Inv.root_le_of_succ_eq _ _ _ h _ parent.1 hopen hvoted
  apply run_eq
  mvcgen [tryNotar, liftHistory, -tryNotar_spec, -liftHistory_spec, -voteNotar_spec] <;>
    simp_all +zetaDelta [Core.NotarCond, Core.ParentCond, State.voteHistory_eq,
      VoteHistory.isParentReady]

/-- Let a node start with an empty vote history. After every event that it handles without an error,
`try_notar` would not vote for any block that is still pending, and the finalize vote is cast in
every slot from the root on in which the node voted for a notarized block and cast no skip or
fallback vote. -/
theorem no_missed_votes (env : Environment) (events : List VotorEvent)
    (hevents : .setIdentity ∉ events) (myPubkey : Pubkey) (root : ℕ)
    (highestParentReady : ℕ × Block) {s : State}
    (hrun : (eventLoop env events).run.run
      (.start myPubkey (.new myPubkey root) root highestParentReady .empty) = (.ok (), s))
    (event : VotorEvent) (hevent : event ≠ .setIdentity)
    (hignore : event.shouldIgnore s.bankRoot = false) {votes : List BLSOp} {s' : State}
    (hhandle : (handleEvent env event).run.run s = (.ok votes, s')) :
    (∀ block parent, (block, parent) ∈ s'.pendingBlocks → s'.voteHistory.root ≤ block.1 →
      ∀ env', (tryNotar env' block parent).run.run s' = (.ok false, s')) ∧
    (∀ slot blockId, s'.voteHistory.root ≤ slot → .notarize slot blockId ∈ s'.ballot.cast →
      (slot, blockId) ∈ s'.ballot.notarized → .skip slot ∉ s'.ballot.cast →
      .skipFallback slot ∉ s'.ballot.cast → (∀ b, .notarizeFallback slot b ∉ s'.ballot.cast) →
      .finalize slot ∈ s'.ballot.cast) := by
  have hfinished : True → ∀ block : Block, root ≤ block.1 → Core.Finished .empty block := by
    simp [Core.Finished, Ballot.empty]
  have hstart := settled_start (.new myPubkey root) Ballot.safe_empty hfinished myPubkey
    highestParentReady
  have hsettled := run_ok (eventLoop_spec env True events hevents) hstart hrun
  have hsettled' := run_ok (handleEvent_spec env True s.core event hsettled hevent hignore) rfl
    hhandle
  refine ⟨fun block parent hmem _ env' => ?_, fun slot blockId hroot hn hb hs hsf hnf => ?_⟩
  · exact tryNotar_of_not_notarCond env' hsettled'.toInv (hsettled'.open_of_pending _ hmem)
      (hsettled'.noneMissed _ hmem)
  refine hsettled'.finished trivial (slot, blockId) hroot (by simp) hn hb ?_
  rintro (h | h | ⟨b, h⟩)
  · exact hs h
  · exact hsf h
  · exact hnf b h

/-- The handling of a certificate for block 4 after `windowRun`. -/
def windowNotarized : Except Stop (List BLSOp) × State :=
  (handleEvent quietEnvironment (.blockNotarized (4, 1))).run.run windowRun.2

lemma eq_ok_of_isOk {α : Type} {r : Except Stop α × State} (h : r.1.isOk = true) :
    ∃ a, r = (.ok a, r.2) := by
  obtain ⟨r, s⟩ := r
  cases r with
  | ok a => exact ⟨a, rfl⟩
  | error e => cases h

theorem no_missed_votes_window :
    windowNotarized.2.pendingBlocks = [((6, 3), (5, 2))] ∧
      windowNotarized.2.ballot.cast = [.notarize 4 1, .finalize 4] ∧
      (tryNotar quietEnvironment (6, 3) (5, 2)).run.run windowNotarized.2 =
        (.ok false, windowNotarized.2) := by
  have hpending : windowNotarized.2.pendingBlocks = [((6, 3), (5, 2))] := by decide +kernel
  refine ⟨hpending, by decide +kernel, ?_⟩
  obtain ⟨_, hrun⟩ := eq_ok_of_isOk (r := windowRun) (by decide +kernel)
  obtain ⟨votes, hhandle⟩ := eq_ok_of_isOk (r := windowNotarized) (by decide +kernel)
  exact (no_missed_votes quietEnvironment windowEvents (by simp [windowEvents]) 0 3 (3, (2, 0)) hrun
    (.blockNotarized (4, 1)) (by simp) (by decide +kernel) hhandle).1 (6, 3) (5, 2)
    (by simp [hpending]) (by decide +kernel) quietEnvironment

end Trezoa.Votor
