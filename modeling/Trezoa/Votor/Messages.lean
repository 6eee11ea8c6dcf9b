import Mathlib

/-!
# Votes, blocks and leader windows

The data that the modules of votor exchange: `votor-messages/src/vote.rs`,
`votor-messages/src/consensus_message.rs` and the slot arithmetic of
`ledger/src/leader_schedule_utils.rs`.

* `Block`, `Vote`: a block is a slot with a block id; a vote of one of six kinds names a slot and,
  for three of the kinds, a block id.

A slot is a natural number. The source's `u64` slots are only incremented with `saturating_add` and
compared, so the two agree on every slot but the last ones before `u64::MAX`.
-/

namespace Trezoa.Votor

/-- `Hash`: 32 bytes, compared for equality only. -/
abbrev Hash := BitVec 256

/-- `Pubkey`: 32 bytes, compared for equality only. -/
abbrev Pubkey := BitVec 256

/-- `Block`: a slot and a block id. -/
abbrev Block := ℕ × Hash

instance lawfulBEqBlock : LawfulBEq Block := inferInstance

instance lawfulBEqSlotBlock : LawfulBEq (ℕ × Block) := inferInstance

/-- The votes of a validator. -/
inductive Vote where
  | notarize (slot : ℕ) (blockId : Hash)
  | finalize (slot : ℕ)
  | skip (slot : ℕ)
  | notarizeFallback (slot : ℕ) (blockId : Hash)
  | skipFallback (slot : ℕ)
  | genesis (slot : ℕ) (blockId : Hash)
  deriving DecidableEq, Repr

namespace Vote

/-- The slot that is voted on. -/
def slot : Vote → ℕ
  | notarize slot _ | finalize slot | skip slot => slot
  | notarizeFallback slot _ | skipFallback slot | genesis slot _ => slot

/-- The block that is voted for, if any. -/
def blockId : Vote → Option Hash
  | notarize _ blockId | notarizeFallback _ blockId | genesis _ blockId => some blockId
  | finalize _ | skip _ | skipFallback _ => none

end Vote

/-! ## Leader windows -/

/-- A leader has so many slots in a row. -/
def numConsecutiveLeaderSlots : ℕ := 4

/-- The first slot of the window. -/
def firstOfConsecutiveLeaderSlots (slot : ℕ) : ℕ :=
  slot / numConsecutiveLeaderSlots * numConsecutiveLeaderSlots

/-- The last slot of the window. -/
def lastOfConsecutiveLeaderSlots (slot : ℕ) : ℕ :=
  firstOfConsecutiveLeaderSlots slot + numConsecutiveLeaderSlots - 1

/-- The index of a slot in its window. -/
def leaderSlotIndex (slot : ℕ) : ℕ :=
  slot % numConsecutiveLeaderSlots

/-- A slot lies in its leader window. -/
theorem mem_leaderWindow (slot : ℕ) :
    firstOfConsecutiveLeaderSlots slot ≤ slot ∧ slot ≤ lastOfConsecutiveLeaderSlots slot := by
  unfold lastOfConsecutiveLeaderSlots firstOfConsecutiveLeaderSlots numConsecutiveLeaderSlots
  omega

/-! ## Panics -/

/-- The panics of the modelled code: an `assert!`, an `unwrap` on an error, or a panic that depends
on the state of another component (an `expect` or `unwrap` on bank forks, a missing BLS key).
`outOfFuel` is no panic of the source: a loop of the model reached the bound on its rounds. -/
inductive Panic where
  | assertion
  | unwrap
  | environment
  | outOfFuel
  deriving DecidableEq, Repr

/-- `assert!`. -/
def assert (p : Prop) [Decidable p] : Except Panic Unit :=
  if p then .ok () else .error .assertion

/-- An error panics. -/
def unwrap {ε α : Type} : Except ε α → Except Panic α
  | .ok a => .ok a
  | .error _ => .error .unwrap

/-- An assertion that holds. -/
@[simp] lemma assert_of_true {p : Prop} [Decidable p] (h : p) : assert p = .ok () := if_pos h

end Trezoa.Votor
