import Trezoa.SchedulingUtils.ThreadSet

/-!
# The locks of one account

The entry of an account holds, for each thread, a number of write locks and a number of read locks.
-/

namespace Trezoa.SchedulingUtils

open Lib Option Nat Function

/-- The write locks are those of the threads. -/
def WriteCounts (locks : Option AccountWriteLocks) (w : ℕ → ℕ) : Prop :=
  match locks with
  | none => ∀ t, w t = 0
  | some locks => 0 < locks.lockCount ∧ ∀ t, w t = if t = locks.threadId then locks.lockCount else 0

/-- The read locks are those of the threads. -/
def ReadCounts (locks : Option AccountReadLocks) (r : ℕ → ℕ) : Prop :=
  match locks with
  | none => ∀ t, r t = 0
  | some locks => (∀ t, locks.lockCounts t = r t)
      ∧ (∀ t, locks.threadSet.contains t = true ↔ 0 < r t) ∧ ∃ t, 0 < r t

/-- The entry of an account holds the number of write locks and of read locks of each thread; an
account without locks has no entry. -/
structure Counts (entry : Option AccountLocks) (w r : ℕ → ℕ) : Prop where
  write : WriteCounts (entry.bind AccountLocks.writeLocks) w
  read : ReadCounts (entry.bind AccountLocks.readLocks) r
  occupied : ∀ locks, entry = some locks →
    locks.writeLocks.isSome = true ∨ locks.readLocks.isSome = true

variable {entry : Option AccountLocks} {locks : AccountLocks} {w r : ℕ → ℕ} {t t' n : ℕ}

lemma counts_none : Counts none (fun _ => 0) (fun _ => 0) := ⟨fun _ => rfl, fun _ => rfl, by simp⟩

/-- Without locks there is no entry. -/
lemma Counts.eq_none (h : Counts entry (fun _ => 0) (fun _ => 0)) : entry = none := by
  cases entry with
  | none => rfl
  | some locks =>
    rcases h.occupied locks rfl with hw | hr
    · obtain ⟨writeLocks, hlocks⟩ := isSome_iff_exists.mp hw
      have hwrite := h.write
      simp only [bind_some, hlocks, WriteCounts] at hwrite
      have := hwrite.2 writeLocks.threadId
      rw [if_pos rfl] at this
      omega
    obtain ⟨readLocks, hlocks⟩ := isSome_iff_exists.mp hr
    have hread := h.read
    simp only [bind_some, hlocks, ReadCounts] at hread
    obtain ⟨-, -, t, ht⟩ := hread
    exact absurd ht (lt_irrefl 0)

/-- Counts of the entry that the default stands for. -/
lemma Counts.getD (h : Counts entry w r) :
    WriteCounts (entry.getD .default).writeLocks w ∧
    ReadCounts (entry.getD .default).readLocks r := by
  cases entry with
  | none => exact ⟨h.write, h.read⟩
  | some locks => exact ⟨h.write, h.read⟩

/-- The threads of the write locks. -/
lemma WriteCounts.eq_some {l : Option AccountWriteLocks} (h : WriteCounts l w) (ht : 0 < w t) :
    ∃ locks, l = some locks ∧ locks.threadId = t ∧ locks.lockCount = w t := by
  cases l with
  | none =>
    have := h t
    omega
  | some locks =>
    have hcount := h.2 t
    split_ifs at hcount with heq
    · exact ⟨locks, rfl, heq.symm, hcount.symm⟩
    · omega

/-- A write lock is on its only thread. -/
lemma WriteCounts.pos {l : AccountWriteLocks} (h : WriteCounts (some l) w) : 0 < w l.threadId := by
  rw [h.2 l.threadId, if_pos rfl]
  exact h.1

/-- The read locks are on one thread only. -/
lemma ReadCounts.onlyOneContained {l : AccountReadLocks} (h : ReadCounts (some l) r)
    (hr : ∀ t', 0 < r t' → t' = t) : l.threadSet.onlyOneContained = some t := by
  obtain ⟨-, hset, t₀, ht₀⟩ := h
  rw [ThreadSet.onlyOneContained_eq_some]
  intro t'
  rw [hset t']
  constructor
  · exact hr t'
  · rintro rfl
    rwa [hr t₀ ht₀] at ht₀

section Locking
open AccountLocks

/-- One more write lock, where all locks are on its thread. -/
lemma Counts.writeLock (h : Counts entry w r) (hw : ∀ t', 0 < w t' → t' = t)
    (hr : ∀ t', 0 < r t' → t' = t) (hlt : w t + 1 < lockCountSize) :
    ∃ locks, AccountLocks.writeLock (entry.getD .default) t = .ok locks
      ∧ Counts (some locks) (update w t (w t + 1)) r := by
  obtain ⟨hwrite, hread⟩ := h.getD
  generalize entry.getD .default = locks at hwrite hread
  obtain ⟨writeLocks, readLocks⟩ := locks
  have hassert : (readLocks.any fun l => decide (l.threadSet.onlyOneContained ≠ some t)) =
    false := by
    cases readLocks with
    | none => rfl
    | some l => simp [hread.onlyOneContained hr]
  simp only [AccountLocks.writeLock, hassert, Bool.false_eq_true, if_false]
  cases writeLocks with
  | none =>
    refine ⟨_, rfl, ⟨⟨one_pos, fun t' => ?_⟩, hread, by simp⟩⟩
    rw [update_apply]
    split
    · rw [hwrite t]
    · exact hwrite t'
  | some l =>
    have hthread : l.threadId = t := hw _ hwrite.pos
    have hcount : l.lockCount = w t := by rw [hwrite.2 t, if_pos hthread.symm]
    have hmod : (l.lockCount + 1) % lockCountSize = w t + 1 := by
      rw [hcount, mod_eq_of_lt hlt]
    simp only [hthread, ne_eq, not_true, if_false, hmod]
    refine ⟨_, rfl, ⟨⟨succ_pos _, fun t' => ?_⟩, hread, by simp⟩⟩
    rw [update_apply]
    split_ifs with hne
    · rfl
    · rw [hwrite.2 t', if_neg (hthread ▸ hne)]

/-- One more read lock, where all write locks are on its thread. -/
lemma Counts.readLock (h : Counts entry w r) (hw : ∀ t', 0 < w t' → t' = t) (ht : t < maxThreads)
    (hlt : r t + 1 < lockCountSize) :
    ∃ locks, AccountLocks.readLock (entry.getD .default) t = .ok locks
      ∧ Counts (some locks) w (update r t (r t + 1)) := by
  obtain ⟨hwrite, hread⟩ := h.getD
  generalize entry.getD .default = locks at hwrite hread
  obtain ⟨writeLocks, readLocks⟩ := locks
  have hassert : (writeLocks.any fun l => decide (l.threadId ≠ t)) = false := by
    cases writeLocks with
    | none => rfl
    | some l => simp [hw _ hwrite.pos]
  simp only [AccountLocks.readLock, hassert, Bool.false_eq_true, if_false]
  cases readLocks with
  | none =>
    refine ⟨_, rfl, ⟨hwrite, ⟨fun t' => ?_, fun t' => ?_, t, ?_⟩, by simp⟩⟩
    · dsimp only
      rw [update_apply, update_apply, hread t', hread t]
    · rw [ThreadSet.contains_only ht, update_apply, hread t']
      split <;> simp [*]
    · rw [update_self]
      exact succ_pos _
  | some l =>
    obtain ⟨hcounts, hset, -⟩ := hread
    have hmod : (l.lockCounts t + 1) % lockCountSize = r t + 1 := by
      rw [hcounts t, mod_eq_of_lt hlt]
    refine ⟨_, rfl, ⟨hwrite, ⟨fun t' => ?_, fun t' => ?_, t, ?_⟩, by simp⟩⟩
    · dsimp only
      rw [update_apply, update_apply, hmod, hcounts t']
    · rw [ThreadSet.contains_insert ht, update_apply, hset t']
      split <;> simp [*]
    · rw [update_self]
      exact succ_pos _

/-- Subtracting one from a positive lock count does not wrap. -/
lemma wrapping_sub_one {c : ℕ} (hpos : 0 < c) (hlt : c < lockCountSize) :
    (c + (lockCountSize - 1)) % lockCountSize = c - 1 := by
  have hsize : 0 < lockCountSize := by
    unfold lockCountSize
    positivity
  have heq : c + (lockCountSize - 1) = c - 1 + lockCountSize := by omega
  rw [heq, add_mod_right, mod_eq_of_lt (by omega)]

/-- One write lock less. -/
lemma Counts.writeUnlock (h : Counts entry w r) (hpos : 0 < w t) (hlt : w t < lockCountSize) :
    ∃ locks entry', entry = some locks ∧ AccountLocks.writeUnlock locks t = .ok entry'
      ∧ Counts entry' (update w t (w t - 1)) r := by
  obtain ⟨l, hl, hthread, hcount⟩ := h.write.eq_some hpos
  cases entry with
  | none => cases hl
  | some locks =>
    obtain ⟨writeLocks, readLocks⟩ := locks
    simp only [bind_some] at hl
    subst hl
    have hwrite := h.write
    have hread := h.read
    simp only [bind_some] at hwrite hread
    have hsub : (l.lockCount + (lockCountSize - 1)) % lockCountSize = w t - 1 := by
      rw [hcount, wrapping_sub_one hpos hlt]
    simp only [some.injEq, exists_and_left, exists_eq_left', AccountLocks.writeUnlock,
      hthread, ne_eq,
      not_true, if_false, hsub]
    have hother : ∀ t' ≠ t, w t' = 0 := fun t' hne => by
      rw [hwrite.2 t', if_neg (hthread ▸ hne)]
    by_cases hzero : w t - 1 = 0
    · have hnone : ∀ t', update w t (w t - 1) t' = 0 := by
        intro t'
        rw [update_apply]
        split_ifs with hne
        · exact hzero
        · exact hother t' hne
      rw [if_pos hzero]
      cases readLocks with
      | none => exact ⟨none, rfl, ⟨hnone, hread, by simp⟩⟩
      | some l' => exact ⟨some ⟨none, some l'⟩, rfl, ⟨hnone, hread, by simp⟩⟩
    rw [if_neg hzero]
    refine ⟨_, rfl, ⟨⟨pos_of_ne_zero hzero, fun t' => ?_⟩, hread, by simp⟩⟩
    rw [update_apply]
    split_ifs with hne
    · rfl
    · exact hother t' hne

/-- One read lock less. -/
lemma Counts.readUnlock (h : Counts entry w r) (hpos : 0 < r t) (hlt : r t < lockCountSize) :
    ∃ locks entry', entry = some locks ∧ AccountLocks.readUnlock locks t = .ok entry'
      ∧ Counts entry' w (update r t (r t - 1)) := by
  cases entry with
  | none =>
    have := h.read t
    omega
  | some locks =>
    obtain ⟨writeLocks, readLocks⟩ := locks
    have hwrite := h.write
    have hread := h.read
    simp only [bind_some] at hwrite hread
    cases readLocks with
    | none =>
      have := hread t
      omega
    | some l =>
      obtain ⟨hcounts, hset, -⟩ := hread
      have hcontains : l.threadSet.contains t = true := (hset t).mpr hpos
      have ht := ThreadSet.lt_of_contains hcontains
      have hsub : (l.lockCounts t + (lockCountSize - 1)) % lockCountSize = r t - 1 := by
        rw [hcounts t, wrapping_sub_one hpos hlt]
      have hcounts' : ∀ t', update l.lockCounts t (r t - 1) t' = update r t (r t - 1) t' := by
        intro t'
        rw [update_apply, update_apply, hcounts t']
      simp only [some.injEq, exists_and_left, exists_eq_left', AccountLocks.readUnlock, hcontains,
        Bool.not_true, Bool.false_eq_true, if_false, hsub]
      by_cases hzero : r t - 1 = 0
      · have hremoved : ∀ t', (l.threadSet.remove t).contains t' = true
            ↔ 0 < update r t (r t - 1) t' := by
          intro t'
          rw [ThreadSet.contains_remove ht, hset t', update_apply]
          split_ifs with heq
          · simp [heq, hzero]
          · simp [*]
        rw [if_pos hzero]
        -- the last reader takes the read locks with it, and the entry if nobody writes
        by_cases hempty : (l.threadSet.remove t).isEmpty = true
        · have hnone : ∀ t', update r t (r t - 1) t' = 0 := by
            intro t'
            by_contra hne
            have hin := (hremoved t').mpr (pos_of_ne_zero hne)
            rw [ThreadSet.isEmpty_iff.mp hempty t'] at hin
            cases hin
          rw [if_pos hempty]
          cases writeLocks with
          | none => exact ⟨none, rfl, ⟨hwrite, hnone, by simp⟩⟩
          | some l' => exact ⟨some ⟨some l', none⟩, rfl, ⟨hwrite, hnone, by simp⟩⟩
        rw [if_neg hempty]
        refine ⟨_, rfl, ⟨hwrite, ⟨hcounts', hremoved, ?_⟩, by simp⟩⟩
        by_contra hall
        push Not at hall
        refine hempty (ThreadSet.isEmpty_iff.mpr fun t' => ?_)
        rw [Bool.eq_false_iff]
        intro hin
        exact absurd ((hremoved t').mp hin) (hall t').not_gt
      rw [if_neg hzero]
      refine ⟨_, rfl, ⟨hwrite, ⟨hcounts', fun t' => ?_, t, ?_⟩, by simp⟩⟩
      · rw [hset t', update_apply]
        split_ifs with heq
        · subst heq
          exact ⟨fun _ => pos_of_ne_zero hzero, fun _ => hpos⟩
        · rfl
      · rw [update_self]
        exact pos_of_ne_zero hzero

end Locking
end Trezoa.SchedulingUtils
