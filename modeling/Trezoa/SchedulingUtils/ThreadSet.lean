import Trezoa.SchedulingUtils.ThreadAwareAccountLocks

/-!
# Sets of threads as sets

What the operations on the bits of a `ThreadSet` are on its threads.

* `contains_any`, `contains_only`, `contains_insert`, `contains_remove`, `contains_bitand` —
  the threads of each set.
-/

namespace Trezoa.SchedulingUtils

open List BitVec Bool

namespace ThreadSet

variable {s : ThreadSet} {t t' n : ℕ}

/-- The flag of a thread is a bit. -/
lemma asFlag_eq (t : ℕ) : asFlag t = twoPow 64 t := (twoPow_eq 64 t).symm

/-- A thread is in the set if its bit is set. -/
lemma contains_eq (s : ThreadSet) (t : ℕ) : s.contains t = s.bits.getLsbD t := by
  rw [contains, asFlag_eq, and_twoPow]
  by_cases ht : t < 64
  · have hpow : twoPow 64 t ≠ 0#64 := by
      intro h
      have := congrArg (fun b : BitVec 64 => b.getLsbD t) h
      simp [ht] at this
    cases hbit : s.bits.getLsbD t with
    | true => simpa using hpow
    | false => simp
  · rw [getLsbD_of_ge _ _ (not_lt.mp ht)]
    simp

/-- Only the threads that fit are in a set. -/
lemma lt_of_contains (h : s.contains t = true) : t < maxThreads := by
  rw [contains_eq] at h
  exact lt_of_getLsbD h

/-- A set is determined by its threads. -/
lemma ext_contains {s₁ s₂ : ThreadSet} (h : ∀ t, s₁.contains t = s₂.contains t) : s₁ = s₂ := by
  obtain ⟨b₁⟩ := s₁
  obtain ⟨b₂⟩ := s₂
  congr 1
  refine eq_of_getLsbD_eq fun i _ => ?_
  simpa only [contains_eq] using h i

@[simp] lemma contains_none : none.contains t = false := by
  simp [contains_eq, none]

/-- The set of the first `n` threads. -/
lemma contains_any (hn : n ≤ maxThreads) : (any n).contains t = true ↔ t < n := by
  unfold any
  rw [contains_eq]
  split
  · rename_i heq
    rw [heq, getLsbD_allOnes, decide_eq_true_eq]
    rfl
  rename_i hne
  have hlt : n < 64 := lt_of_le_of_ne hn hne
  have hpow : 2 ^ n < 2 ^ 64 := Nat.pow_lt_pow_right (by norm_num) hlt
  have hpos : 0 < 2 ^ n := Nat.two_pow_pos n
  have hnat : (asFlag n - 1).toNat = 2 ^ n - 1 := by
    rw [asFlag_eq, toNat_sub_of_le, toNat_twoPow_of_lt hlt]
    · rfl
    · rw [le_def, toNat_twoPow_of_lt hlt]
      exact hpos
  rw [getLsbD, hnat, Nat.testBit_two_pow_sub_one]
  simp

/-- The set of one thread. -/
lemma contains_only (ht : t < maxThreads) : (only t).contains t' = true ↔ t' = t := by
  rw [contains_eq, only, asFlag_eq, getLsbD_twoPow]
  simp only [and_eq_true, decide_eq_true_eq]
  constructor
  · exact fun h => h.2.symm
  · rintro rfl
    exact ⟨ht, rfl⟩

/-- Insertion adds a thread. -/
lemma contains_insert (ht : t < maxThreads) :
    (s.insert t).contains t' = true ↔ t' = t ∨ s.contains t' = true := by
  have honly : (only t).contains t' = true ↔ t' = t := contains_only ht
  rw [contains_eq] at honly
  rw [contains_eq, insert, getLsbD_or, or_eq_true, contains_eq, ← honly, only]
  exact or_comm

/-- Removal takes a thread away. -/
lemma contains_remove (ht : t < maxThreads) :
    (s.remove t).contains t' = true ↔ t' ≠ t ∧ s.contains t' = true := by
  have honly : (only t).contains t' = true ↔ t' = t := contains_only ht
  rw [contains_eq, only] at honly
  rw [contains_eq, contains_eq, remove, getLsbD_and, getLsbD_not, and_eq_true,
    and_eq_true, not_eq_true', ← not_eq_true, honly, decide_eq_true_eq]
  constructor
  · exact fun h => ⟨h.2.2, h.1⟩
  · exact fun h => ⟨h.2, lt_of_getLsbD h.2, h.1⟩

/-- The common threads. -/
lemma contains_bitand {s' : ThreadSet} :
    (s.bitand s').contains t = true ↔ s.contains t = true ∧ s'.contains t = true := by
  rw [contains_eq, contains_eq, contains_eq, bitand, getLsbD_and, and_eq_true]

/-- The empty set has no thread. -/
lemma isEmpty_iff : s.isEmpty = true ↔ ∀ t, s.contains t = false := by
  rw [isEmpty, decide_eq_true_eq]
  constructor
  · rintro rfl t
    exact contains_none
  · exact fun h => ext_contains fun t => (h t).trans contains_none.symm

/-- The list has the threads of the set. -/
lemma mem_ones : t ∈ s.ones ↔ s.contains t = true := by
  rw [ones, mem_filter, contains_eq, mem_range]
  exact ⟨fun h => h.2, fun h => ⟨lt_of_getLsbD h, h⟩⟩

/-- There is just one thread. -/
lemma onlyOneContained_eq_some :
    s.onlyOneContained = some t ↔ ∀ t', s.contains t' = true ↔ t' = t := by
  have hnodup : s.ones.Nodup := nodup_range.filter _
  unfold onlyOneContained numThreads trailingZeros
  constructor
  · intro h
    split at h
    · rename_i hone
      obtain ⟨t₀, ht₀⟩ := length_eq_one_iff.mp hone
      rw [ht₀] at h
      cases h
      intro t'
      rw [← mem_ones, ht₀, mem_singleton]
      rfl
    · cases h
  intro h
  have hones : s.ones = [t] := by
    refine perm_singleton.mp ((perm_ext_iff_of_nodup hnodup (by simp)).mpr fun t' => ?_)
    rw [mem_ones, h t', mem_singleton]
  rw [hones]
  rfl

/-- The first thread of a set that is not empty is in it. -/
lemma contains_trailingZeros (s : ThreadSet) (h : s.isEmpty = false) :
    s.contains s.trailingZeros = true := by
  unfold trailingZeros
  cases hones : s.ones with
  | nil =>
    have hempty : s.isEmpty = true := by
      rw [isEmpty_iff]
      intro t
      rw [← not_eq_true, ← mem_ones, hones]
      exact not_mem_nil
    cases h.symm.trans hempty
  | cons t rest =>
    rw [headD_cons, ← mem_ones, hones]
    exact .head _

end ThreadSet
end Trezoa.SchedulingUtils
