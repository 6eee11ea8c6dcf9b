import Mathlib

/-!
# Weighted quorums

Voters with weights, and thresholds given in percent of a total.
-/

namespace Trezoa.Lib

open Finset

/-! ## Counters -/

/-- The sum of two counters that stop at `bound`. -/
def saturatingAdd (bound a b : ℕ) : ℕ := min (a + b) bound

section saturating
variable {bound a b : ℕ}

/-- A saturated counter goes on as if it had not saturated. -/
lemma saturatingAdd_min : saturatingAdd bound (min a bound) b = min (a + b) bound := by
  unfold saturatingAdd
  omega

lemma saturatingAdd_min_min :
    saturatingAdd bound (min a bound) (min b bound) = min (a + b) bound := by
  unfold saturatingAdd
  omega

/-- A threshold below the bound does not see the saturation. -/
lemma le_percent_min_iff {p total : ℕ} (hp : p ≤ 100) (htotal : total ≤ bound) :
    p * total ≤ 100 * min a bound ↔ p * total ≤ 100 * a := by
  have hbound : p * total ≤ 100 * bound := Nat.mul_le_mul hp htotal
  omega

end saturating

/-! ## Quorums -/

variable {ι : Type*} [DecidableEq ι] {w : ι → ℕ} {V A B : Finset ι}

/-- A list of votes weighs at least as much as its voters. -/
lemma sum_toFinset_le_sum (l : List ι) : ∑ i ∈ l.toFinset, w i ≤ (l.map w).sum := by
  rw [sum_list_map_count]
  refine sum_le_sum fun i hi => ?_
  exact Nat.le_mul_of_pos_left _ (List.count_pos_iff.mpr (List.mem_toFinset.mp hi))

/-- Two sets of voters that together weigh more than all voters have a voter in common. -/
theorem exists_mem_inter_of_lt_add (hA : A ⊆ V) (hB : B ⊆ V)
    (h : ∑ i ∈ V, w i < ∑ i ∈ A, w i + ∑ i ∈ B, w i) : ∃ i ∈ A, i ∈ B := by
  by_contra! hdisjoint
  have hunion : ∑ i ∈ A ∪ B, w i = ∑ i ∈ A, w i + ∑ i ∈ B, w i :=
    sum_union (disjoint_left.mpr hdisjoint)
  have hle : ∑ i ∈ A ∪ B, w i ≤ ∑ i ∈ V, w i := sum_le_sum_of_subset (union_subset hA hB)
  omega

/-- Two quorums whose thresholds add up to more than the total have a voter in common. -/
theorem exists_mem_inter_of_percent {p q total : ℕ} (hA : A ⊆ V) (hB : B ⊆ V)
    (hV : ∑ i ∈ V, w i ≤ total) (htotal : 0 < total) (hpq : 100 < p + q)
    (hp : p * total ≤ 100 * ∑ i ∈ A, w i) (hq : q * total ≤ 100 * ∑ i ∈ B, w i) :
    ∃ i ∈ A, i ∈ B := by
  apply exists_mem_inter_of_lt_add (w := w) hA hB
  have hmore : 100 * total < (p + q) * total := Nat.mul_lt_mul_of_pos_right hpq htotal
  have hsplit : (p + q) * total = p * total + q * total := Nat.add_mul p q total
  omega

end Trezoa.Lib
