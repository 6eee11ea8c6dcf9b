import Mathlib.Algebra.BigOperators.Intervals
import Mathlib.Algebra.Order.BigOperators.Group.Finset
import Mathlib.Tactic.Ring

/-!
# Trees of sums in an array

A tree in which every inner node has `fanout` children, laid out level by level: the children of the
node `i` are the nodes `fanout * i + 1, …, fanout * i + fanout`. The node `i` holds, for each of its
children, the sum of the weights of the leaves below it.
-/

namespace Trezoa.Lib.SumTree

open List Nat Function

variable {fanout : ℕ}

/-! ## Levels -/

/-- The first node of a level. -/
def base (fanout : ℕ) : ℕ → ℕ
  | 0 => 0
  | level + 1 => fanout * base fanout level + 1

lemma base_succ (fanout level : ℕ) :
    base fanout (level + 1) = base fanout level + fanout ^ level := by
  induction level with
  | zero => simp [base]
  | succ level ih =>
    rw [base, ih, mul_add, pow_succ, mul_comm fanout (fanout ^ level)]
    have : base fanout (level + 1) = fanout * base fanout level + 1 := rfl
    omega

lemma base_mono {level level' : ℕ} (h : level ≤ level') :
    base fanout level ≤ base fanout level' := by
  induction level' with
  | zero => rw [le_zero.mp h]
  | succ level' ih =>
    rcases eq_or_lt_of_le h with rfl | hlt
    · exact le_rfl
    · rw [base_succ]
      exact (ih (le_of_lt_succ hlt)).trans (le_add_right _ _)

/-- A node is on one level only. -/
theorem base_add_ne {level level' q q' : ℕ} (hq : q < fanout ^ level) (hlt : level < level') :
    base fanout level + q ≠ base fanout level' + q' := by
  have hle : base fanout (level + 1) ≤ base fanout level' := base_mono hlt
  rw [base_succ] at hle
  omega

/-- The parent of a node, and its place among the children. -/
theorem parent_eq (hfanout : 0 < fanout) (level q : ℕ) :
    (base fanout (level + 1) + q - 1) / fanout = base fanout level + q / fanout ∧
      (base fanout (level + 1) + q - 1) % fanout = q % fanout := by
  have hsub : base fanout (level + 1) + q - 1 = fanout * base fanout level + q := by
    rw [base]
    omega
  rw [hsub, mul_add_div hfanout, mul_add_mod]
  exact ⟨rfl, rfl⟩

/-- The children of a node are on the next level. -/
theorem child_eq {level q j : ℕ} (hq : q < fanout ^ level) (hj : j < fanout) :
    fanout * (base fanout level + q) + j + 1 = base fanout (level + 1) + (fanout * q + j) ∧
      fanout * q + j < fanout ^ (level + 1) := by
  refine ⟨by rw [base]; ring, ?_⟩
  calc fanout * q + j < fanout * (q + 1) := by rw [mul_succ]; omega
    _ ≤ fanout * fanout ^ level := mul_le_mul_left _ hq
    _ = fanout ^ (level + 1) := (pow_succ' fanout level).symm

/-! ## Changing a path -/

/-- Changes one sum of one node. -/
def updateSum (f : ℕ → ℕ) (tree : ℕ → ℕ → ℕ) (node offset : ℕ) : ℕ → ℕ → ℕ := fun i j =>
  if i = node ∧ j = offset then f (tree i j) else tree i j

/-- Changes the sums on the path from a node to the root. -/
def updatePath (fanout : ℕ) (f : ℕ → ℕ) (tree : ℕ → ℕ → ℕ) (index : ℕ) : ℕ → ℕ → ℕ :=
  if index = 0 then tree
  else updatePath fanout f (updateSum f tree ((index - 1) / fanout) ((index - 1) % fanout))
    ((index - 1) / fanout)
termination_by index
decreasing_by
  have := div_le_self (index - 1) fanout
  omega

variable {tree : ℕ → ℕ → ℕ}

/-- What changes: on each level the sum that the node is counted in. -/
theorem updatePath_apply (hfanout : 0 < fanout) {f : ℕ → ℕ} {level q : ℕ} (hq : q < fanout ^ level)
    {m r j : ℕ} (hr : r < fanout ^ m) (hj : j < fanout) :
    updatePath fanout f tree (base fanout level + q) (base fanout m + r) j =
      if m < level ∧ q / fanout ^ (level - m - 1) = fanout * r + j then
        f (tree (base fanout m + r) j)
      else tree (base fanout m + r) j := by
  induction level generalizing q tree with
  | zero =>
    obtain rfl : q = 0 := by simpa using hq
    rw [updatePath, if_pos (by rfl), if_neg (by omega)]
  | succ level ih =>
    obtain ⟨hparent, hoffset⟩ := parent_eq hfanout level q
    have hq' : q / fanout < fanout ^ level := by
      rw [div_lt_iff_lt_mul hfanout]
      simpa [pow_succ] using hq
    rw [updatePath, if_neg (by rw [base]; omega), hparent, hoffset, ih hq']
    rcases lt_trichotomy m level with hlt | rfl | hgt
    · -- above: the path of the parent
      have hne : ¬(base fanout m + r = base fanout level + q / fanout ∧ j = q % fanout) :=
        fun h => base_add_ne hr hlt h.1
      have hdiv : q / fanout ^ (level + 1 - m - 1) = q / fanout / fanout ^ (level - m - 1) := by
        rw [show level + 1 - m - 1 = (level - m - 1) + 1 by omega, pow_succ',
          Nat.div_div_eq_div_mul]
      rw [updateSum, if_neg hne, hdiv]
      simp only [hlt, true_and, show m < level + 1 by omega]
    · -- the parent itself
      have hiff : (base fanout m + r = base fanout m + q / fanout ∧ j = q % fanout) ↔
          q / fanout ^ (m + 1 - m - 1) = fanout * r + j := by
        rw [show m + 1 - m - 1 = 0 by omega, pow_zero, Nat.div_one]
        have hdiv := div_add_mod q fanout
        constructor
        · rintro ⟨hr', rfl⟩
          rw [show r = q / fanout by omega]
          exact hdiv.symm
        intro heq
        have hr' : q / fanout = r := by
          rw [heq, mul_add_div hfanout, div_eq_of_lt hj, add_zero]
        have hj' : q % fanout = j := by
          rw [heq, mul_add_mod, mod_eq_of_lt hj]
        exact ⟨by omega, hj'.symm⟩
      simp only [lt_irrefl, false_and, if_false, updateSum, hiff, lt_succ_self, true_and]
    · have hne : ¬(base fanout m + r = base fanout level + q / fanout ∧ j = q % fanout) :=
        fun h => base_add_ne hq' hgt h.1.symm
      rw [if_neg (by omega), updateSum, if_neg hne, if_neg (by omega)]

/-! ## Prefix sums -/

/-- The sum of the weights before a leaf. -/
def prefixSum (w : ℕ → ℕ) (k : ℕ) : ℕ := ∑ i ∈ Finset.range k, w i

lemma prefixSum_succ (w : ℕ → ℕ) (k : ℕ) : prefixSum w (k + 1) = prefixSum w k + w k :=
  Finset.sum_range_succ w k

lemma prefixSum_mono (w : ℕ → ℕ) {k k' : ℕ} (h : k ≤ k') : prefixSum w k ≤ prefixSum w k' :=
  Finset.sum_le_sum_of_subset (Finset.range_mono h)

/-- The prefix sums with one weight changed. -/
theorem prefixSum_update (w : ℕ → ℕ) (k x m : ℕ) :
    prefixSum (update w k x) m + (if k < m then w k else 0) =
      prefixSum w m + if k < m then x else 0 := by
  induction m with
  | zero => simp [prefixSum]
  | succ m ih =>
    rw [prefixSum_succ, prefixSum_succ]
    rcases lt_trichotomy k m with hlt | rfl | hgt
    · rw [update_of_ne (by omega)]
      simp only [hlt, if_true, show k < m + 1 by omega] at ih ⊢
      omega
    · simp only [lt_irrefl, if_false, update_self, lt_succ_self, if_true] at ih ⊢
      omega
    · rw [update_of_ne (by omega)]
      simp only [show ¬k < m by omega, show ¬k < m + 1 by omega, if_false] at ih ⊢
      omega

lemma le_prefixSum (w : ℕ → ℕ) {k m : ℕ} (h : k < m) : w k ≤ prefixSum w m :=
  Finset.single_le_sum_of_canonicallyOrdered (Finset.mem_range.mpr h)

lemma ne_zero_of_passes {w : ℕ → ℕ} {val k : ℕ} (hk : prefixSum w k ≤ val)
    (hk₁ : val < prefixSum w (k + 1)) : w k ≠ 0 := by
  rw [prefixSum_succ] at hk₁
  omega

/-- There is one leaf where the prefix sums pass a value. -/
theorem passes_unique {w : ℕ → ℕ} {val k k' : ℕ} (hk : prefixSum w k ≤ val)
    (hk₁ : val < prefixSum w (k + 1)) (hk' : prefixSum w k' ≤ val)
    (hk₁' : val < prefixSum w (k' + 1)) : k = k' := by
  rcases lt_trichotomy k k' with hlt | heq | hgt
  · have := prefixSum_mono w (show k + 1 ≤ k' from hlt)
    omega
  · exact heq
  · have := prefixSum_mono w (show k' + 1 ≤ k from hgt)
    omega

/-! ## Sums -/

/-- Every inner node above the leaves, which are on level `depth`, holds the sums of the leaves
below its children. -/
def Sums (fanout depth : ℕ) (tree : ℕ → ℕ → ℕ) (w : ℕ → ℕ) : Prop :=
  ∀ level q j, level < depth → q < fanout ^ level → j < fanout →
    tree (base fanout level + q) j + prefixSum w ((fanout * q + j) * fanout ^ (depth - level - 1)) =
      prefixSum w ((fanout * q + j + 1) * fanout ^ (depth - level - 1))

lemma Sums.zero (fanout depth : ℕ) : Sums fanout depth (fun _ _ => 0) (fun _ => 0) := by
  intro level q j _ _ _
  simp [prefixSum]

/-- Whether a leaf is below a child is whether it is between its bounds. -/
theorem div_pow_eq_iff {k a n : ℕ} (hn : 0 < n) : k / n = a ↔ k < (a + 1) * n ∧ ¬k < a * n := by
  rw [Nat.div_eq_iff hn]
  have h : (a + 1) * n = a * n + n := by ring
  omega

/-- A change of the path of a leaf by as much as its weight changes keeps the sums. -/
theorem Sums.update (hfanout : 0 < fanout) {depth k x : ℕ} {w : ℕ → ℕ} {f : ℕ → ℕ}
    (h : Sums fanout depth tree w) (hk : k < fanout ^ depth)
    (hf : ∀ sum, w k ≤ sum → f sum + w k = sum + x) :
    Sums fanout depth (updatePath fanout f tree (base fanout depth + k)) (update w k x) := by
  intro level q j hlevel hq hj
  have hpow : 0 < fanout ^ (depth - level - 1) := Nat.pow_pos hfanout
  have hsum := h level q j hlevel hq hj
  have hiff := @div_pow_eq_iff k (fanout * q + j) _ hpow
  rw [updatePath_apply hfanout hk hq hj]
  simp only [hlevel, true_and]
  have hmono := mul_le_mul_right (fanout ^ (depth - level - 1)) (le_succ (fanout * q + j))
  set low := (fanout * q + j) * fanout ^ (depth - level - 1)
  set high := (fanout * q + j + 1) * fanout ^ (depth - level - 1)
  have hlow := prefixSum_update w k x low
  have hhigh := prefixSum_update w k x high
  by_cases hbelow : k / fanout ^ (depth - level - 1) = fanout * q + j
  · rw [if_pos hbelow]
    obtain ⟨h1, h2⟩ := hiff.mp hbelow
    rw [if_pos h1, if_pos h1] at hhigh
    rw [if_neg h2, if_neg h2] at hlow
    -- the weight is part of the sum
    have hle : w k ≤ tree (base fanout level + q) j := by
      have h3 := prefixSum_mono w (not_lt.mp h2)
      have h4 := prefixSum_mono w (show k + 1 ≤ high from h1)
      rw [prefixSum_succ] at h4
      omega
    have := hf _ hle
    omega
  rw [if_neg hbelow]
  by_cases h1 : k < low
  · rw [if_pos h1, if_pos h1] at hlow
    rw [if_pos (by omega), if_pos (by omega)] at hhigh
    have h3 := prefixSum_mono w (show k + 1 ≤ low from h1)
    rw [prefixSum_succ] at h3
    omega
  · have h2 : ¬k < high := fun h2 => hbelow (hiff.mpr ⟨h2, h1⟩)
    rw [if_neg h1, if_neg h1] at hlow
    rw [if_neg h2, if_neg h2] at hhigh
    omega

/-- The sum above a leaf is its weight. -/
theorem Sums.leaf (hfanout : 0 < fanout) {depth k : ℕ} {w : ℕ → ℕ}
    (h : Sums fanout (depth + 1) tree w) (hk : k < fanout ^ (depth + 1)) :
    tree ((base fanout (depth + 1) + k - 1) / fanout) ((base fanout (depth + 1) + k - 1) % fanout) =
      w k := by
  obtain ⟨hparent, hoffset⟩ := parent_eq hfanout depth k
  have hq : k / fanout < fanout ^ depth := by
    rw [div_lt_iff_lt_mul hfanout]
    simpa [pow_succ] using hk
  have hsum := h depth (k / fanout) (k % fanout) (lt_succ_self _) hq (mod_lt _ hfanout)
  rw [show depth + 1 - depth - 1 = 0 by omega, pow_zero, mul_one, mul_one,
    div_add_mod, prefixSum_succ] at hsum
  rw [hparent, hoffset]
  omega

/-! ## Going down -/

/-- The first child with the value below the sum up to it, the value left, and its own sum. -/
def findChild : List ℕ → ℕ → Option (ℕ × ℕ × ℕ)
  | [], _ => none
  | node :: rest, val =>
    if val < node then some (0, val, node)
    else (findChild rest (val - node)).map fun found => (found.1 + 1, found.2)

lemma findChild_spec {l : List ℕ} {val : ℕ} (h : val < l.sum) :
    ∃ j rest, findChild l val = some (j, rest, l.getD j 0) ∧ j < l.length ∧
      val = (l.take j).sum + rest ∧ rest < l.getD j 0 := by
  induction l generalizing val with
  | nil => exact absurd h (by simp)
  | cons node l ih =>
    rw [findChild]
    by_cases hlt : val < node
    · rw [if_pos hlt]
      exact ⟨0, val, rfl, by simp, by simp, by simpa using hlt⟩
    rw [if_neg hlt]
    rw [sum_cons] at h
    obtain ⟨j, rest, hfind, hj, hval, hrest⟩ := @ih (val - node) (by omega)
    refine ⟨j + 1, rest, by rw [hfind]; rfl, by simpa using hj, ?_, by simpa using hrest⟩
    rw [take_succ_cons, sum_cons]
    omega

/-- Goes down by the sums, to the first node that is not in the array. -/
def descend (fanout : ℕ) (tree : ℕ → ℕ → ℕ) (treeLen : ℕ) (index val : ℕ) : Option (ℕ × ℕ) :=
  match _hfind : findChild ((range fanout).map (tree index)) val with
  | none => none
  | some (offset, val, node) =>
    if _h : treeLen ≤ fanout * index + offset + 1 then some (fanout * index + offset + 1, node)
    else descend fanout tree treeLen (fanout * index + offset + 1) val
termination_by treeLen - index
decreasing_by
  rcases Nat.eq_zero_or_pos fanout with h0 | h0
  · subst h0
    exact absurd _hfind (by simp [findChild])
  · have := Nat.le_mul_of_pos_left index h0
    omega

/-- The sums of the first children of a node. -/
theorem Sums.sum_children {depth level q j : ℕ} {w : ℕ → ℕ} (h : Sums fanout depth tree w)
    (hlevel : level < depth) (hq : q < fanout ^ level) (hj : j ≤ fanout) :
    (((range fanout).map (tree (base fanout level + q))).take j).sum +
      prefixSum w (q * fanout ^ (depth - level)) =
        prefixSum w ((fanout * q + j) * fanout ^ (depth - level - 1)) := by
  have hpow : fanout ^ (depth - level) = fanout * fanout ^ (depth - level - 1) := by
    rw [← pow_succ']
    congr 1
    omega
  induction j with
  | zero =>
    rw [take_zero, sum_nil, zero_add, hpow]
    congr 1
    ring
  | succ j ih =>
    have hsum := h level q j hlevel hq (by omega)
    have hget : ((range fanout).map (tree (base fanout level + q)))[j]? =
        some (tree (base fanout level + q) j) := by
      simp [show j < fanout by omega]
    rw [take_add_one, hget, sum_append_nat, Option.toList_some, sum_singleton, ← add_assoc]
    have := ih (by omega)
    omega

section descend
variable {depth treeLen level q val total : ℕ} {tree : ℕ → ℕ → ℕ} {w : ℕ → ℕ}

/-- One step down: the child below which the leaves pass the value. -/
theorem Sums.exists_child (h : Sums fanout depth tree w) (hlevel : level < depth)
    (hq : q < fanout ^ level) (hlow : prefixSum w (q * fanout ^ (depth - level)) + val = total)
    (hhigh : total < prefixSum w ((q + 1) * fanout ^ (depth - level))) :
    ∃ j < fanout, ∃ rest,
      findChild ((range fanout).map (tree (base fanout level + q))) val =
        some (j, rest, tree (base fanout level + q) j) ∧
      prefixSum w ((fanout * q + j) * fanout ^ (depth - level - 1)) + rest = total ∧
      total < prefixSum w ((fanout * q + j + 1) * fanout ^ (depth - level - 1)) := by
  have hpow : (q + 1) * fanout ^ (depth - level) =
      (fanout * q + fanout) * fanout ^ (depth - level - 1) := by
    rw [show depth - level = (depth - level - 1) + 1 by omega, pow_succ, Nat.add_sub_cancel]
    ring
  have hall := h.sum_children hlevel hq le_rfl
  rw [take_of_length_le (by simp)] at hall
  rw [hpow] at hhigh
  obtain ⟨j, rest, hfind, hj, hval, hrest⟩ :=
    @findChild_spec ((range fanout).map (tree (base fanout level + q))) val (by omega)
  rw [length_map, length_range] at hj
  have hget : ((range fanout).map (tree (base fanout level + q))).getD j 0 =
      tree (base fanout level + q) j := by
    simp [getD, hj]
  rw [hget] at hfind hrest
  have hfirst := h.sum_children hlevel hq hj.le
  have hsum := h level q j hlevel hq hj
  exact ⟨j, hj, rest, hfind, by omega, by omega⟩

/-- Going down from a node with a value that its leaves pass finds the leaf where they pass it. The
array has all inner nodes with a sum, and no leaf. -/
theorem descend_spec (h : Sums fanout depth tree w)
    (hinner : ∀ level q, level < depth → q < fanout ^ level →
      prefixSum w (q * fanout ^ (depth - level)) <
        prefixSum w ((q + 1) * fanout ^ (depth - level)) →
      base fanout level + q < treeLen)
    (hleaf : treeLen ≤ base fanout depth) (hlevel : level < depth) (hq : q < fanout ^ level)
    (hlow : prefixSum w (q * fanout ^ (depth - level)) + val = total)
    (hhigh : total < prefixSum w ((q + 1) * fanout ^ (depth - level))) :
    ∃ k < fanout ^ depth,
      descend fanout tree treeLen (base fanout level + q) val = some (base fanout depth + k, w k) ∧
      prefixSum w k ≤ total ∧ total < prefixSum w (k + 1) := by
  obtain ⟨n, hn⟩ : ∃ n, depth - level = n + 1 := ⟨depth - level - 1, by omega⟩
  induction n generalizing level q val with
  | zero =>
    obtain ⟨j, hj, rest, hfind, hlow', hhigh'⟩ := h.exists_child hlevel hq hlow hhigh
    obtain rfl : depth = level + 1 := by omega
    have hsum := h level q j hlevel hq hj
    simp only [show level + 1 - level - 1 = 0 by omega, pow_zero, Nat.mul_one] at hlow' hhigh' hsum
    obtain ⟨hindex, hq'⟩ := child_eq hq hj
    rw [prefixSum_succ] at hsum
    refine ⟨fanout * q + j, hq', ?_, by omega, hhigh'⟩
    rw [descend, hfind]
    dsimp only
    rw [dif_pos (by omega), hindex, show tree (base fanout level + q) j = w (fanout * q + j) by
      omega]
  | succ n ih =>
    obtain ⟨j, hj, rest, hfind, hlow', hhigh'⟩ := h.exists_child hlevel hq hlow hhigh
    obtain ⟨hindex, hq'⟩ := child_eq hq hj
    have hpow : depth - (level + 1) = depth - level - 1 := by omega
    rw [← hpow] at hlow' hhigh'
    have hlen : base fanout (level + 1) + (fanout * q + j) < treeLen :=
      hinner (level + 1) _ (by omega) hq' (by omega)
    obtain ⟨k, hk, hdescend, hbounds⟩ := ih (by omega) hq' hlow' hhigh' (by omega)
    refine ⟨k, hk, ?_, hbounds⟩
    rw [descend, hfind]
    dsimp only
    rw [dif_neg (by omega), hindex]
    exact hdescend

end descend
end Trezoa.Lib.SumTree
