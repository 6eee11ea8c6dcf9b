import Mathlib.Data.Nat.Bitwise
import Mathlib.Data.Nat.Log
import Mathlib.Data.List.Basic
import Mathlib.Tactic.Ring

/-!
# Trees whose levels are lists

A binary tree over a list of leaves, level by level: the nodes of a level are joined in pairs, and
the last node of a level of odd length is joined with itself. A node is joined by its entry, which
may be less than the node.
-/

namespace Trezoa.Lib

open List Nat

/-! ## The number of nodes -/

/-- The number of nodes of a tree with `k` leaves. -/
def levelsSize (k : ℕ) : ℕ := if 1 < k then k + levelsSize ((k + 1) / 2) else k

lemma levelsSize_of_lt {k : ℕ} (h : 1 < k) : levelsSize k = k + levelsSize ((k + 1) / 2) := by
  rw [levelsSize, if_pos h]

lemma levelsSize_of_le {k : ℕ} (h : k ≤ 1) : levelsSize k = k := by
  rw [levelsSize, if_neg (by omega)]

lemma le_levelsSize (k : ℕ) : k ≤ levelsSize k := by
  by_cases h : 1 < k
  · rw [levelsSize_of_lt h]
    omega
  · rw [levelsSize_of_le (by omega)]

/-- More leaves, more nodes. -/
theorem levelsSize_strictMono : StrictMono levelsSize := by
  intro a b hab
  induction b using Nat.strong_induction_on generalizing a with
  | _ b ih =>
    by_cases hb : 1 < b
    · rw [levelsSize_of_lt hb]
      by_cases ha : 1 < a
      · rw [levelsSize_of_lt ha]
        rcases lt_or_ge ((a + 1) / 2) ((b + 1) / 2) with hlt | hge
        · have := ih _ (by omega) hlt
          omega
        · have : (a + 1) / 2 = (b + 1) / 2 := by omega
          rw [this]
          omega
      · rw [levelsSize_of_le (by omega)]
        omega
    · rw [levelsSize_of_le (by omega), levelsSize_of_le (by omega)]
      exact hab

/-! ## Levels -/

section Levels
variable {H E : Type} (entry : H → E) (join : E → E → H)

/-- The next level. -/
def parents : List H → List H
  | [] => []
  | [a] => [join (entry a) (entry a)]
  | a :: b :: rest => join (entry a) (entry b) :: parents rest

lemma length_parents (l : List H) : (parents entry join l).length = (l.length + 1) / 2 := by
  fun_induction parents entry join l with
  | case1 => simp
  | case2 a => simp
  | case3 a b rest ih =>
    simp only [length_cons, ih]
    omega

/-- A node of the next level joins two neighbours, or the last node with itself. -/
lemma getElem?_parents (l : List H) {i : ℕ} {a b : H} (ha : l[2 * i]? = some a)
    (hb : l[min (2 * i + 1) (l.length - 1)]? = some b) :
    (parents entry join l)[i]? = some (join (entry a) (entry b)) := by
  fun_induction parents entry join l generalizing i with
  | case1 => simp at ha
  | case2 c =>
    obtain rfl : i = 0 := by
      have := (List.getElem?_eq_some_iff.mp ha).1
      simp at this
      omega
    simp only [Nat.mul_zero, List.length_singleton, Nat.sub_self, Nat.min_zero,
      getElem?_cons_zero, Option.some.injEq] at ha hb
    rw [← ha, ← hb]
    rfl
  | case3 c d rest ih =>
    cases i with
    | zero =>
      simp only [mul_zero, getElem?_cons_zero, Option.some.injEq] at ha
      rw [show min (2 * 0 + 1) ((c :: d :: rest).length - 1) = 1 by simp] at hb
      simp only [getElem?_cons_succ, getElem?_cons_zero, Option.some.injEq] at hb
      rw [← ha, ← hb]
      rfl
    | succ i =>
      rw [getElem?_cons_succ]
      have hlt := (List.getElem?_eq_some_iff.mp ha).1
      simp only [length_cons] at hlt
      refine ih ?_ ?_
      · rw [show 2 * (i + 1) = 2 * i + 1 + 1 by ring] at ha
        simpa using ha
      · rw [show min (2 * (i + 1) + 1) ((c :: d :: rest).length - 1)
          = min (2 * i + 1) (rest.length - 1) + 1 + 1 by simp only [length_cons]; omega] at hb
        simpa using hb

/-- All levels, from the leaves to the top. -/
def levels (l : List H) : List (List H) :=
  l :: if 1 < l.length then levels (parents entry join l) else []
termination_by l.length
decreasing_by
  rw [length_parents]
  omega

/-- The node at the top. -/
def top (l : List H) : Option H :=
  if 1 < l.length then top (parents entry join l) else l.head?
termination_by l.length
decreasing_by
  rw [length_parents]
  omega

lemma levels_of_lt {l : List H} (h : 1 < l.length) :
    levels entry join l = l :: levels entry join (parents entry join l) := by
  rw [levels, if_pos h]

lemma levels_of_le {l : List H} (h : l.length ≤ 1) : levels entry join l = [l] := by
  rw [levels, if_neg (by omega)]

lemma top_of_lt {l : List H} (h : 1 < l.length) :
    top entry join l = top entry join (parents entry join l) := by
  rw [top, if_pos h]

lemma top_of_le {l : List H} (h : l.length ≤ 1) : top entry join l = l.head? := by
  rw [top, if_neg (by omega)]

lemma length_flatten_levels (l : List H) :
    (levels entry join l).flatten.length = levelsSize l.length := by
  induction l using levels.induct entry join with
  | case1 l ih =>
    by_cases h : 1 < l.length
    · rw [levels_of_lt entry join h, flatten_cons, length_append, ih h, length_parents,
        levelsSize_of_lt h]
    · rw [levels_of_le entry join (by omega), levelsSize_of_le (by omega)]
      simp

/-- The top is the last node. -/
lemma getLast?_flatten_levels (l : List H) :
    (levels entry join l).flatten.getLast? = top entry join l := by
  induction l using levels.induct entry join with
  | case1 l ih =>
    by_cases h : 1 < l.length
    · rw [top_of_lt entry join h, levels_of_lt entry join h, flatten_cons,
        ← ih h, getLast?_append]
      have hsize := length_flatten_levels entry join (parents entry join l)
      have hle := le_levelsSize (parents entry join l).length
      have hlength := length_parents entry join l
      cases hlast : (levels entry join (parents entry join l)).flatten.getLast? with
      | some root => rfl
      | none =>
        rw [getLast?_eq_none_iff] at hlast
        rw [hlast, length_nil] at hsize
        omega
    rw [top_of_le entry join (by omega), levels_of_le entry join (by omega)]
    match l, h with
    | [], _ => rfl
    | [a], _ => rfl
    | a :: b :: rest, h => simp at h

/-! ## Climbing -/

/-- The entries that a leaf is joined with on the way up. -/
def siblings (l : List H) (i : ℕ) : List E :=
  if 1 < l.length then
    match l[min (i ^^^ 1) (l.length - 1)]? with
    | some sibling => entry sibling :: siblings (parents entry join l) (i / 2)
    | none => []
  else []
termination_by l.length
decreasing_by
  rw [length_parents]
  omega

/-- The pair that is joined at a position. -/
def joinedPair (i : ℕ) (node other : E) : E × E :=
  if i % 2 = 0 then (node, other) else (other, node)

/-- The way up from a node with given entries; also the pairs that are joined. -/
def climb (i : ℕ) (node : H) : List E → ℕ × H × List (E × E)
  | [] => (i, node, [])
  | other :: proof =>
    let pair := joinedPair i (entry node) other
    let (i, node, pairs) := climb (i / 2) (join pair.1 pair.2) proof
    (i, node, pair :: pairs)

variable {l : List H} {i : ℕ} {node : H} {proof : List E}

/-- The sibling of a position exists, and joined with the node it is the parent. -/
lemma exists_sibling (h : 1 < l.length) (hi : l[i]? = some node) :
    ∃ sibling, l[min (i ^^^ 1) (l.length - 1)]? = some sibling
      ∧ (parents entry join l)[i / 2]? = some (join (joinedPair i (entry node) (entry sibling)).1
        (joinedPair i (entry node) (entry sibling)).2) := by
  have hlt := (List.getElem?_eq_some_iff.mp hi).1
  have hsib : min (i ^^^ 1) (l.length - 1) < l.length := by omega
  refine ⟨l[min (i ^^^ 1) (l.length - 1)], List.getElem?_eq_getElem hsib, ?_⟩
  have hget := getElem?_eq_getElem hsib
  rcases mod_two_eq_zero_or_one i with heven | hodd
  · have hxor : i ^^^ 1 = i + 1 := by
      rw [xor_one_of_even (even_iff.mpr heven)]
    have hi2 : 2 * (i / 2) = i := by omega
    rw [joinedPair, if_pos heven]
    refine getElem?_parents entry join l (by rwa [hi2]) ?_
    rw [hi2, ← hxor]
    exact hget
  have hxor : i ^^^ 1 = i - 1 := by
    rw [xor_one_of_odd (odd_iff.mpr hodd)]
  have hi2 : 2 * (i / 2) = i - 1 := by omega
  have hmin : min (i ^^^ 1) (l.length - 1) = i - 1 := by omega
  rw [joinedPair, if_neg (by omega)]
  refine getElem?_parents entry join l ?_ ?_
  · rw [hi2, ← hmin]
    exact hget
  · rw [hi2, show min (i - 1 + 1) (l.length - 1) = i by omega]
    exact hi

lemma siblings_of_lt {sibling : H} (h : 1 < l.length)
    (hsib : l[min (i ^^^ 1) (l.length - 1)]? = some sibling) :
    siblings entry join l i = entry sibling :: siblings entry join (parents entry join l)
      (i / 2) := by
  rw [siblings, if_pos h]
  simp [hsib]

lemma siblings_of_le (h : l.length ≤ 1) : siblings entry join l i = [] := by
  rw [siblings, if_neg (by omega)]

/-- There is one sibling for each level below the top. -/
lemma length_siblings (hi : i < l.length) : (siblings entry join l i).length = clog 2 l.length := by
  induction hn : l.length using Nat.strong_induction_on generalizing l i with
  | _ n ih =>
    subst hn
    by_cases h : 1 < l.length
    · obtain ⟨sibling, hsib, -⟩ := exists_sibling entry join h (getElem?_eq_getElem hi)
      rw [siblings_of_lt entry join h hsib, length_cons,
        ih (parents entry join l).length (by rw [length_parents]; omega)
          (by rw [length_parents]; omega) rfl,
        length_parents, clog_of_two_le (by omega) h]
      rfl
    · rw [siblings_of_le entry join (by omega), length_nil, clog_of_right_le_one (by omega)]

/-- With its siblings a leaf climbs to the top. -/
theorem climb_siblings (hi : l[i]? = some node) :
    ∃ root pairs, top entry join l = some root
      ∧ climb entry join i node (siblings entry join l i) = (0, root, pairs) := by
  induction hn : l.length using Nat.strong_induction_on generalizing l i node with
  | _ n ih =>
    subst hn
    have hlt := (List.getElem?_eq_some_iff.mp hi).1
    by_cases h : 1 < l.length
    · obtain ⟨sibling, hsib, hparent⟩ := exists_sibling entry join h hi
      obtain ⟨root, pairs, htop, hclimb⟩ := ih (parents entry join l).length
        (by rw [length_parents]; omega) hparent rfl
      refine ⟨root, joinedPair i (entry node) (entry sibling) :: pairs,
        by rw [top_of_lt entry join h, htop], ?_⟩
      rw [siblings_of_lt entry join h hsib, climb]
      simp [hclimb]
    · obtain rfl : i = 0 := by omega
      refine ⟨node, [], ?_, ?_⟩
      · rw [top_of_le entry join (by omega), head?_eq_getElem?, hi]
      · rw [siblings_of_le entry join (by omega), climb]

/-- A node that climbs to the top with as many entries as a leaf has the entry of the leaf, and the
entries are the siblings of the leaf, if no two different pairs that are joined on the two ways up
have the same entry. -/
theorem climb_binding {leaf root : H} {j : ℕ} {pairs pairs' : List (E × E)}
    (hi : l[i]? = some leaf) (htop : top entry join l = some root)
    (hlength : proof.length = clog 2 l.length)
    (hclimb : climb entry join i node proof = (j, root, pairs))
    (hleaf : climb entry join i leaf (siblings entry join l i) = (0, root, pairs'))
    (hcollision : ∀ p ∈ pairs, ∀ q ∈ pairs', entry (join p.1 p.2) = entry (join q.1 q.2) → p = q) :
    entry node = entry leaf ∧ proof = siblings entry join l i := by
  induction hn : l.length using Nat.strong_induction_on
    generalizing l i node leaf proof pairs pairs' with
  | _ n ih =>
    subst hn
    have hlt := (List.getElem?_eq_some_iff.mp hi).1
    by_cases h : 1 < l.length
    · obtain ⟨sibling, hsib, hparent⟩ := exists_sibling entry join h hi
      rw [siblings_of_lt entry join h hsib] at hleaf ⊢
      rw [clog_of_two_le (by omega) h] at hlength
      cases proof with
      | nil => cases hlength
      | cons other proof =>
        rw [climb] at hclimb hleaf
        simp only [Prod.mk.injEq] at hclimb hleaf
        obtain ⟨hj, hroot, hpairs⟩ := hclimb
        obtain ⟨hj', hroot', hpairs'⟩ := hleaf
        have hrest : (proof.length = clog 2 (parents entry join l).length) := by
          rw [length_parents]
          simpa using hlength
        obtain ⟨hnode, hproof⟩ := ih (parents entry join l).length
          (by rw [length_parents]; omega) hparent (by rw [← top_of_lt entry join h, htop]) hrest
          (Prod.ext hj (Prod.ext hroot rfl)) (Prod.ext hj' (Prod.ext hroot' rfl))
          (fun p hp q hq => hcollision p (hpairs ▸ .tail _ hp) q (hpairs' ▸ .tail _ hq)) rfl
        have hpair := hcollision _ (hpairs ▸ mem_cons_self) _ (hpairs' ▸ mem_cons_self) hnode
        rw [hproof]
        unfold joinedPair at hpair
        split at hpair
        · obtain ⟨hentry, hother⟩ := Prod.mk.inj hpair
          exact ⟨hentry, by rw [hother]⟩
        · obtain ⟨hother, hentry⟩ := Prod.mk.inj hpair
          exact ⟨hentry, by rw [hother]⟩
    rw [clog_of_right_le_one (by omega), length_eq_zero_iff] at hlength
    subst hlength
    rw [siblings_of_le entry join (by omega)] at hleaf ⊢
    rw [climb] at hclimb hleaf
    simp only [Prod.mk.injEq] at hclimb hleaf
    rw [hclimb.2.1, hleaf.2.1]
    exact ⟨rfl, rfl⟩

end Levels
end Trezoa.Lib
