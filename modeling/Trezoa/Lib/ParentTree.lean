import Mathlib

/-!
# Trees given by parents

A forest in which every node knows its parent, and parents have a smaller rank than their children.
-/

namespace Trezoa.Lib

variable {α : Type} {parent : α → Option α} {rank : α → ℕ} {a b c p : α}

/-! ## Ancestors -/

/-- The node `a` is a proper ancestor of `b`. -/
def IsAncestor (parent : α → Option α) (a b : α) : Prop :=
  Relation.TransGen (fun child up => parent child = some up) b a

lemma IsAncestor.trans (hab : IsAncestor parent a b) (hbc : IsAncestor parent b c) :
    IsAncestor parent a c :=
  Relation.TransGen.trans hbc hab

/-- The proper ancestors of a node are its parent and the ancestors of its parent. -/
lemma isAncestor_iff :
    IsAncestor parent a b ↔ ∃ p, parent b = some p ∧ (a = p ∨ IsAncestor parent a p) := by
  unfold IsAncestor
  rw [Relation.TransGen.head'_iff]
  refine exists_congr fun p => and_congr_right fun _ => ?_
  rw [Relation.reflTransGen_iff_eq_or_transGen]

lemma isAncestor_iff_of_parent (h : parent b = some p) :
    IsAncestor parent a b ↔ a = p ∨ IsAncestor parent a p := by
  rw [isAncestor_iff, h]
  simp

lemma not_isAncestor_of_parent_eq_none (h : parent b = none) : ¬ IsAncestor parent a b := by
  rw [isAncestor_iff, h]
  simp

section Rank
variable (hrank : ∀ {child up}, parent child = some up → rank up < rank child)
include hrank

/-- The rank falls on the way up. -/
lemma IsAncestor.rank_lt (h : IsAncestor parent a b) : rank a < rank b := by
  induction h with
  | single h => exact hrank h
  | tail _ h ih => exact (hrank h).trans ih

end Rank

/-! ## The way up -/

/-- The nodes on the way up from a node, at most `fuel` of them. -/
def walk (parent : α → Option α) : ℕ → α → List α
  | 0, _ => []
  | fuel + 1, a =>
    match parent a with
    | none => []
    | some p => p :: walk parent fuel p

lemma walk_succ_of_parent {fuel : ℕ} (h : parent a = some p) :
    walk parent (fuel + 1) a = p :: walk parent fuel p := by
  simp [walk, h]

lemma walk_of_parent_eq_none {fuel : ℕ} (h : parent a = none) : walk parent fuel a = [] := by
  cases fuel with
  | zero => rfl
  | succ fuel => simp only [walk, h]

/-- The way up goes through the ancestors. -/
theorem mem_walk (hrank : ∀ {child up}, parent child = some up → rank up < rank child) {fuel : ℕ}
    (hfuel : rank b ≤ fuel) : a ∈ walk parent fuel b ↔ IsAncestor parent a b := by
  induction fuel generalizing b with
  | zero =>
    have hnone : parent b = none := by
      cases h : parent b with
      | none => rfl
      | some p => exact absurd (hrank h) (by omega)
    simp [walk, not_isAncestor_of_parent_eq_none hnone]
  | succ fuel ih =>
    cases h : parent b with
    | none => simp [walk_of_parent_eq_none h, not_isAncestor_of_parent_eq_none h]
    | some p =>
      have hlt := hrank h
      rw [walk_succ_of_parent h, List.mem_cons, ih (by omega), isAncestor_iff_of_parent h]

end Trezoa.Lib
