import Mathlib

/-!
# Insertion in the order of a key

`insertBy f x l` inserts `x` into a list that ascends in the key `f`, after every entry with a key
that is not larger. It models an ordered map or a priority queue kept as the list of its entries.
-/

namespace Trezoa.Lib

open List

variable {α : Type*} (f : α → ℕ)

/-- Insert `x` into a list that ascends in `f`. -/
def insertBy (x : α) (l : List α) : List α :=
  l.orderedInsert (fun a b => f a < f b) x

@[simp] lemma mem_insertBy {x y : α} {l : List α} : y ∈ insertBy f x l ↔ y = x ∨ y ∈ l := by
  simp [insertBy]

lemma insertBy_perm (x : α) (l : List α) : (insertBy f x l).Perm (x :: l) :=
  perm_orderedInsert _ x l

lemma insertBy_ne_nil (x : α) (l : List α) : insertBy f x l ≠ [] := by
  intro h
  have := (insertBy_perm f x l).length_eq
  simp [h] at this

/-- A list that ascends in `f` stays so. -/
lemma pairwise_le_insertBy {x : α} {l : List α} (hl : l.Pairwise fun a b => f a ≤ f b) :
    (insertBy f x l).Pairwise fun a b => f a ≤ f b := by
  induction l with
  | nil => simp [insertBy]
  | cons y l ih =>
    obtain ⟨hy, hl⟩ := pairwise_cons.mp hl
    by_cases hxy : f x < f y
    · simp only [insertBy, orderedInsert_cons, if_pos hxy, pairwise_cons]
      refine ⟨?_, hy, hl⟩
      intro z hz
      rcases mem_cons.mp hz with rfl | hz
      · exact hxy.le
      · exact hxy.le.trans (hy z hz)
    simp only [insertBy, orderedInsert_cons, if_neg hxy, pairwise_cons]
    refine ⟨?_, ih hl⟩
    intro z hz
    rcases (mem_insertBy f).mp hz with rfl | hz
    · exact not_lt.mp hxy
    · exact hy z hz

/-- A strictly ascending list stays so when a new value of `f` is inserted. -/
lemma pairwise_insertBy {x : α} {l : List α} (hl : l.Pairwise fun a b => f a < f b)
    (hx : ∀ y ∈ l, f y ≠ f x) : (insertBy f x l).Pairwise fun a b => f a < f b := by
  have hle := @pairwise_le_insertBy _ f x l (hl.imp le_of_lt)
  have hne : (insertBy f x l).Pairwise fun a b => f a ≠ f b := by
    rw [(insertBy_perm f x l).pairwise_iff Ne.symm, pairwise_cons]
    exact ⟨fun y hy => (hx y hy).symm, hl.imp ne_of_lt⟩
  exact (hle.and hne).imp fun h => lt_of_le_of_ne h.1 h.2

/-- The place of `x` is between the smaller and the larger values. -/
lemma insertBy_append {x : α} {l₁ l₂ : List α} (h₁ : ∀ y ∈ l₁, f y < f x)
    (h₂ : ∀ y ∈ l₂, f x < f y) : insertBy f x (l₁ ++ l₂) = l₁ ++ x :: l₂ := by
  induction l₁ with
  | nil =>
    cases l₂ with
    | nil => rfl
    | cons y l => simp [insertBy, h₂ y (.head _)]
  | cons y l ih =>
    have hy : ¬ f x < f y := not_lt.mpr (h₁ y (.head _)).le
    simp only [insertBy, cons_append, orderedInsert_cons, if_neg hy]
    rw [← ih fun z hz => h₁ z (.tail _ hz)]
    rfl

lemma insertBy_of_forall_lt {x : α} {l : List α} (h : ∀ y ∈ l, f x < f y) :
    insertBy f x l = x :: l := by
  have hnil : ∀ y ∈ ([] : List α), f y < f x := by simp
  exact insertBy_append f hnil h

lemma insertBy_of_forall_gt {x : α} {l : List α} (h : ∀ y ∈ l, f y < f x) :
    insertBy f x l = l ++ [x] := by
  have hnil : ∀ y ∈ ([] : List α), f x < f y := by simp
  have := insertBy_append f h hnil
  rwa [append_nil] at this

/-- Insertion commutes with a map that keeps the values of `f`. -/
lemma map_insertBy {β : Type*} (g : β → α) (x : β) (l : List β) :
    (insertBy (f ∘ g) x l).map g = insertBy f (g x) (l.map g) := by
  induction l with
  | nil => rfl
  | cons y l ih =>
    simp only [insertBy, Function.comp_apply, orderedInsert_cons, map_cons] at ih ⊢
    split_ifs
    · rfl
    · rw [map_cons, ih]

end Trezoa.Lib
