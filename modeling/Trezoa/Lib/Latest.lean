import Mathlib

/-!
# The latest of some versions

A reader of a list of versions sees some of their numbers, and takes the version with the greatest
number that it sees.

* `keepMax`, `foldl_keepMax`: a loop that keeps the greatest number and where it was found.
-/

namespace Trezoa.Lib

open List

section latest
variable {α : Type} {key : α → ℕ} {visible : ℕ → Prop} {l : List α} {a b : α}

/-- The version with the greatest number that is seen. -/
structure IsLatest (key : α → ℕ) (visible : ℕ → Prop) (l : List α) (a : α) : Prop where
  mem : a ∈ l
  seen : visible (key a)
  le : ∀ b ∈ l, visible (key b) → key b ≤ key a

/-- Versions with distinct numbers are told apart by them. -/
theorem isLatest_unique (hnodup : (l.map key).Nodup) (ha : IsLatest key visible l a)
    (hb : IsLatest key visible l b) : a = b :=
  inj_on_of_nodup_map hnodup ha.mem hb.mem
    (le_antisymm (hb.le a ha.mem ha.seen) (ha.le b hb.mem hb.seen))

/-- Versions that are not seen, or that a greater one that stays shadows, may go. -/
theorem isLatest_filter_iff {keep : α → Bool}
    (h : ∀ b ∈ l, visible (key b) → keep b = false →
      ∃ c ∈ l, keep c = true ∧ visible (key c) ∧ key b < key c) :
    IsLatest key visible (l.filter keep) a ↔ IsLatest key visible l a := by
  constructor
  · intro ha
    obtain ⟨hmem, -⟩ := mem_filter.mp ha.mem
    refine ⟨hmem, ha.seen, fun b hb hvisible => ?_⟩
    by_cases hkeep : keep b = true
    · exact ha.le b (mem_filter.mpr ⟨hb, hkeep⟩) hvisible
    · obtain ⟨c, hc, hkeep', hvisible', hlt⟩ := h b hb hvisible (by simpa using hkeep)
      exact (hlt.trans_le (ha.le c (mem_filter.mpr ⟨hc, hkeep'⟩) hvisible')).le
  intro ha
  refine ⟨mem_filter.mpr ⟨ha.mem, ?_⟩, ha.seen, fun b hb hvisible =>
    ha.le b (mem_of_mem_filter hb) hvisible⟩
  by_contra hkeep
  obtain ⟨c, hc, -, hvisible', hlt⟩ := h a ha.mem ha.seen (by simpa using hkeep)
  exact absurd (ha.le c hc hvisible') (by omega)

end latest

/-! ## A loop for the greatest number -/

section loop

/-- Keeps the place and the number of the greatest number so far, the first of them. -/
def keepMax (st : Option ℕ × ℕ) (item : ℕ × ℕ) : Option ℕ × ℕ :=
  if st.1.isNone || decide (st.2 < item.1) then (some item.2, item.1) else st

/-- What the loop has kept of the items: nothing, or the place of a greatest one. -/
def Kept (items : List (ℕ × ℕ)) (st : Option ℕ × ℕ) : Prop :=
  (st.1 = none ∧ items = []) ∨
    ∃ place, st.1 = some place ∧ (st.2, place) ∈ items ∧ ∀ item ∈ items, item.1 ≤ st.2

lemma Kept.step {items : List (ℕ × ℕ)} {st : Option ℕ × ℕ} (h : Kept items st) (item : ℕ × ℕ) :
    Kept (items ++ [item]) (keepMax st item) := by
  unfold keepMax
  rcases h with ⟨hnone, rfl⟩ | ⟨place, hplace, hmem, hle⟩
  · rw [if_pos (by simp [hnone])]
    exact .inr ⟨item.2, rfl, by simp, by simp⟩
  by_cases hlt : st.2 < item.1
  · rw [if_pos (by simp [hlt])]
    refine .inr ⟨item.2, rfl, by simp, fun item' hitem' => ?_⟩
    rcases mem_append.mp hitem' with hitem' | hitem'
    · exact (hle item' hitem').trans hlt.le
    · rw [mem_singleton.mp hitem']
  rw [if_neg (by simp [hplace, hlt])]
  refine .inr ⟨place, hplace, mem_append_left _ hmem, fun item' hitem' => ?_⟩
  rcases mem_append.mp hitem' with hitem' | hitem'
  · exact hle item' hitem'
  · rw [mem_singleton.mp hitem']
    omega

lemma foldl_keepMax {items : List (ℕ × ℕ)} {st : Option ℕ × ℕ} (h : Kept items st)
    (rest : List (ℕ × ℕ)) : Kept (items ++ rest) (rest.foldl keepMax st) := by
  induction rest generalizing items st with
  | nil =>
    rw [append_nil]
    exact h
  | cons item rest ih =>
    have := ih (h.step item)
    rw [append_assoc] at this
    exact this

end loop
end Trezoa.Lib
