import Mathlib

/-!
# Ordered maps

The tree maps of the standard library, as the ordered maps of a program: what an insertion does to
the list of entries, up to their order.
-/

namespace Trezoa.Lib

open Std.TreeMap

/-- A map ordered by its keys. -/
abbrev OrdMap (κ β : Type) [Ord κ] := Std.TreeMap κ β compare

namespace OrdMap

variable {κ β : Type} [Ord κ]

/-- The values in the order of their keys. -/
def values (m : OrdMap κ β) : List β := m.toList.map Prod.snd

variable [Std.TransOrd κ] [Std.LawfulEqOrd κ] {m : OrdMap κ β} {k k' : κ} {v : β}

/-- The keys are those of the entries. -/
lemma mem_iff_exists_mem_toList : k ∈ m ↔ ∃ v, (k, v) ∈ m.toList := by
  rw [mem_iff_isSome_getElem?, Option.isSome_iff_exists]
  simp [mem_toList_iff_getElem?_eq_some]

/-- Keeping the entries of some keys. -/
lemma getElem?_filter (p : κ → Bool) :
    (m.filter fun k _ => p k)[k]? = if p k then m[k]? else none := by
  rw [Std.TreeMap.getElem?_filter]
  ext v
  rw [Option.pfilter_eq_some_iff]
  simp only [Std.TreeMap.getKey_eq]
  split <;> simp_all

variable [DecidableEq κ]

lemma getElem?_insert : (m.insert k v)[k']? = if k = k' then some v else m[k']? := by
  rw [Std.TreeMap.getElem?_insert]
  simp

lemma getElem?_erase : (m.erase k)[k']? = if k = k' then none else m[k']? := by
  rw [Std.TreeMap.getElem?_erase]
  simp

/-- A key that loses its entry, or has a new value. -/
lemma getElem?_eraseOrInsert (p : Prop) [Decidable p] :
    (if p then m.erase k else m.insert k v)[k']? =
      if k = k' then if p then none else some v else m[k']? := by
  by_cases hp : p
  · simp [if_pos hp, getElem?_erase]
  · simp [if_neg hp, getElem?_insert]

/-- A new key adds its entry. -/
theorem toList_insert_perm_of_notMem (h : k ∉ m) :
    (m.insert k v).toList.Perm ((k, v) :: m.toList) := by
  refine toList_insert_perm.trans (.cons _ ?_)
  rw [List.filter_eq_self.mpr]
  rintro ⟨k', v'⟩ hmem
  have hne : k ≠ k' := by
    rintro rfl
    exact h (mem_iff_exists_mem_toList.mpr ⟨v', hmem⟩)
  simpa using hne

/-- A key that is present has its entry replaced. -/
theorem toList_insert_perm_of_getElem? {v₀ : β} (h : m[k]? = some v₀) :
    ∃ rest, m.toList.Perm ((k, v₀) :: rest) ∧ (m.insert k v).toList.Perm ((k, v) :: rest) := by
  refine ⟨m.toList.filter fun e => ¬ (k == e.1), ?_, toList_insert_perm⟩
  have hsame : Std.TreeMap.Equiv (m.insert k v₀) m := by
    refine Std.TreeMap.Equiv.of_forall_constGet?_eq fun k' => ?_
    rw [getElem?_insert]
    split
    · next heq => rw [← heq, h]
    · rfl
  have hperm := toList_insert_perm (t := m) (k := k) (v := v₀)
  rwa [hsame.toList_eq] at hperm

end OrdMap
end Trezoa.Lib
