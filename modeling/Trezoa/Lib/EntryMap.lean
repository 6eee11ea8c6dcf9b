import Mathlib

/-!
# Maps with default entries

A map that is only read and written through entries with a default value, as a hash map is through
`entry(k).or_default()`: a key that is absent and a key with the default value cannot be told apart.
It is a function that has the default value outside a finite list of keys.

* `EntryMap.length_run_le`: a run of consecutive keys with other values is no longer than the list
  of keys. It bounds a loop that walks up the keys until it meets a default entry.
-/

namespace Trezoa.Lib

variable {κ β : Type*} [Inhabited β]

/-- A function with the default value outside a finite list of keys. -/
structure EntryMap (κ β : Type*) [Inhabited β] where
  /-- The value of every key. -/
  get : κ → β
  /-- The keys that were written. -/
  keys : List κ
  /-- Every other key has the default value. -/
  get_of_not_mem : ∀ k, k ∉ keys → get k = default

namespace EntryMap

/-- The map without entries. -/
def empty : EntryMap κ β where
  get _ := default
  keys := []
  get_of_not_mem _ _ := rfl

/-- Apply `f` to the entry of `k`. -/
def modify [DecidableEq κ] (m : EntryMap κ β) (k : κ) (f : β → β) : EntryMap κ β where
  get := Function.update m.get k (f (m.get k))
  keys := m.keys.insert k
  get_of_not_mem k' hk' := by
    rw [List.mem_insert_iff, not_or] at hk'
    rw [Function.update_of_ne hk'.1]
    exact m.get_of_not_mem k' hk'.2

/-- Keep the entries of the keys with `p`. -/
def retain (m : EntryMap κ β) (p : κ → Bool) : EntryMap κ β where
  get k := if p k then m.get k else default
  keys := m.keys.filter p
  get_of_not_mem k hk := by
    split
    · next hp => exact m.get_of_not_mem k fun hmem => hk (List.mem_filter.mpr ⟨hmem, hp⟩)
    · rfl

variable {m : EntryMap κ β} {k k' : κ} {f : β → β} {p : κ → Bool}

@[simp] lemma get_empty : (empty : EntryMap κ β).get k = default := rfl

lemma get_modify [DecidableEq κ] :
    (m.modify k f).get k' = if k' = k then f (m.get k) else m.get k' :=
  Function.update_apply m.get k _ k'

lemma get_retain (h : p k = true) : (m.retain p).get k = m.get k := if_pos h

/-- A run of consecutive keys whose entries are not the default is no longer than the list of
keys. -/
theorem length_run_le {m : EntryMap ℕ β} {a n : ℕ} (h : ∀ i < n, m.get (a + i) ≠ default) :
    n ≤ m.keys.length := by
  have hsub : List.range' a n ⊆ m.keys := by
    intro k hk
    obtain ⟨i, hi, rfl⟩ := List.mem_range'.mp hk
    rw [one_mul]
    by_contra hnot
    exact h i hi (m.get_of_not_mem _ hnot)
  have := (List.subperm_of_subset List.nodup_range' hsub).length_le
  rwa [List.length_range'] at this

end EntryMap
end Trezoa.Lib
