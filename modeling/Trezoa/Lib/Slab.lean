import Trezoa.Lib.OrdMap

/-!
# Slabs

A slab keeps values under keys that it chooses itself. How it chooses them is a parameter
(`SlabAllocator`), with what the crate `slab` 0.4 documents as laws: the vacant key is free, below
the capacity as long as there is room, and neither an insertion with room nor a removal changes the
capacity. The free list of the crate has them.
-/

namespace Trezoa.Lib

open Std.TreeMap

namespace OrdMap

variable {κ β : Type} [Ord κ] [Std.TransOrd κ] [Std.LawfulEqOrd κ] [DecidableEq κ] {m : OrdMap κ β}
  {k k' : κ} {v : β}

/-- Erasing a key takes away its entry. -/
theorem toList_perm_erase (h : m[k]? = some v) : m.toList.Perm ((k, v) :: (m.erase k).toList) := by
  have hsame : Std.TreeMap.Equiv ((m.erase k).insert k v) m := by
    refine Std.TreeMap.Equiv.of_forall_constGet?_eq fun k' => ?_
    rw [getElem?_insert, getElem?_erase]
    split
    · next heq => rw [← heq, h]
    · rfl
  rw [← hsame.toList_eq]
  refine toList_insert_perm_of_notMem ?_
  rw [mem_iff_isSome_getElem?, getElem?_erase, if_pos rfl]
  exact Bool.false_ne_true

/-- The keys as a set. -/
def keySet (m : OrdMap κ β) : Finset κ := m.keys.toFinset

lemma mem_keySet : k ∈ keySet m ↔ k ∈ m := by
  rw [keySet, List.mem_toFinset, mem_keys]

omit [Std.LawfulEqOrd κ] in
lemma card_keySet : (keySet m).card = m.size := by
  rw [keySet, List.toFinset_card_of_nodup nodup_keys, length_keys]

lemma keySet_insert : keySet (m.insert k v) = insert k (keySet m) := by
  ext k'
  rw [mem_keySet, Finset.mem_insert, mem_keySet, mem_insert, Std.compare_eq_iff_eq, eq_comm]

lemma keySet_insert_of_mem (h : k ∈ m) : keySet (m.insert k v) = keySet m := by
  rw [keySet_insert, Finset.insert_eq_self.mpr (mem_keySet.mpr h)]

lemma keySet_erase : keySet (m.erase k) = (keySet m).erase k := by
  ext k'
  rw [mem_keySet, Finset.mem_erase, mem_keySet, mem_erase, ne_eq,
    Std.compare_eq_iff_eq, ne_eq, eq_comm]

end OrdMap

open OrdMap

/-- A way to choose keys. -/
structure SlabAllocator where
  State : Type
  withCapacity : ℕ → State
  capacity : State → ℕ
  vacantKey : State → ℕ
  occupy : State → State
  vacate : State → ℕ → State
  Valid : State → Finset ℕ → Prop
  valid_withCapacity : ∀ n, Valid (withCapacity n) ∅
  le_capacity_withCapacity : ∀ n, n ≤ capacity (withCapacity n)
  vacantKey_notMem : ∀ s keys, Valid s keys → vacantKey s ∉ keys
  vacantKey_lt : ∀ s keys, Valid s keys → keys.card < capacity s → vacantKey s < capacity s
  valid_occupy : ∀ s keys, Valid s keys → Valid (occupy s) (insert (vacantKey s) keys)
  capacity_occupy : ∀ s keys, Valid s keys → keys.card < capacity s →
    capacity (occupy s) = capacity s
  valid_vacate : ∀ s keys k, Valid s keys → k ∈ keys → Valid (vacate s k) (keys.erase k)
  capacity_vacate : ∀ s k, capacity (vacate s k) = capacity s

/-- Values under keys that the allocator chose. -/
structure Slab (A : SlabAllocator) (β : Type) where
  entries : OrdMap ℕ β
  allocator : A.State
  valid : A.Valid allocator (keySet entries)

namespace Slab

variable {A : SlabAllocator} {β : Type} {s s' : Slab A β} {k k' : ℕ} {v v' : β}

/-- A slab without values. -/
def withCapacity (n : ℕ) : Slab A β := ⟨∅, A.withCapacity n, A.valid_withCapacity n⟩

/-- The number of values. -/
def len (s : Slab A β) : ℕ := s.entries.size

/-- The number of values that there is space for. -/
def capacity (s : Slab A β) : ℕ := A.capacity s.allocator

/-- The key of the next value. -/
def vacantKey (s : Slab A β) : ℕ := A.vacantKey s.allocator

/-- The value under a key. -/
def get (s : Slab A β) (k : ℕ) : Option β := s.entries[k]?

/-- The slab with one more value. -/
def insert (s : Slab A β) (v : β) : Slab A β where
  entries := s.entries.insert s.vacantKey v
  allocator := A.occupy s.allocator
  valid := by
    rw [keySet_insert]
    exact A.valid_occupy _ _ s.valid

/-- The slab with another value under a key that is in use. -/
def set (s : Slab A β) (k : ℕ) (v : β) : Slab A β :=
  if h : k ∈ s.entries then
    ⟨s.entries.insert k v, s.allocator, by
      rw [keySet_insert_of_mem h]
      exact s.valid⟩
  else s

/-- The slab without a value; there must be one under the key. -/
def remove (s : Slab A β) (k : ℕ) : Option (Slab A β) :=
  if h : k ∈ s.entries then
    some ⟨s.entries.erase k, A.vacate s.allocator k, by
      rw [keySet_erase]
      exact A.valid_vacate _ _ _ s.valid (mem_keySet.mpr h)⟩
  else none

lemma vacantKey_notMem : s.vacantKey ∉ s.entries := fun h =>
  A.vacantKey_notMem _ _ s.valid (mem_keySet.mpr h)

lemma get_vacantKey : s.get s.vacantKey = none := getElem?_eq_none vacantKey_notMem

/-- The next key is below the capacity. -/
lemma vacantKey_lt (h : s.len < s.capacity) : s.vacantKey < s.capacity :=
  A.vacantKey_lt _ _ s.valid (by rwa [card_keySet])

/-- A slab with space does not grow. -/
lemma capacity_insert (h : s.len < s.capacity) : (s.insert v).capacity = s.capacity :=
  A.capacity_occupy _ _ s.valid (by rwa [card_keySet])

lemma get_insert : (s.insert v).get k = if s.vacantKey = k then some v else s.get k :=
  getElem?_insert

lemma toList_insert : (s.insert v).entries.toList.Perm ((s.vacantKey, v) :: s.entries.toList) :=
  toList_insert_perm_of_notMem vacantKey_notMem

lemma mem_of_get (h : s.get k = some v) : k ∈ s.entries := by
  rw [mem_iff_isSome_getElem?, show s.entries[k]? = some v from h]
  rfl

lemma capacity_set : (s.set k v).capacity = s.capacity := by
  unfold set
  split <;> rfl

lemma get_set (h : s.get k = some v) :
    (s.set k v').get k' = if k = k' then some v' else s.get k' := by
  rw [set, dif_pos (mem_of_get h)]
  exact getElem?_insert

lemma toList_set (v' : β) (h : s.get k = some v) :
    ∃ rest, s.entries.toList.Perm ((k, v) :: rest)
      ∧ (s.set k v').entries.toList.Perm ((k, v') :: rest) := by
  rw [set, dif_pos (mem_of_get h)]
  exact toList_insert_perm_of_getElem? h

/-- A value can be removed, and then the slab is without it. -/
lemma remove_of_get (h : s.get k = some v) : ∃ s', s.remove k = some s'
    ∧ s'.capacity = s.capacity ∧ s.entries.toList.Perm ((k, v) :: s'.entries.toList)
    ∧ ∀ k', s'.get k' = if k = k' then none else s.get k' :=
  ⟨_, dif_pos (mem_of_get h), A.capacity_vacate _ _, toList_perm_erase h, fun _ => getElem?_erase⟩

lemma len_eq_length_toList : s.len = s.entries.toList.length := length_toList.symm

end Slab

/-! ## The free list -/

/-- The keys that were vacated, the last one first, and the number of keys that were ever used. -/
structure FreeList where
  free : List ℕ
  used : ℕ
  capacity : ℕ

namespace FreeList

/-- The keys in use are those used so far that are not free. -/
structure Valid (s : FreeList) (keys : Finset ℕ) : Prop where
  nodup : s.free.Nodup
  mem_iff : ∀ k, k < s.used ↔ k ∈ keys ∨ k ∈ s.free
  disjoint : ∀ k ∈ s.free, k ∉ keys
  used_le : s.used ≤ s.capacity

/-- The key that was vacated last, or else the next one. -/
def vacantKey (s : FreeList) : ℕ := s.free.headD s.used

/-- The next key is in use. -/
def occupy (s : FreeList) : FreeList :=
  match s.free with
  | [] => ⟨[], s.used + 1, max s.capacity (s.used + 1)⟩
  | _ :: free => { s with free := free }

variable {s : FreeList} {keys : Finset ℕ}

section
variable (h : s.Valid keys)
include h

lemma Valid.vacantKey_notMem : s.vacantKey ∉ keys := by
  obtain ⟨free, used, capacity⟩ := s
  cases free with
  | nil => exact fun hmem => Nat.lt_irrefl used ((h.mem_iff used).mpr (.inl hmem))
  | cons k free => exact h.disjoint k (.head _)

lemma Valid.keys_eq (hfree : s.free = []) : keys = Finset.range s.used := by
  ext k
  rw [Finset.mem_range, h.mem_iff k, hfree]
  simp

lemma Valid.vacantKey_lt (hcard : keys.card < s.capacity) : s.vacantKey < s.capacity := by
  obtain ⟨free, used, capacity⟩ := s
  cases free with
  | nil =>
    rw [h.keys_eq rfl, Finset.card_range] at hcard
    exact hcard
  | cons k free => exact ((h.mem_iff k).mpr (.inr (.head _))).trans_le h.used_le

lemma Valid.occupy : s.occupy.Valid (insert s.vacantKey keys) := by
  obtain ⟨free, used, capacity⟩ := s
  cases free with
  | nil =>
    refine ⟨.nil, fun k => ?_, by simp [FreeList.occupy], le_max_right _ _⟩
    have hiff := h.mem_iff k
    simp only [FreeList.occupy, vacantKey, List.headD_nil, Finset.mem_insert, List.not_mem_nil,
      or_false] at hiff ⊢
    rw [Nat.lt_succ_iff_lt_or_eq, hiff, or_comm]
  | cons k₀ free =>
    obtain ⟨hk₀, hnodup⟩ := List.nodup_cons.mp h.nodup
    refine ⟨hnodup, fun k => ?_, fun k hk => ?_, h.used_le⟩
    · have hiff := h.mem_iff k
      simp only [FreeList.occupy, vacantKey, List.headD_cons, Finset.mem_insert,
        List.mem_cons] at hiff ⊢
      rw [hiff]
      tauto
    · rw [vacantKey, List.headD_cons, Finset.mem_insert, not_or]
      exact ⟨fun heq => hk₀ (heq ▸ hk), h.disjoint k (.tail _ hk)⟩

lemma Valid.capacity_occupy (hcard : keys.card < s.capacity) : s.occupy.capacity = s.capacity := by
  obtain ⟨free, used, capacity⟩ := s
  cases free with
  | nil =>
    rw [h.keys_eq rfl, Finset.card_range] at hcard
    exact max_eq_left hcard
  | cons k free => rfl

lemma Valid.vacate {k : ℕ} (hk : k ∈ keys) :
    Valid { s with free := k :: s.free } (keys.erase k) where
  nodup := List.nodup_cons.mpr ⟨fun hfree => h.disjoint k hfree hk, h.nodup⟩
  mem_iff k' := by
    rw [Finset.mem_erase, List.mem_cons, h.mem_iff k']
    by_cases heq : k' = k
    · simp [heq, hk]
    · simp [heq]
  disjoint k' hk' := by
    rw [Finset.mem_erase, not_and]
    rcases List.mem_cons.mp hk' with rfl | hk'
    · exact fun hne => absurd rfl hne
    · exact fun _ => h.disjoint k' hk'
  used_le := h.used_le

end
end FreeList

/-- The allocator with a free list. -/
def SlabAllocator.freeList : SlabAllocator where
  State := FreeList
  withCapacity n := ⟨[], 0, n⟩
  capacity := FreeList.capacity
  vacantKey := FreeList.vacantKey
  occupy := FreeList.occupy
  vacate s k := { s with free := k :: s.free }
  Valid := FreeList.Valid
  valid_withCapacity n := ⟨.nil, by simp, by simp, Nat.zero_le n⟩
  le_capacity_withCapacity := le_refl
  vacantKey_notMem _ _ h := h.vacantKey_notMem
  vacantKey_lt _ _ h := h.vacantKey_lt
  valid_occupy _ _ h := h.occupy
  capacity_occupy _ _ h := h.capacity_occupy
  valid_vacate _ _ _ h := h.vacate
  capacity_vacate _ _ := rfl

end Trezoa.Lib
