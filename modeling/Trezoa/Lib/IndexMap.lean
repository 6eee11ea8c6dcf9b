import Trezoa.Lib.Fallible

/-!
# Hash maps that keep an index

A map that stores its entries in a vector: a key has an index, a new key goes to the end, and a
removal moves the last entry to the place of the removed one, as the crate `indexmap` 2.13 documents
of `insert` and `swap_remove`.
-/

namespace Trezoa.Lib

open List

variable {α : Type}

/-! ## Removing by moving the last entry -/

/-- The vector without the entry at `index`, whose place the last entry takes. -/
def swapRemove (l : List α) (index : ℕ) : List α :=
  match l.getLast? with
  | none => []
  | some last => (l.set index last).dropLast

variable {l : List α} {index i : ℕ} {a : α}

/-- One element less. -/
lemma length_swapRemove : (swapRemove l index).length = l.length - 1 := by
  unfold swapRemove
  cases h : l.getLast? with
  | none => simp [getLast?_eq_none_iff.mp h]
  | some last => simp

/-- The last element moves to the gap. -/
lemma getElem?_swapRemove : (swapRemove l index)[i]? =
    if i + 1 < l.length then (if i = index then l[l.length - 1]? else l[i]?) else none := by
  unfold swapRemove
  cases h : l.getLast? with
  | none => simp [getLast?_eq_none_iff.mp h]
  | some last =>
    have hlast : l[l.length - 1]? = some last := by
      rw [← getLast?_eq_getElem?]
      exact h
    by_cases hi : i + 1 < l.length
    · rw [if_pos hi, getElem?_dropLast, if_pos (by rw [length_set]; omega), getElem?_set]
      by_cases heq : index = i
      · subst heq
        rw [if_pos rfl, if_pos (by omega), if_pos rfl, hlast]
      · rw [if_neg heq, if_neg (Ne.symm heq)]
    · rw [if_neg hi, getElem?_eq_none]
      rw [length_dropLast, length_set]
      omega

/-- Up to the order, the entry at the index is taken out. -/
lemma perm_cons_swapRemove (h : l[index]? = some a) : l.Perm (a :: swapRemove l index) := by
  obtain ⟨hindex, rfl⟩ := List.getElem?_eq_some_iff.mp h
  have hne : l ≠ [] := by
    rintro rfl
    simp at hindex
  have hcut : l = l.dropLast ++ [l.getLast hne] := (dropLast_append_getLast hne).symm
  have hswap : swapRemove l index = (l.set index (l.getLast hne)).dropLast := by
    rw [swapRemove, getLast?_eq_some_getLast hne]
  rw [hswap]
  by_cases hlast : index = l.length - 1
  · have hset : l.set index (l.getLast hne) = l := by
      rw [hlast, getLast_eq_getElem]
      exact set_getElem_self _
    rw [hset]
    have helem : l[index] = l.getLast hne := by
      rw [getLast_eq_getElem]
      simp [hlast]
    rw [helem]
    conv_lhs => rw [hcut]
    exact perm_append_singleton _ _
  have hlt : index < l.dropLast.length := by
    rw [length_dropLast]
    omega
  have hset : (l.set index (l.getLast hne)).dropLast = l.dropLast.set index (l.getLast hne) := by
    generalize l.getLast hne = last at hcut ⊢
    rw [hcut, set_append_left _ _ (by simpa using hlt)]
    simp
  have helem : l[index] = l.dropLast[index] := (getElem_dropLast hlt).symm
  rw [hset, helem]
  refine .trans ?_ ((set_perm_cons_eraseIdx hlt _).cons _).symm
  conv_lhs => rw [hcut]
  refine (perm_append_singleton _ _).trans ?_
  refine .trans (.cons _ (getElem_cons_eraseIdx_perm hlt).symm) ?_
  exact .swap _ _ _

/-! ## The map -/

/-- A map whose entries lie in a vector. -/
@[ext]
structure IndexMap (κ ν : Type) where
  /-- The entries, at their indices. -/
  entries : List (κ × ν)
  nodup : (entries.map Prod.fst).Nodup

namespace IndexMap

variable {κ ν : Type}

/-- No entries. -/
def empty : IndexMap κ ν := ⟨[], nodup_nil⟩

/-- The number of entries. -/
def len (m : IndexMap κ ν) : ℕ := m.entries.length

/-- The entry at an index. -/
def getIndex (m : IndexMap κ ν) (index : ℕ) : Option (κ × ν) := m.entries[index]?

variable {m : IndexMap κ ν} {k k' : κ} {v v' : ν} {i j : ℕ}

/-- A key has one index. -/
lemma getIndex_inj (hi : m.getIndex i = some (k, v)) (hj : m.getIndex j = some (k, v')) :
    i = j := by
  obtain ⟨hi, hik⟩ := List.getElem?_eq_some_iff.mp hi
  obtain ⟨hj, hjk⟩ := List.getElem?_eq_some_iff.mp hj
  have hkeys : (m.entries.map Prod.fst)[i]? = (m.entries.map Prod.fst)[j]? := by
    rw [getElem?_map, getElem?_map, getElem?_eq_getElem hi, getElem?_eq_getElem hj, hik, hjk]
    rfl
  exact (getElem?_inj (by simpa using hi) m.nodup).mp hkeys

/-- An index is below the length. -/
lemma getIndex_lt (h : m.getIndex i = some (k, v)) : i < m.len := lt_length h

/-- Below the length there is an entry. -/
lemma exists_getIndex (h : i < m.len) : ∃ k v, m.getIndex i = some (k, v) :=
  ⟨_, _, getElem?_eq_getElem h⟩

@[simp] lemma getIndex_empty : (empty : IndexMap κ ν).getIndex i = none := rfl

/-- The map with the value at an index changed. -/
def modifyIndex (m : IndexMap κ ν) (index : ℕ) (f : ν → ν) : IndexMap κ ν where
  entries := m.entries.modify index fun entry => (entry.1, f entry.2)
  nodup := by
    rw [show (m.entries.modify index fun entry => (entry.1, f entry.2)).map Prod.fst
      = m.entries.map Prod.fst from ?_]
    · exact m.nodup
    refine ext_getElem? fun i => ?_
    rw [getElem?_map, getElem?_map, getElem?_modify]
    by_cases h : index = i
    · subst h
      cases m.entries[index]? <;> simp
    · simp [h]

/-- Only the entry at the index changes. -/
lemma getIndex_modifyIndex (f : ν → ν) : (m.modifyIndex i f).getIndex j =
    if i = j then (m.getIndex j).map fun entry => (entry.1, f entry.2) else m.getIndex j := by
  simp only [getIndex, modifyIndex]
  rw [getElem?_modify]
  by_cases h : i = j
  · subst h
    cases m.entries[i]? <;> simp
  · simp [h]

/-- No entry is added. -/
lemma len_modifyIndex (f : ν → ν) : (m.modifyIndex i f).len = m.len := by
  simp [modifyIndex, len]

variable [DecidableEq κ]

/-- The index of a key. -/
def getIndexOf (m : IndexMap κ ν) (k : κ) : Option ℕ :=
  m.entries.findIdx? fun entry => entry.1 = k

/-- The index and the value of a key. -/
def getFull (m : IndexMap κ ν) (k : κ) : Option (ℕ × ν) :=
  (m.getIndexOf k).bind fun index => (m.getIndex index).map fun entry => (index, entry.2)

/-- The value of a key. -/
def get (m : IndexMap κ ν) (k : κ) : Option ν := (m.getFull k).map Prod.snd

/-- The index of a key is where its entry is. -/
lemma getIndexOf_eq_some : m.getIndexOf k = some i ↔ ∃ v, m.getIndex i = some (k, v) := by
  constructor
  · intro h
    obtain ⟨hlt, hk, -⟩ := findIdx?_eq_some_iff_getElem.mp h
    refine ⟨m.entries[i].2, ?_⟩
    rw [getIndex, getElem?_eq_getElem hlt, ← of_decide_eq_true hk]
  rintro ⟨v, hi⟩
  obtain ⟨hlt, heq⟩ := List.getElem?_eq_some_iff.mp hi
  refine findIdx?_eq_some_iff_getElem.mpr ⟨hlt, by simp [heq], fun j hj => ?_⟩
  have hne : m.entries[j].1 ≠ k := by
    rintro rfl
    exact hj.ne (getIndex_inj (getElem?_eq_getElem (hj.trans hlt)) hi)
  simpa using hne

/-- The entry of a key with its index. -/
lemma getFull_eq_some : m.getFull k = some (i, v) ↔ m.getIndex i = some (k, v) := by
  unfold getFull
  constructor
  · intro h
    obtain ⟨index, hindex, h⟩ := Option.bind_eq_some_iff.mp h
    obtain ⟨⟨k', v'⟩, hentry, heq⟩ := Option.map_eq_some_iff.mp h
    cases heq
    obtain ⟨v', hv'⟩ := getIndexOf_eq_some.mp hindex
    cases hv'.symm.trans hentry
    exact hentry
  · intro h
    rw [getIndexOf_eq_some.mpr ⟨v, h⟩, Option.bind_some, h]
    rfl

/-- A key that is nowhere. -/
lemma getFull_eq_none : m.getFull k = none ↔ ∀ i v, m.getIndex i ≠ some (k, v) := by
  rw [Option.eq_none_iff_forall_not_mem]
  constructor
  · intro h i v hi
    exact h (i, v) (getFull_eq_some.mpr hi)
  · rintro h ⟨i, v⟩ hmem
    exact h i v (getFull_eq_some.mp hmem)

/-- A value that is at some index. -/
lemma get_eq_some : m.get k = some v ↔ ∃ i, m.getIndex i = some (k, v) := by
  unfold get
  constructor
  · intro h
    obtain ⟨⟨i, v'⟩, hfull, rfl⟩ := Option.map_eq_some_iff.mp h
    exact ⟨i, getFull_eq_some.mp hfull⟩
  · rintro ⟨i, hi⟩
    rw [getFull_eq_some.mpr hi]
    rfl

lemma get_of_getFull (h : m.getFull k = some (i, v)) : m.get k = some v := by
  rw [get, h]
  rfl

lemma get_of_getFull_eq_none (h : m.getFull k = none) : m.get k = none := by
  rw [get, h]
  rfl

/-! ### Insertion -/

/-- The map with a new key at the end. -/
def append (m : IndexMap κ ν) (k : κ) (v : ν) (h : m.getFull k = none) : IndexMap κ ν where
  entries := m.entries ++ [(k, v)]
  nodup := by
    rw [map_append, map_singleton, nodup_append]
    refine ⟨m.nodup, nodup_singleton k, fun k₁ hk₁ k₂ hk₂ => ?_⟩
    rintro rfl
    obtain ⟨⟨k', v'⟩, hmem, rfl⟩ := mem_map.mp hk₁
    obtain ⟨i, hi⟩ := mem_iff_getElem?.mp hmem
    rw [mem_singleton] at hk₂
    subst hk₂
    exact getFull_eq_none.mp h i v' hi

/-- A key that is present gets the new value at its index; a new one goes to the end. -/
def insert (m : IndexMap κ ν) (k : κ) (v : ν) : IndexMap κ ν :=
  match h : m.getFull k with
  | none => m.append k v h
  | some (index, _) => m.modifyIndex index fun _ => v

/-- The new entry is the last one. -/
lemma getIndex_append (h : m.getFull k = none) :
    (m.append k v h).getIndex i = if i = m.len then some (k, v) else m.getIndex i := by
  change (m.entries ++ [(k, v)])[i]? = _
  rcases lt_trichotomy i m.len with hlt | rfl | hlt
  · rw [if_neg hlt.ne, getElem?_append_left hlt]
    rfl
  · rw [if_pos rfl]
    exact getElem?_concat_length
  · have hout : m.getIndex i = none := getElem?_eq_none hlt.le
    rw [if_neg hlt.ne', hout, getElem?_eq_none]
    rw [length_append, length_singleton]
    exact hlt

/-- A new key is appended. -/
lemma insert_of_none (h : m.getFull k = none) : m.insert k v = m.append k v h := by
  unfold insert
  split
  · rfl
  · rename_i heq
    cases h.symm.trans heq

/-- The value of an old key is replaced. -/
lemma insert_of_some (h : m.getFull k = some (i, v')) :
    m.insert k v = m.modifyIndex i fun _ => v := by
  unfold insert
  split
  · rename_i heq
    cases h.symm.trans heq
  · rename_i heq
    cases h.symm.trans heq
    rfl

/-- As a vector, after a new key. -/
lemma getIndex_insert_of_none (h : m.getFull k = none) :
    (m.insert k v).getIndex i = if i = m.len then some (k, v) else m.getIndex i := by
  rw [insert_of_none h, getIndex_append h]

/-- As a vector, after an old key. -/
lemma getIndex_insert_of_some (h : m.getFull k = some (j, v')) :
    (m.insert k v).getIndex i = if i = j then some (k, v) else m.getIndex i := by
  have hj := getFull_eq_some.mp h
  rw [insert_of_some h, getIndex_modifyIndex]
  by_cases heq : i = j
  · subst heq
    rw [if_pos rfl, if_pos rfl, hj]
    rfl
  · rw [if_neg heq, if_neg (Ne.symm heq)]

/-- As a map, insertion sets one key. -/
lemma get_insert : (m.insert k v).get k' = if k' = k then some v else m.get k' := by
  cases h : m.getFull k with
  | none =>
    by_cases heq : k' = k
    · subst heq
      rw [if_pos rfl, get_eq_some]
      exact ⟨m.len, by rw [getIndex_insert_of_none h, if_pos rfl]⟩
    rw [if_neg heq]
    ext w
    rw [get_eq_some, get_eq_some]
    simp only [getIndex_insert_of_none h]
    constructor
    · rintro ⟨i, hi⟩
      split at hi
      · cases hi
        exact absurd rfl heq
      · exact ⟨i, hi⟩
    · rintro ⟨i, hi⟩
      exact ⟨i, by rw [if_neg (getIndex_lt hi).ne, hi]⟩
  | some full =>
    obtain ⟨j, v'⟩ := full
    have hj := getFull_eq_some.mp h
    by_cases heq : k' = k
    · subst heq
      rw [if_pos rfl, get_eq_some]
      exact ⟨j, by rw [getIndex_insert_of_some h, if_pos rfl]⟩
    rw [if_neg heq]
    ext w
    rw [get_eq_some, get_eq_some]
    simp only [getIndex_insert_of_some h]
    constructor
    · rintro ⟨i, hi⟩
      split at hi
      · cases hi
        exact absurd rfl heq
      · exact ⟨i, hi⟩
    rintro ⟨i, hi⟩
    refine ⟨i, ?_⟩
    rw [if_neg, hi]
    rintro rfl
    cases hi.symm.trans hj
    exact heq rfl

/-! ### Removal -/

/-- The map without the entry at an index. -/
def swapRemoveIndex (m : IndexMap κ ν) (index : ℕ) : IndexMap κ ν where
  entries := match m.entries[index]? with
    | none => m.entries
    | some _ => Lib.swapRemove m.entries index
  nodup := by
    split
    · exact m.nodup
    · rename_i entry heq
      have hperm := (perm_cons_swapRemove heq).map Prod.fst
      exact (nodup_cons.mp (hperm.nodup_iff.mp m.nodup)).2

/-- The map without a key, whose index the last entry takes. -/
def swapRemove (m : IndexMap κ ν) (k : κ) : IndexMap κ ν :=
  match m.getIndexOf k with
  | none => m
  | some index => m.swapRemoveIndex index

section
variable (h : m.getIndex i = some (k, v))
include h

/-- The entries are those of the vector. -/
lemma entries_swapRemove : (m.swapRemove k).entries = Lib.swapRemove m.entries i := by
  have hentry : m.entries[i]? = some (k, v) := h
  rw [swapRemove, getIndexOf_eq_some.mpr ⟨v, h⟩]
  simp [swapRemoveIndex, hentry]

lemma len_swapRemove : (m.swapRemove k).len = m.len - 1 := by
  rw [len, entries_swapRemove h, length_swapRemove]
  rfl

/-- As a vector, after a removal. -/
lemma getIndex_swapRemove : (m.swapRemove k).getIndex j =
    if j + 1 < m.len then (if j = i then m.getIndex (m.len - 1) else m.getIndex j) else none := by
  rw [getIndex, entries_swapRemove h, getElem?_swapRemove]
  rfl

end

/-- A key that is not there is not removed. -/
lemma swapRemove_of_none (h : m.getFull k = none) : m.swapRemove k = m := by
  unfold swapRemove
  cases hindex : m.getIndexOf k with
  | none => rfl
  | some index =>
    obtain ⟨v, hv⟩ := getIndexOf_eq_some.mp hindex
    exact absurd hv (getFull_eq_none.mp h index v)

lemma get_eq_some_iff_mem : m.get k = some v ↔ (k, v) ∈ m.entries := by
  rw [get_eq_some, mem_iff_getElem?]
  rfl

/-- As a map, removal clears one key. -/
lemma get_swapRemove : (m.swapRemove k).get k' = if k' = k then none else m.get k' := by
  cases hfull : m.getFull k with
  | none =>
    rw [swapRemove_of_none hfull]
    split_ifs with heq
    · rw [heq, get_of_getFull_eq_none hfull]
    · rfl
  | some full =>
    obtain ⟨i, v⟩ := full
    have hi := getFull_eq_some.mp hfull
    have hperm := perm_cons_swapRemove (l := m.entries) hi
    rw [← entries_swapRemove hi] at hperm
    have hnodup := (hperm.map Prod.fst).nodup_iff.mp m.nodup
    rw [map_cons, nodup_cons] at hnodup
    ext w
    rw [get_eq_some_iff_mem]
    by_cases heq : k' = k
    · subst heq
      simp only [if_pos, reduceCtorEq, iff_false]
      exact fun hmem => hnodup.1 (mem_map.mpr ⟨(k', w), hmem, rfl⟩)
    · rw [if_neg heq, get_eq_some_iff_mem, hperm.mem_iff, mem_cons]
      simp [heq]

/-! ### The keys -/

omit [DecidableEq κ] in
/-- The keys at their indices. -/
def keys (m : IndexMap κ ν) : List κ := m.entries.map Prod.fst

/-- The keys are those with a value. -/
lemma mem_keys : k ∈ m.keys ↔ ∃ v, m.get k = some v := by
  simp [get_eq_some_iff_mem, keys]

lemma mem_keys_insert : k' ∈ (m.insert k v).keys ↔ k' = k ∨ k' ∈ m.keys := by
  simp only [mem_keys, get_insert]
  by_cases h : k' = k <;> simp [h]

lemma mem_keys_swapRemove : k' ∈ (m.swapRemove k).keys ↔ k' ≠ k ∧ k' ∈ m.keys := by
  simp only [mem_keys, get_swapRemove]
  by_cases h : k' = k <;> simp [h]

end IndexMap

/-- A set whose elements have indices. -/
abbrev IndexSet (κ : Type) := IndexMap κ Unit

/-! ## Indices over a vector -/

/-- The set holds exactly the positions of the entries with a property. -/
def Marks {ε : Type} (entries : ℕ → Option ε) (q : ε → Prop) (set : ℕ → Prop) : Prop :=
  ∀ i, set i ↔ ∃ e, entries i = some e ∧ q e

namespace Marks

variable {ε : Type} {entries : ℕ → Option ε} {q : ε → Prop} {set set' : ℕ → Prop} {e : ε} {k : ℕ}

/-- The set after the entry at one position changed. -/
lemma update (h : Marks entries q set) (x : Option ε)
    (hset : ∀ i, set' i ↔ if i = k then ∃ e, x = some e ∧ q e else set i) :
    Marks (Function.update entries k x) q set' := by
  intro i
  rw [hset i]
  by_cases heq : i = k
  · subst heq
    rw [if_pos rfl, Function.update_self]
  · rw [if_neg heq, Function.update_of_ne heq, h i]

lemma iff_of_eq_some (h : Marks entries q set) (he : entries k = some e) : set k ↔ q e := by
  rw [h k, he]
  simp

lemma not_of_eq_none (h : Marks entries q set) (he : entries k = none) : ¬ set k := by
  rw [h k, he]
  simp

end Marks
end Trezoa.Lib
