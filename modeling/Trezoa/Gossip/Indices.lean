import Trezoa.Gossip.CrdsSteps

/-!
# The indices over the gossip table

The four kinds of indices, each against the entries of the table by position, an entry being an
ordinal and a value: what is noted for a new entry, one that is replaced, one that is removed and
one that moves to the place of a removed one.
-/

namespace Trezoa.Gossip

open Lib Function OrdMap IndexMap

/-! ## Indices by ordinal -/

/-- The map holds the position of each ordinal of an entry with the property. -/
def OrdinalIndex (p : CrdsValue → Bool) (m : OrdMap ℕ ℕ) (f : ℕ → Option (ℕ × CrdsValue)) : Prop :=
  ∀ o, Marks f (fun e => e.1 = o ∧ p e.2 = true) fun i => m[o]? = some i

namespace OrdinalIndex

variable {p : CrdsValue → Bool} {m : OrdMap ℕ ℕ} {f : ℕ → Option (ℕ × CrdsValue)} {k n o o' : ℕ}
  {v w : CrdsValue}

section
variable (h : OrdinalIndex p m f)
include h

/-- No entry has an ordinal that is not taken. -/
lemma getElem?_eq_none (ho : ∀ i v, f i ≠ some (o, v)) : m[o]? = none := by
  rw [Option.eq_none_iff_forall_not_mem]
  intro i hi
  obtain ⟨⟨o', v⟩, hv, rfl, -⟩ := (h o i).mp hi
  exact ho i v hv

/-- A new entry under a new ordinal. -/
lemma added (hk : f k = none) (ho : ∀ i v, f i ≠ some (o, v)) :
    OrdinalIndex p (if p v then m.insert o k else m) (update f k (some (o, v))) := by
  intro o'
  refine (h o').update _ fun i => ?_
  have hnot := (h o').not_of_eq_none hk
  have hnone := h.getElem?_eq_none ho
  cases hp : p v with
  | false =>
    by_cases hi : i = k
    · subst hi
      simpa [hp] using hnot
    · simp [hi]
  | true =>
    simp only [if_true, getElem?_insert]
    by_cases hi : i = k
    · subst hi
      by_cases ho' : o = o'
      · simp [ho', hp]
      · simpa [ho'] using hnot
    · by_cases ho' : o = o'
      · subst ho'
        simp [hi, hnone, Ne.symm hi]
      · simp [hi, ho']

/-- The entry at a position is taken out. -/
lemma removed (hk : f k = some (o, v)) (hinj : ∀ i w, f i = some (o, w) → i = k) :
    OrdinalIndex p (if p v then m.erase o else m) (update f k none) := by
  intro o₁
  refine (h o₁).update _ fun i => ?_
  have hiff := (h o₁).iff_of_eq_some hk
  cases hv : p v with
  | false =>
    by_cases hi : i = k
    · subst hi
      simpa [hv] using hiff
    · simp [hi]
  | true =>
    simp only [if_true, getElem?_erase]
    by_cases ho₁ : o = o₁
    · subst ho₁
      by_cases hi : i = k
      · simp [hi]
      have hnot : m[o]? ≠ some i := by
        intro hsome
        obtain ⟨⟨o', w⟩, hw, rfl, -⟩ := (h o i).mp hsome
        exact hi (hinj i w hw)
      simp [hnot]
    · by_cases hi : i = k
      · subst hi
        simpa [ho₁] using hiff
      · simp [hi, ho₁]

/-- An entry of the same kind under a new ordinal, in the place of another one. -/
lemma replaced (hk : f k = some (o', w)) (hp : p v = p w)
    (hinj : ∀ i w, f i = some (o', w) → i = k) (ho : ∀ i v, f i ≠ some (o, v)) :
    OrdinalIndex p (if p v then (m.erase o').insert o k else m) (update f k (some (o, v))) := by
  have hadded := (h.removed hk hinj).added (k := k) (o := o) (v := v) (update_self ..) (by
    intro i u hu
    by_cases hi : i = k
    · rw [hi, update_self] at hu
      cases hu
    · rw [update_of_ne hi] at hu
      exact ho i u hu)
  rw [update_idem] at hadded
  cases hv : p v with
  | false => simpa [hv, hp.symm.trans hv] using hadded
  | true => simpa [hv, hp.symm.trans hv] using hadded

/-- The entry at one position moves to an empty one. -/
lemma moved (hk : f k = none) (hn : f n = some (o, v)) (hinj : ∀ i w, f i = some (o, w) → i = n) :
    OrdinalIndex p (if p v then m.insert o k else m)
      (update (update f n none) k (some (o, v))) := by
  have hcleared := h.removed hn hinj
  have hnk : n ≠ k := by
    rintro rfl
    cases hk.symm.trans hn
  have hadded := hcleared.added (k := k) (o := o) (v := v)
    (by rw [update_of_ne hnk.symm, hk]) (by
      intro i w hw
      by_cases hi : i = n
      · rw [hi, update_self] at hw
        cases hw
      · rw [update_of_ne hi] at hw
        exact hi (hinj i w hw))
  intro o₁ i
  rw [← hadded o₁ i]
  cases hv : p v with
  | false => simp
  | true =>
    simp only [if_true, getElem?_insert, getElem?_erase]
    by_cases ho₁ : o = o₁ <;> simp [ho₁]

end
end OrdinalIndex

/-! ## Sets of positions -/

/-- The set holds the positions of the entries with the property. -/
def PositionSet (p : CrdsValue → Bool) (s : IndexSet ℕ) (f : ℕ → Option (ℕ × CrdsValue)) : Prop :=
  Marks f (fun e => p e.2 = true) fun i => i ∈ s.keys

namespace PositionSet

variable {p : CrdsValue → Bool} {s : IndexSet ℕ} {f : ℕ → Option (ℕ × CrdsValue)} {k n o o' : ℕ}
  {v w : CrdsValue}

section
variable (h : PositionSet p s f)
include h

lemma added (hk : f k = none) :
    PositionSet p (if p v then s.insert k () else s) (update f k (some (o, v))) := by
  refine h.update _ fun i => ?_
  have hnot := h.not_of_eq_none hk
  cases hp : p v with
  | false =>
    by_cases hi : i = k
    · subst hi
      simpa [hp] using hnot
    · simp [hi]
  | true =>
    simp only [if_true, mem_keys_insert]
    by_cases hi : i = k
    · simp [hi, hp]
    · simp [hi]

lemma replaced (hk : f k = some (o', w)) (hp : p v = p w) :
    PositionSet p s (update f k (some (o, v))) := by
  refine h.update _ fun i => ?_
  have hiff := h.iff_of_eq_some hk
  by_cases hi : i = k
  · subst hi
    simpa [hp] using hiff
  · simp [hi]

lemma removed (hk : f k = some (o, v)) :
    PositionSet p (if p v then s.swapRemove k else s) (update f k none) := by
  refine h.update _ fun i => ?_
  have hiff := h.iff_of_eq_some hk
  cases hp : p v with
  | false =>
    by_cases hi : i = k
    · subst hi
      simpa [hp] using hiff
    · simp [hi]
  | true =>
    simp only [if_true, mem_keys_swapRemove]
    by_cases hi : i = k <;> simp

lemma moved (hk : f k = none) (hn : f n = some (o, v)) :
    PositionSet p (if p v then (s.swapRemove n).insert k () else s)
      (update (update f n none) k (some (o, v))) := by
  have hnk : n ≠ k := by
    rintro rfl
    cases hk.symm.trans hn
  have hadded := (h.removed hn).added (k := k) (o := o) (v := v) (by rw [update_of_ne hnk.symm, hk])
  cases hv : p v with
  | false => simpa [hv] using hadded
  | true => simpa [hv] using hadded

end
end PositionSet

/-! ## Records -/

/-- A position is in the records of a pubkey. -/
def InRecords (records : OrdMap ℕ (IndexSet ℕ)) (pubkey i : ℕ) : Prop :=
  ∃ s : IndexSet ℕ, records[pubkey]? = some s ∧ i ∈ s.keys

/-- The records hold the positions of the entries of each pubkey that has one. -/
structure RecordIndex (records : OrdMap ℕ (IndexSet ℕ)) (f : ℕ → Option (ℕ × CrdsValue)) :
    Prop where
  marks : ∀ pubkey, Marks f (fun e => e.2.pubkey = pubkey) (InRecords records pubkey)
  nonempty : ∀ (pubkey : ℕ) (s : IndexSet ℕ), records[pubkey]? = some s → s.keys ≠ []

namespace RecordIndex

variable {records : OrdMap ℕ (IndexSet ℕ)} {f : ℕ → Option (ℕ × CrdsValue)} {k n o o' : ℕ}
  {v w : CrdsValue} {s : IndexSet ℕ}

/-- The pubkey of an entry has records. -/
lemma exists_records (h : RecordIndex records f) (hk : f k = some (o, v)) :
    ∃ s : IndexSet ℕ, records[v.pubkey]? = some s ∧ k ∈ s.keys :=
  ((h.marks v.pubkey).iff_of_eq_some hk).mpr rfl

lemma inRecords_insert {pubkey pubkey' i : ℕ} : InRecords (records.insert pubkey s) pubkey' i ↔
    if pubkey' = pubkey then i ∈ s.keys else InRecords records pubkey' i := by
  unfold InRecords
  simp only [getElem?_insert]
  by_cases heq : pubkey' = pubkey
  · subst heq
    simp
  · simp [heq, Ne.symm heq]

lemma inRecords_erase {pubkey pubkey' i : ℕ} : InRecords (records.erase pubkey) pubkey' i ↔
    pubkey' ≠ pubkey ∧ InRecords records pubkey' i := by
  unfold InRecords
  simp only [getElem?_erase]
  by_cases heq : pubkey' = pubkey
  · subst heq
    simp
  · simp [heq, Ne.symm heq]

/-- Where a pubkey has no records, the default is as good. -/
lemma mem_getD {pubkey i : ℕ} :
    i ∈ (records[pubkey]?.getD .empty).keys ↔ InRecords records pubkey i := by
  unfold InRecords
  cases records[pubkey]? with
  | none => simp [keys, empty]
  | some s => simp

section
variable (h : RecordIndex records f)
include h

lemma added (hk : f k = none) :
    RecordIndex (records.insert v.pubkey ((records[v.pubkey]?.getD .empty).insert k ()))
      (update f k (some (o, v))) where
  marks pubkey := by
    refine (h.marks pubkey).update _ fun i => ?_
    have hnot := (h.marks pubkey).not_of_eq_none hk
    rw [inRecords_insert, mem_keys_insert, mem_getD]
    by_cases hi : i = k
    · subst hi
      by_cases heq : pubkey = v.pubkey
      · simp [heq]
      · simp [heq, Ne.symm heq, hnot]
    · by_cases heq : pubkey = v.pubkey <;> simp [heq, hi]
  nonempty pubkey s hs := by
    rw [getElem?_insert] at hs
    split at hs
    · cases hs
      exact List.ne_nil_of_mem (mem_keys_insert.mpr (.inl rfl))
    · exact h.nonempty pubkey s hs

lemma replaced (hk : f k = some (o', w)) (hp : v.pubkey = w.pubkey) :
    RecordIndex records (update f k (some (o, v))) where
  marks pubkey := by
    refine (h.marks pubkey).update _ fun i => ?_
    have hiff := (h.marks pubkey).iff_of_eq_some hk
    by_cases hi : i = k
    · subst hi
      simpa [hp] using hiff
    · simp [hi]
  nonempty := h.nonempty

/-- The record of a removed entry. -/
lemma removed (hk : f k = some (o, v)) (hs : records[v.pubkey]? = some s) :
    RecordIndex (if (s.swapRemove k).len = 0 then records.erase v.pubkey
      else records.insert v.pubkey (s.swapRemove k)) (update f k none) where
  marks pubkey := by
    refine (h.marks pubkey).update _ fun i => ?_
    have hiff := (h.marks pubkey).iff_of_eq_some hk
    have hin : InRecords records v.pubkey i ↔ i ∈ s.keys := by
      simp [InRecords, hs]
    have hset : InRecords (if (s.swapRemove k).len = 0 then records.erase v.pubkey
        else records.insert v.pubkey (s.swapRemove k)) pubkey i
        ↔ InRecords records pubkey i ∧ ¬ (i = k ∧ pubkey = v.pubkey) := by
      by_cases hempty : (s.swapRemove k).len = 0
      · rw [if_pos hempty, inRecords_erase]
        by_cases heq : pubkey = v.pubkey
        · subst heq
          have hnil : (s.swapRemove k).keys = [] :=
            List.map_eq_nil_iff.mpr (List.length_eq_zero_iff.mp hempty)
          have hgone : i ∈ s.keys → i = k := by
            intro hi
            by_contra hne
            have := mem_keys_swapRemove.mpr ⟨hne, hi⟩
            rw [hnil] at this
            cases this
          simpa [hin] using hgone
        · simp [heq]
      rw [if_neg hempty, inRecords_insert, mem_keys_swapRemove]
      by_cases heq : pubkey = v.pubkey
      · subst heq
        simp [hin, and_comm]
      · simp [heq]
    rw [hset]
    by_cases hi : i = k
    · subst hi
      simp only [hiff]
      simp
      exact fun heq => heq.symm
    · simp [hi]
  nonempty pubkey s' hs' := by
    rw [getElem?_eraseOrInsert] at hs'
    split_ifs at hs' with _ hempty
    · cases hs'
      intro hnil
      exact hempty (List.length_eq_zero_iff.mpr (List.map_eq_nil_iff.mp hnil))
    · exact h.nonempty pubkey s' hs'

/-- The record of an entry that moves to an empty position. -/
lemma moved (hk : f k = none) (hn : f n = some (o, v)) (hs : records[v.pubkey]? = some s) :
    RecordIndex (records.insert v.pubkey ((s.swapRemove n).insert k ()))
      (update (update f n none) k (some (o, v))) where
  marks pubkey := by
    have hnk : n ≠ k := by
      rintro rfl
      cases hk.symm.trans hn
    have hcleared : Marks (update f n none) (fun e => e.2.pubkey = pubkey)
        fun i => InRecords records pubkey i ∧ i ≠ n := by
      refine (h.marks pubkey).update _ fun i => ?_
      by_cases hi : i = n <;> simp [hi]
    refine hcleared.update _ fun i => ?_
    have hin : InRecords records v.pubkey i ↔ i ∈ s.keys := by
      simp [InRecords, hs]
    have hnot := (h.marks pubkey).not_of_eq_none hk
    rw [inRecords_insert, mem_keys_insert, mem_keys_swapRemove]
    by_cases heq : pubkey = v.pubkey
    · subst heq
      by_cases hi : i = k
      · simp [hi]
      · simp [hi, hin, and_comm]
    by_cases hi : i = k
    · subst hi
      simp [heq, Ne.symm heq, hnot]
    by_cases hin' : i = n
    · subst hin'
      simp [heq, hi]
      rw [(h.marks pubkey).iff_of_eq_some hn]
      exact fun h => heq h.symm
    · simp [heq, hi, hin']
  nonempty pubkey s' hs' := by
    rw [getElem?_insert] at hs'
    split at hs'
    · cases hs'
      exact List.ne_nil_of_mem (mem_keys_insert.mpr (.inl rfl))
    · exact h.nonempty pubkey s' hs'

end
end RecordIndex

/-! ## Shards -/

/-- Each shard holds the positions of the entries with its bits, with their hashes. -/
structure ShardIndex (s : CrdsShards) (f : ℕ → Option (ℕ × CrdsValue)) : Prop where
  shardBits : s.shardBits = crdsShardsBits
  marks : ∀ shard hash, Marks f
    (fun e => hash = hashAsU64 e.2.hash ∧ shard = hashAsU64 e.2.hash >>> (64 - crdsShardsBits))
    fun i => s.Holds shard i hash

namespace ShardIndex

variable {s s' s'' : CrdsShards} {f : ℕ → Option (ℕ × CrdsValue)} {k n : ℕ}
  {v w : VersionedCrdsValue}

lemma added (h : ShardIndex s f) (hk : f k = none) (hs : s.insert k v = .ok s') :
    ShardIndex s' (update f k (some (v.ordinal, v.value))) := by
  obtain ⟨s₁, hs₁, hbits, hholds⟩ := CrdsShards.insert_returns h.shardBits k v
  cases hs₁.symm.trans hs
  refine ⟨hbits, fun shard hash => (h.marks shard hash).update _ fun i => ?_⟩
  have hnot := (h.marks shard hash).not_of_eq_none hk
  rw [hholds]
  by_cases hi : i = k
  · subst hi
    by_cases hshard : shard = hashAsU64 v.value.hash >>> (64 - crdsShardsBits)
    · simp [hshard]
    · simpa [hshard] using hnot
  · simp [hi]

lemma removed (h : ShardIndex s f) (hk : f k = some (v.ordinal, v.value))
    (hs : s.remove k v = .ok s') : ShardIndex s' (update f k none) := by
  obtain ⟨s₁, hs₁, hbits, hholds⟩ := CrdsShards.remove_returns h.shardBits k v
  cases hs₁.symm.trans hs
  refine ⟨hbits, fun shard hash => (h.marks shard hash).update _ fun i => ?_⟩
  have hiff := (h.marks shard hash).iff_of_eq_some hk
  rw [hholds]
  by_cases hi : i = k
  · subst hi
    simp only [hiff]
    simp
  · simp [hi]

lemma replaced (h : ShardIndex s f) (hk : f k = some (w.ordinal, w.value))
    (hs : s.remove k w = .ok s') (hs' : s'.insert k v = .ok s'') :
    ShardIndex s'' (update f k (some (v.ordinal, v.value))) := by
  have hadded := (h.removed hk hs).added (update_self ..) hs'
  rwa [update_idem] at hadded

lemma moved (h : ShardIndex s f) (hk : f k = none) (hn : f n = some (v.ordinal, v.value))
    (hs : s.remove n v = .ok s') (hs' : s'.insert k v = .ok s'') :
    ShardIndex s'' (update (update f n none) k (some (v.ordinal, v.value))) := by
  have hnk : n ≠ k := by
    rintro rfl
    cases hk.symm.trans hn
  exact (h.removed hn hs).added (by rw [update_of_ne hnk.symm, hk]) hs'

end ShardIndex
end Trezoa.Gossip
