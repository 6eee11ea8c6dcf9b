import Trezoa.Gossip.Convergence
import Trezoa.Gossip.Indices

/-!
# The indices of the gossip table are consistent

Every index over the table holds exactly the positions of the values it is for, whatever is
inserted, removed, trimmed or touched, although a removal moves the last value of the table.

* `Consistent.insert`, `Consistent.remove`, `Consistent.trim`, `Consistent.updateRecordTimestamp` —
  each call returns and keeps the indices consistent.
-/

namespace Trezoa.Gossip

open Lib IndexMap Function PositionSet Option

namespace Crds

/-! ## Consistent tables -/

/-- The ordinal and the value at a position of the table. -/
def entryAt (c : Crds) (i : ℕ) : Option (ℕ × CrdsValue) :=
  (c.table.getIndex i).map fun e => (e.2.ordinal, e.2.value)

/-- Each index holds the positions of exactly the entries it is for. -/
structure Indexed (c : Crds) (f : ℕ → Option (ℕ × CrdsValue)) : Prop where
  entries : OrdinalIndex (fun _ => true) c.entries f
  votes : OrdinalIndex (fun v => v.data.isVote) c.votes f
  epochSlots : OrdinalIndex (fun v => v.data.isEpochSlots) c.epochSlots f
  duplicateShreds : OrdinalIndex (fun v => v.data.isDuplicateShred) c.duplicateShreds f
  nodes : PositionSet (fun v => v.data.isContactInfo) c.nodes f
  records : RecordIndex c.records f
  shards : ShardIndex c.shards f

/-- Every value stands under its label, the ordinals are distinct and below the cursor, and the
indices are those of the values in the table. -/
structure Consistent (c : Crds) : Prop where
  label : ∀ i label v, c.table.getIndex i = some (label, v) → v.value.label = label
  ordinal_lt : ∀ i o v, c.entryAt i = some (o, v) → o < c.cursor
  ordinal_inj : ∀ i j o v w, c.entryAt i = some (o, v) → c.entryAt j = some (o, w) → i = j
  indexed : c.Indexed c.entryAt

variable {c c' : Crds} {v w other : VersionedCrdsValue} {index i n now : ℕ} {label : CrdsValueLabel}

lemma entryAt_of_getIndex (h : c.table.getIndex i = some (label, v)) :
    c.entryAt i = some (v.ordinal, v.value) := by
  rw [entryAt, h]
  rfl

lemma entryAt_eq_none (h : c.table.len ≤ i) : c.entryAt i = none := by
  have hnone : c.table.getIndex i = none := List.getElem?_eq_none h
  rw [entryAt, hnone]
  rfl

lemma Consistent.labelled (h : c.Consistent) : c.Labelled := ⟨h.label, h.indexed.shards.shardBits⟩

/-- The cursor is no ordinal of the table. -/
lemma Consistent.fresh (h : c.Consistent) (hordinal : v.ordinal = c.cursor) (i : ℕ)
    (w : CrdsValue) : c.entryAt i ≠ some (v.ordinal, w) :=
  fun hw => (hordinal ▸ h.ordinal_lt i _ w hw).false

lemma consistent_default : default.Consistent := by
  have hat : default.entryAt = fun _ => none := rfl
  have hmarks : ∀ (q : ℕ × CrdsValue → Prop) (set : ℕ → Prop), (∀ i, ¬ set i) →
      Marks default.entryAt q set := by
    intro q set hset i
    simp [hat, hset i]
  refine ⟨labelled_default.label, by simp [hat], by simp [hat], fun o => hmarks _ _ ?_,
    fun o => hmarks _ _ ?_, fun o => hmarks _ _ ?_, fun o => hmarks _ _ ?_, hmarks _ _ ?_,
    ⟨fun pubkey => hmarks _ _ ?_, ?_⟩, rfl, fun shard hash => hmarks _ _ ?_⟩
  all_goals simp [default, IndexMap.keys, IndexMap.empty, InRecords, CrdsShards.Holds,
    CrdsShards.new, IndexMap.get, IndexMap.getFull, IndexMap.getIndexOf]

/-! ### Insertion -/

/-- What a write under the ordinal of the cursor does to the ordinals. -/
lemma Consistent.ordinals_update (h : c.Consistent) (hordinal : v.ordinal = c.cursor)
    (hcursor : c'.cursor = consume c.cursor v.ordinal)
    (hat : c'.entryAt = update c.entryAt index (some (v.ordinal, v.value))) :
    (∀ i o v, c'.entryAt i = some (o, v) → o < c'.cursor)
      ∧ ∀ i j o v w, c'.entryAt i = some (o, v) → c'.entryAt j = some (o, w) → i = j := by
  have hlt : c.cursor < c'.cursor := by
    rw [hcursor, consume, hordinal]
    omega
  constructor
  · intro i o u hu
    rw [hat, update_apply] at hu
    split at hu
    · cases hu
      exact hordinal ▸ hlt
    · exact (h.ordinal_lt i o u hu).trans hlt
  intro i j o u w hu hw
  rw [hat, update_apply] at hu hw
  split at hu <;> split at hw
  · rename_i hi hj
    rw [hi, hj]
  · cases hu
    exact absurd hw (h.fresh hordinal j w)
  · cases hw
    exact absurd hu (h.fresh hordinal i u)
  · exact h.ordinal_inj i j o u w hu hw

lemma Added.entryAt (hnone : c.table.getFull v.value.label = none) (h : c.Added v c') :
    c'.entryAt = update c.entryAt c.table.len (some (v.ordinal, v.value)) := by
  funext i
  rw [Crds.entryAt, h.table, getIndex_insert_of_none hnone, update_apply]
  split <;> rfl

lemma Consistent.added (h : c.Consistent) (hnone : c.table.getFull v.value.label = none)
    (hordinal : v.ordinal = c.cursor) (hadded : c.Added v c') : c'.Consistent := by
  have hat := hadded.entryAt hnone
  have hk := c.entryAt_eq_none le_rfl
  have hfresh := h.fresh hordinal
  obtain ⟨hlt, hinj⟩ := h.ordinals_update hordinal hadded.cursor hat
  refine ⟨(hadded.labelled h.labelled hnone).label, hlt, hinj, ?_⟩
  rw [hat]
  have hindexed := h.indexed
  constructor
  · rw [hadded.entries]
    exact hindexed.entries.added (v := v.value) hk hfresh
  · rw [hadded.votes]
    exact hindexed.votes.added hk hfresh
  · rw [hadded.epochSlots]
    exact hindexed.epochSlots.added hk hfresh
  · rw [hadded.duplicateShreds]
    exact hindexed.duplicateShreds.added hk hfresh
  · rw [hadded.nodes]
    exact PositionSet.added hindexed.nodes hk
  · rw [hadded.records]
    exact hindexed.records.added hk
  · exact hindexed.shards.added hk hadded.shards

lemma Replaced.entryAt (hsome : c.table.getFull v.value.label = some (index, other))
    (h : c.Replaced v other index c') :
    c'.entryAt = update c.entryAt index (some (v.ordinal, v.value)) := by
  funext i
  rw [Crds.entryAt, h.table, getIndex_insert_of_some hsome, update_apply]
  split <;> rfl

lemma Consistent.replaced (h : c.Consistent)
    (hsome : c.table.getFull v.value.label = some (index, other))
    (hordinal : v.ordinal = c.cursor) (hreplaced : c.Replaced v other index c') :
    c'.Consistent := by
  have hat := hreplaced.entryAt hsome
  have hindex := getFull_eq_some.mp hsome
  have hk := entryAt_of_getIndex hindex
  obtain ⟨hpubkey, hcontact, hvote, hslots, hshreds⟩ :=
    kind_of_label_eq (h.label index _ other hindex).symm
  have hfresh := h.fresh hordinal
  have hold : ∀ i w, c.entryAt i = some (other.ordinal, w) → i = index :=
    fun i w hw => h.ordinal_inj i index _ w _ hw hk
  obtain ⟨hlt, hinj⟩ := h.ordinals_update hordinal hreplaced.cursor hat
  refine ⟨(hreplaced.labelled h.labelled hsome).label, hlt, hinj, ?_⟩
  rw [hat]
  have hindexed := h.indexed
  constructor
  · rw [hreplaced.entries]
    exact hindexed.entries.replaced (v := v.value) hk rfl hold hfresh
  · rw [hreplaced.votes]
    exact hindexed.votes.replaced hk hvote hold hfresh
  · rw [hreplaced.epochSlots]
    exact hindexed.epochSlots.replaced hk hslots hold hfresh
  · rw [hreplaced.duplicateShreds]
    exact hindexed.duplicateShreds.replaced hk hshreds hold hfresh
  · rw [hreplaced.nodes]
    exact PositionSet.replaced hindexed.nodes hk hcontact
  · rw [hreplaced.records]
    exact hindexed.records.replaced hk hpubkey
  · obtain ⟨s, hs, hs'⟩ := hreplaced.shards
    exact hindexed.shards.replaced hk hs hs'

lemma Kept.entryAt (h : c.Kept c') : c'.entryAt = c.entryAt := by
  funext i
  have hi := congrArg (Option.map Prod.snd) (h.table i)
  rw [Option.map_map, Option.map_map] at hi
  exact hi

lemma Consistent.kept (h : c.Consistent) (hkept : c.Kept c') : c'.Consistent := by
  have hat := hkept.entryAt
  have hindexed := h.indexed
  refine ⟨(hkept.labelled h.labelled).label, ?_, ?_, ?_⟩
  all_goals rw [hat]
  · rw [hkept.cursor]
    exact h.ordinal_lt
  · exact h.ordinal_inj
  constructor
  · exact hkept.entries ▸ hindexed.entries
  · exact hkept.votes ▸ hindexed.votes
  · exact hkept.epochSlots ▸ hindexed.epochSlots
  · exact hkept.duplicateShreds ▸ hindexed.duplicateShreds
  · exact hkept.nodes ▸ hindexed.nodes
  · exact hkept.records ▸ hindexed.records
  · exact hkept.shards ▸ hindexed.shards

/-! ### Removal -/

lemma Indexed.unindexed {f : ℕ → Option (ℕ × CrdsValue)} (h : c.Indexed f)
    (hk : f index = some (v.ordinal, v.value))
    (hinj : ∀ i w, f i = some (v.ordinal, w) → i = index) (hun : c.Unindexed v index c') :
    c'.Indexed (update f index none) where
  entries := by
    rw [hun.entries]
    exact h.entries.removed hk hinj
  votes := by
    rw [hun.votes]
    exact h.votes.removed hk hinj
  epochSlots := by
    rw [hun.epochSlots]
    exact h.epochSlots.removed hk hinj
  duplicateShreds := by
    rw [hun.duplicateShreds]
    exact h.duplicateShreds.removed hk hinj
  nodes := by
    rw [hun.nodes]
    exact removed h.nodes hk
  records := by
    obtain ⟨s, hs, hrecords⟩ := hun.records
    rw [hrecords]
    exact h.records.removed hk hs
  shards := h.shards.removed hk hun.shards

lemma Indexed.reindexed {f : ℕ → Option (ℕ × CrdsValue)} (h : c.Indexed f)
    (hk : f index = none) (hn : f n = some (v.ordinal, v.value))
    (hinj : ∀ i w, f i = some (v.ordinal, w) → i = n) (hre : c.Reindexed v n index c') :
    c'.Indexed (update (update f n none) index (some (v.ordinal, v.value))) where
  entries := by
    rw [hre.entries]
    exact h.entries.moved hk hn hinj
  votes := by
    rw [hre.votes]
    exact h.votes.moved hk hn hinj
  epochSlots := by
    rw [hre.epochSlots]
    exact h.epochSlots.moved hk hn hinj
  duplicateShreds := by
    rw [hre.duplicateShreds]
    exact h.duplicateShreds.moved hk hn hinj
  nodes := by
    rw [hre.nodes]
    exact moved h.nodes hk hn
  records := by
    obtain ⟨s, hs, hrecords⟩ := hre.records
    rw [hrecords]
    exact h.records.moved hk hn hs
  shards := by
    obtain ⟨s, hs, hs'⟩ := hre.shards
    exact h.shards.moved hk hn hs hs'

section
variable (hindex : c.table.getIndex index = some (label, v))
  (htable : c'.table = c.table.swapRemove label)
include hindex htable

/-- The positions after a removal: the last entry takes the place of the removed one. -/
lemma entryAt_of_table_swapRemove : c'.entryAt i =
      if i + 1 < c.table.len then (if i = index then c.entryAt (c.table.len - 1) else c.entryAt i)
      else none := by
  rw [entryAt, htable, getIndex_swapRemove hindex]
  split
  · split <;> rfl
  · rfl

/-- Where the entry at a position was before a removal. -/
lemma exists_of_table_swapRemove {o : ℕ} {u : CrdsValue} (hu : c'.entryAt i = some (o, u)) :
    i + 1 < c.table.len ∧ c.entryAt (if i = index then c.table.len - 1 else i) = some (o, u) := by
  rw [entryAt_of_table_swapRemove hindex htable] at hu
  split_ifs at hu with hlt heq
  · exact ⟨hlt, by rw [if_pos heq, hu]⟩
  · exact ⟨hlt, by rw [if_neg heq, hu]⟩

/-- After a removal the ordinals are still distinct and below the cursor, so that only the indices
matter. -/
lemma Consistent.of_table_swapRemove (h : c.Consistent) (hcursor : c'.cursor = c.cursor)
    (hindexed : c'.Indexed c'.entryAt) : c'.Consistent where
  label i label' u hu := by
    rw [htable, getIndex_swapRemove hindex] at hu
    split_ifs at hu <;> exact h.label _ label' u hu
  ordinal_lt i o u hu := by
    rw [hcursor]
    exact h.ordinal_lt _ o u (exists_of_table_swapRemove hindex htable hu).2
  ordinal_inj i j o u w hu hw := by
    obtain ⟨hi, hu⟩ := exists_of_table_swapRemove hindex htable hu
    obtain ⟨hj, hw⟩ := exists_of_table_swapRemove hindex htable hw
    have heq := h.ordinal_inj _ _ o u w hu hw
    split at heq <;> split at heq <;> omega
  indexed := hindexed

/-- The indices after the removal of the last value. -/
lemma entryAt_of_last (hlast : ¬ index < c.table.len - 1) :
    c'.entryAt = update c.entryAt index none := by
  have hlt := getIndex_lt hindex
  funext i
  rw [entryAt_of_table_swapRemove hindex htable, update_apply]
  by_cases hi : i = index
  · rw [if_neg (by omega), if_pos hi]
  rw [if_neg hi, if_neg hi]
  split
  · rfl
  · exact (entryAt_eq_none (by omega)).symm

/-- The indices after a removal that moves the last value. -/
lemma entryAt_of_moved (hlast : index < c.table.len - 1) : c'.entryAt = update (update
    (update c.entryAt index none) (c.table.len - 1) none) index (c.entryAt (c.table.len - 1)) := by
  funext i
  rw [entryAt_of_table_swapRemove hindex htable]
  simp only [update_apply]
  by_cases hi : i = index
  · rw [if_pos (by omega), if_pos hi, if_pos hi]
  rw [if_neg hi, if_neg hi, if_neg hi]
  split
  · rw [if_neg (by omega)]
  · split
    · rfl
    · exact (entryAt_eq_none (by omega)).symm

end

/-- A removal keeps the values that are left, and the indices follow the value that moves. -/
theorem Consistent.remove (h : c.Consistent) (key : CrdsValueLabel) (now : ℕ) :
    ∃ c', c.remove key now = .ok c' ∧ c'.Consistent ∧ c'.cursor = c.cursor
      ∧ ∀ i o v, c'.entryAt i = some (o, v) → ∃ j, c.entryAt j = some (o, v) := by
  unfold Crds.remove
  cases hfull : c.table.getFull key with
  | none => exact ⟨c, rfl, h, rfl, fun i o v hv => ⟨i, hv⟩⟩
  | some full =>
    obtain ⟨index, r⟩ := full
    have hindex := getFull_eq_some.mp hfull
    have hk := entryAt_of_getIndex hindex
    obtain ⟨records, hrecords, -⟩ := h.indexed.records.exists_records hk
    obtain ⟨c₁, hc₁, hun⟩ := unindex_returns (c := { c with table := c.table.swapRemove key })
      index now h.indexed.shards.shardBits hrecords
    have hc₁table : c₁.table = c.table.swapRemove key := hun.table
    have hc₁cursor : c₁.cursor = c.cursor := hun.cursor
    have hbefore : Indexed { c with table := c.table.swapRemove key } c.entryAt :=
      ⟨h.indexed.entries, h.indexed.votes, h.indexed.epochSlots, h.indexed.duplicateShreds,
        h.indexed.nodes, h.indexed.records, h.indexed.shards⟩
    have hgone := hbefore.unindexed hk (fun i w hw => h.ordinal_inj i index _ w _ hw hk) hun
    simp only [hc₁, bind, Except.bind]
    unfold reindexMoved
    rw [hc₁table, len_swapRemove hindex]
    by_cases hlast : index < c.table.len - 1
    · -- the last value has moved to the index
      obtain ⟨label', w, hw⟩ := exists_getIndex (show c.table.len - 1 < c.table.len by omega)
      have hmoved : (c.table.swapRemove key).getIndex index = some (label', w) := by
        rw [getIndex_swapRemove hindex, if_pos (by omega), if_pos rfl, hw]
      have hn := entryAt_of_getIndex hw
      have hn₁ : update c.entryAt index none (c.table.len - 1) = some (w.ordinal, w.value) := by
        rw [update_of_ne (by omega), hn]
      have hn₁inj : ∀ i u, update c.entryAt index none i = some (w.ordinal, u) →
          i = c.table.len - 1 := by
        intro i u hu
        rw [update_apply] at hu
        split at hu
        · cases hu
        · exact h.ordinal_inj i _ _ u _ hu hn
      obtain ⟨records', hrecords', -⟩ := hgone.records.exists_records hn₁
      obtain ⟨c₂, hc₂, hre⟩ := reindex_returns (c.table.len - 1) index hgone.shards.shardBits
        hrecords'
      have htable : c₂.table = c.table.swapRemove key := hre.table.trans hc₁table
      have hcursor : c₂.cursor = c.cursor := hre.cursor.trans hc₁cursor
      have hindexed := hgone.reindexed (update_self ..) hn₁ hn₁inj hre
      rw [← hn, ← entryAt_of_moved hindex htable hlast] at hindexed
      refine ⟨c₂, ?_, h.of_table_swapRemove hindex htable hcursor hindexed, hcursor,
        fun i o u hu => ⟨_, (exists_of_table_swapRemove hindex htable hu).2⟩⟩
      rw [if_pos hlast, hmoved]
      exact hc₂
    · -- the removed value was the last one
      rw [← entryAt_of_last hindex hc₁table hlast] at hgone
      exact ⟨c₁, by rw [if_neg hlast], h.of_table_swapRemove hindex hc₁table hc₁cursor hgone,
        hc₁cursor, fun i o u hu => ⟨_, (exists_of_table_swapRemove hindex hc₁table hu).2⟩⟩

/-! ### All calls -/

/-- What happens to the ordinals: the cursor does not go back, and an entry was there before or has
a new ordinal. -/
structure Evolves (c c' : Crds) : Prop where
  cursor : c.cursor ≤ c'.cursor
  entry : ∀ i o v, c'.entryAt i = some (o, v) → (∃ j, c.entryAt j = some (o, v)) ∨ c.cursor ≤ o

namespace Evolves

variable {c'' : Crds}

lemma refl (c : Crds) : c.Evolves c := ⟨le_rfl, fun i _ _ h => .inl ⟨i, h⟩⟩

lemma trans (h : c.Evolves c') (h' : c'.Evolves c'') : c.Evolves c'' where
  cursor := h.cursor.trans h'.cursor
  entry i o v hv := by
    rcases h'.entry i o v hv with ⟨j, hj⟩ | hle
    · exact h.entry j o v hj
    · exact .inr (h.cursor.trans hle)

lemma of_update {x : ℕ × CrdsValue} (hcursor : c'.cursor = consume c.cursor c.cursor)
    (hat : c'.entryAt = update c.entryAt index (some x)) (hx : x.1 = c.cursor) :
    c.Evolves c' where
  cursor := by
    rw [hcursor, consume]
    omega
  entry i o v hv := by
    rw [hat, update_apply] at hv
    split at hv
    · cases hv
      exact .inr hx.ge
    · exact .inl ⟨i, hv⟩

lemma of_kept (h : c.Kept c') : c.Evolves c' :=
  ⟨h.cursor.ge, fun i _ _ hv => .inl ⟨i, h.entryAt ▸ hv⟩⟩

end Evolves

lemma Consistent.insert (h : c.Consistent) (value : CrdsValue) (now : ℕ) (route : GossipRoute) :
    ∃ result c', c.insert value now route = .ok (result, c') ∧ c'.Consistent ∧ c.Evolves c' := by
  rcases insert_cases h.labelled value now route with
    ⟨hnone, c', hc', hadded⟩ | ⟨index, other, hsome, -, c', hc', hreplaced⟩
      | ⟨index, other, -, -, error, c', hc', hkept⟩
  · exact ⟨_, c', hc', h.added hnone rfl hadded,
      .of_update hadded.cursor (hadded.entryAt hnone) rfl⟩
  · exact ⟨_, c', hc', h.replaced hsome rfl hreplaced,
      .of_update hreplaced.cursor (hreplaced.entryAt hsome) rfl⟩
  · exact ⟨_, c', hc', h.kept hkept, .of_kept hkept⟩

/-- Removing a list of labels. -/
lemma Consistent.removeAll (h : c.Consistent) (keys : List CrdsValueLabel) (now : ℕ) :
    ∃ c', keys.foldlM (fun (c : Crds) key => c.remove key now) c = .ok c' ∧ c'.Consistent
      ∧ c.Evolves c' := by
  refine foldlM_returns (fun c' => c'.Consistent ∧ c.Evolves c') ?_ ⟨h, .refl c⟩
  rintro c₁ ⟨h₁, hevolves⟩ key -
  obtain ⟨c₂, hc₂, hcons, hcursor, hentry⟩ := h₁.remove key now
  have hstep : c₁.Evolves c₂ := ⟨hcursor.ge, fun i o v hv => .inl (hentry i o v hv)⟩
  exact ⟨c₂, hc₂, hcons, hevolves.trans hstep⟩

/-- The positions in the records are those of values. -/
lemma Consistent.labelAt_returns (h : c.Consistent) {pubkey : ℕ}
    (hi : InRecords c.records pubkey i) : ∃ label, c.labelAt i = .ok label := by
  obtain ⟨e, he, -⟩ := (h.indexed.records.marks pubkey i).mp hi
  obtain ⟨⟨label, v⟩, hv, -⟩ := map_eq_some_iff.mp he
  exact ⟨label, by rw [labelAt, hv]⟩

/-- Only pubkeys that have records are dropped. -/
lemma mem_records_of_mem_dropKeys {order : DropOrder} {size : ℕ} {keep : List ℕ}
    {stakes : OrdMap ℕ ℕ} {k : ℕ} (h : k ∈ c.dropKeys order size keep stakes) :
    k ∈ c.records := by
  unfold dropKeys at h
  obtain ⟨⟨stake, k'⟩, hmem, rfl⟩ := List.mem_map.mp (List.mem_filter.mp h).1
  have hkeys := List.mem_of_mem_take hmem
  have hall : (stake, k') ∈ (order.iterate c.records.keys).map fun k => (stakes[k]?.getD 0, k) := by
    split at hkeys
    · exact (order.selectNth_perm _ _).mem_iff.mp hkeys
    · exact hkeys
  obtain ⟨k, hk, heq⟩ := List.mem_map.mp hall
  cases heq
  exact Std.TreeMap.mem_keys.mp ((order.iterate_perm _).mem_iff.mp hk)

lemma Consistent.trim (h : c.Consistent) (order : DropOrder) (cap : ℕ) (keep : List ℕ)
    (stakes : OrdMap ℕ ℕ) (now : ℕ) : ∃ result c', c.trim order cap keep stakes now
      = .ok (result, c') ∧ c'.Consistent ∧ c.Evolves c' := by
  unfold Crds.trim Crds.drop
  split
  swap
  · exact ⟨_, c, rfl, h, .refl c⟩
  split
  · exact ⟨_, c, rfl, h, .refl c⟩
  obtain ⟨indices, hindices, hin⟩ := mapM_returns (g := c.recordsOf)
    (l := c.dropKeys order (c.records.size - cap) keep stakes)
    (fun pubkey is => ∀ i ∈ is, InRecords c.records pubkey i) (by
      intro k hk
      obtain ⟨s, hs⟩ := isSome_iff_exists.mp
        (Std.TreeMap.mem_iff_isSome_getElem?.mp (mem_records_of_mem_dropKeys hk))
      exact ⟨s.keys, by rw [recordsOf, hs], fun i hi => ⟨s, hs, hi⟩⟩)
  obtain ⟨keys, hkeys, -⟩ := mapM_returns (g := c.labelAt) (l := indices.flatten)
    (fun _ _ => True) (by
      intro i hi
      obtain ⟨is, his, hi⟩ := List.mem_flatten.mp hi
      obtain ⟨n, hn, rfl⟩ := List.getElem_of_mem his
      have hn' : n < (c.dropKeys order (c.records.size - cap) keep stakes).length := by
        rw [hin.length_eq]
        exact hn
      obtain ⟨label, hlabel⟩ := h.labelAt_returns (hin.get hn' hn i hi)
      exact ⟨label, hlabel, trivial⟩)
  obtain ⟨c', hc', hcons, hevolves⟩ := h.removeAll keys now
  refine ⟨.ok keys.length, c', ?_, hcons, hevolves⟩
  simp [hindices, hkeys, hc', bind, Except.bind, pure, Except.pure]

lemma kept_raiseTimestampAt (now index : ℕ) :
    c.Kept { c with table := c.table.modifyIndex index (raiseTimestamp now) } := by
  refine .modifyIndex fun v => ?_
  unfold raiseTimestamp
  split <;> exact ⟨rfl, rfl⟩

/-- Raising the timestamps at some positions of the table. -/
lemma raiseTimestamps_returns (now : ℕ) (indices : List ℕ) (h : ∀ i ∈ indices, i < c.table.len) :
    ∃ c', indices.foldlM (raiseTimestampAt now) c = .ok c' ∧ c.Kept c' := by
  refine foldlM_returns (c.Kept ·) (fun c₁ hkept i hi => ?_) (.refl c)
  refine ⟨_, if_pos ?_, hkept.trans (kept_raiseTimestampAt now i)⟩
  rw [hkept.len]
  exact h i hi

lemma Consistent.updateRecordTimestamp (h : c.Consistent) (pubkey now : ℕ) :
    ∃ c', c.updateRecordTimestamp pubkey now = .ok c' ∧ c'.Consistent ∧ c.Evolves c' := by
  obtain ⟨c', hc', hkept⟩ : ∃ c', c.updateRecordTimestamp pubkey now = .ok c' ∧ c.Kept c' := by
    unfold Crds.updateRecordTimestamp
    cases c.table.getFull (.contactInfo pubkey) with
    | some full => exact ⟨_, rfl, kept_raiseTimestampAt now _⟩
    | none =>
      cases hrecords : c.records[pubkey]? with
      | none => exact ⟨c, rfl, .refl c⟩
      | some records =>
        refine raiseTimestamps_returns now _ fun i hi => ?_
        obtain ⟨e, he, -⟩ := (h.indexed.records.marks pubkey i).mp ⟨records, hrecords, hi⟩
        obtain ⟨⟨label, v⟩, hv, -⟩ := map_eq_some_iff.mp he
        exact getIndex_lt hv
  exact ⟨c', hc', h.kept hkept, .of_kept hkept⟩

end Crds
end Trezoa.Gossip
