import Trezoa.Gossip.Crds

/-!
# What a call does to the gossip table

One description for each change of the table: which value is at which index afterwards, and what
becomes of each index over the table. No later proof unfolds the calls.
-/

namespace Trezoa.Gossip

open Lib Except IndexMap

/-! ## The order of the values of a label -/

/-- The order in which the values of a label replace each other. -/
def CrdsValue.rank (value : CrdsValue) : ℕ ×ₗ ℕ ×ₗ ℕ :=
  match value.data with
  | .contactInfo info => toLex (info.outset, toLex (value.wallclock, value.hash))
  | _ => toLex (0, toLex (value.wallclock, value.hash))

section Label
variable {v w : CrdsValue} {pubkey : ℕ}

/-- A label says who its value is from and of which kind it is. -/
lemma kind_of_label (v : CrdsValue) :
    v.pubkey = v.label.pubkey ∧ v.data.isContactInfo = v.label.isContactInfo
      ∧ v.data.isVote = v.label.isVote ∧ v.data.isEpochSlots = v.label.isEpochSlots
      ∧ v.data.isDuplicateShred = v.label.isDuplicateShred := by
  obtain ⟨data, hash⟩ := v
  cases data <;> exact ⟨rfl, rfl, rfl, rfl, rfl⟩

lemma kind_of_label_eq (h : v.label = w.label) :
    v.pubkey = w.pubkey ∧ v.data.isContactInfo = w.data.isContactInfo
      ∧ v.data.isVote = w.data.isVote ∧ v.data.isEpochSlots = w.data.isEpochSlots
      ∧ v.data.isDuplicateShred = w.data.isDuplicateShred := by
  obtain ⟨hv₁, hv₂, hv₃, hv₄, hv₅⟩ := kind_of_label v
  obtain ⟨hw₁, hw₂, hw₃, hw₄, hw₅⟩ := kind_of_label w
  rw [hv₁, hv₂, hv₃, hv₄, hv₅, hw₁, hw₂, hw₃, hw₄, hw₅, h]
  exact ⟨rfl, rfl, rfl, rfl, rfl⟩

/-- A value that is no contact-info is ordered by wallclock and hash alone. -/
lemma rank_of_not_contactInfo (h : v.data.isContactInfo = false) :
    v.rank = toLex (0, toLex (v.wallclock, v.hash)) := by
  unfold CrdsValue.rank
  generalize v.data = vd at h ⊢
  cases vd <;> first | rfl | cases h

lemma overridesContactInfo_of_not (h : v.data.isContactInfo = false) :
    overridesContactInfo v.data w.data = none := by
  generalize v.data = vd at h ⊢
  cases vd <;> first | rfl | cases h

end Label

/-- The outset and the wallclock of two contact-infos of one node decide, unless they are equal. -/
lemma ContactInfo.overrides_eq {info other : ContactInfo} (h : info.pubkey = other.pubkey) :
    info.overrides other =
      if info.outset = other.outset ∧ info.wallclock = other.wallclock then none
      else some (decide (other.outset < info.outset
        ∨ other.outset = info.outset ∧ other.wallclock < info.wallclock)) := by
  unfold ContactInfo.overrides
  rw [if_neg (not_not.mpr h)]
  split
  · rename_i hlt
    rw [compare_lt_iff_lt, Prod.Lex.toLex_lt_toLex] at hlt
    rw [if_neg (by omega)]
    simp
    omega
  · rename_i hgt
    rw [compare_gt_iff_gt, Prod.Lex.toLex_lt_toLex] at hgt
    rw [if_neg (by omega)]
    simpa using hgt
  · rename_i heq
    rw [compare_eq_iff_eq, toLex_inj, Prod.mk.injEq] at heq
    rw [if_pos heq]

/-- The comparison of wallclocks, with the hash for a tie. -/
lemma overridesWallclock_eq (value other : CrdsValue) : overridesWallclock value other =
    decide (other.wallclock < value.wallclock
      ∨ other.wallclock = value.wallclock ∧ other.hash < value.hash) := by
  unfold overridesWallclock
  rcases lt_trichotomy value.wallclock other.wallclock with h | h | h
  · rw [compare_lt_iff_lt.mpr h]
    simp
    omega
  · rw [compare_eq_iff_eq.mpr h, h]
    simp
  · rw [compare_gt_iff_gt.mpr h]
    simp [h]

/-- A value updates another one of its label if it comes later in the order. -/
theorem overrides_eq {value : CrdsValue} {other : VersionedCrdsValue}
    (h : value.label = other.value.label) :
    overrides value other = .ok (decide (other.value.rank < value.rank)) := by
  obtain ⟨hpubkey, hcontact, -⟩ := kind_of_label_eq h
  unfold overrides
  rw [if_neg (not_not.mpr h)]
  cases hkind : value.data.isContactInfo with
  | false =>
    have hother := hcontact.symm.trans hkind
    rw [overridesContactInfo_of_not hkind, rank_of_not_contactInfo hkind,
      rank_of_not_contactInfo hother]
    simp [overridesWallclock_eq, Prod.Lex.toLex_lt_toLex]
  | true =>
    have hother := hcontact.symm.trans hkind
    obtain ⟨info, hinfo⟩ : ∃ info, value.data = .contactInfo info := by
      generalize value.data = vd at hkind
      cases vd <;> first | exact ⟨_, rfl⟩ | cases hkind
    obtain ⟨info', hinfo'⟩ : ∃ info, other.value.data = .contactInfo info := by
      generalize other.value.data = vd at hother
      cases vd <;> first | exact ⟨_, rfl⟩ | cases hother
    have hkey : info.pubkey = info'.pubkey := by
      simpa [CrdsValue.pubkey, hinfo, hinfo', CrdsData.pubkey] using hpubkey
    have hclock : value.wallclock = info.wallclock := by
      simp [CrdsValue.wallclock, hinfo, CrdsData.wallclock]
    have hclock' : other.value.wallclock = info'.wallclock := by
      simp [CrdsValue.wallclock, hinfo', CrdsData.wallclock]
    simp only [hinfo, hinfo', overridesContactInfo, CrdsValue.rank, ContactInfo.overrides_eq hkey,
      overridesWallclock_eq, hclock, hclock', Prod.Lex.toLex_lt_toLex]
    by_cases heq : info.outset = info'.outset ∧ info.wallclock = info'.wallclock
    · rw [if_pos heq]
      simp [heq.1, heq.2]
    rw [if_neg heq]
    simp only [ok.injEq, decide_eq_decide]
    constructor
    · rintro (hlt | ⟨he, hlt⟩)
      · exact .inl hlt
      · exact .inr ⟨he, .inl hlt⟩
    · rintro (hlt | ⟨he, hlt | ⟨he', -⟩⟩)
      · exact .inl hlt
      · exact .inr ⟨he, hlt⟩
      · exact absurd ⟨he.symm, he'.symm⟩ heq

/-! ## The shards -/

lemma hashAsU64_lt (hash : ℕ) : hashAsU64 hash < 2 ^ 64 := by
  have hlt := Nat.ofDigits_lt_base_pow_length (b := 256) (by norm_num)
    (l := (List.range 8).map fun i => hash / 256 ^ (31 - i) % 256) (by
      intro byte hbyte
      obtain ⟨i, -, rfl⟩ := List.mem_map.mp hbyte
      exact Nat.mod_lt _ (by norm_num))
  rw [List.length_map, List.length_range] at hlt
  exact hlt.trans_eq (by norm_num)

namespace CrdsShards

variable {s : CrdsShards}

/-- The hash of a value selects one of the shards. -/
lemma shardIndex_lt (h : s.shardBits = crdsShardsBits) (hash : ℕ) :
    s.shardIndex (hashAsU64 hash) < 2 ^ s.shardBits := by
  have hlt := hashAsU64_lt hash
  have hpos : 64 - 12 < 64 := by norm_num
  simp only [shardIndex, h, crdsShardsBits, if_pos hpos, Nat.shiftRight_eq_div_pow]
  omega

/-- The content of the shards, as the hash of each index. -/
def Holds (s : CrdsShards) (shard index hash : ℕ) : Prop := (s.shards shard).get index = some hash

section
variable (h : s.shardBits = crdsShardsBits)
include h

lemma shardIndex_eq (hash : ℕ) : s.shardIndex hash = hash >>> (64 - crdsShardsBits) := by
  simp [shardIndex, h, crdsShardsBits]

lemma insert_returns (index : ℕ) (value : VersionedCrdsValue) :
    ∃ s', s.insert index value = .ok s' ∧ s'.shardBits = crdsShardsBits
      ∧ ∀ shard i hash, s'.Holds shard i hash ↔
        if i = index ∧ shard = hashAsU64 value.value.hash >>> (64 - crdsShardsBits)
        then hash = hashAsU64 value.value.hash else s.Holds shard i hash := by
  refine ⟨_, if_pos (shardIndex_lt h value.value.hash), h, fun shard i hash => ?_⟩
  simp only [Holds, Function.update_apply, shardIndex_eq h]
  by_cases hshard : shard = hashAsU64 value.value.hash >>> (64 - crdsShardsBits)
  · by_cases hi : i = index
    · simp [hshard, hi, get_insert, eq_comm]
    · simp [hshard, hi, get_insert]
  · simp [hshard]

lemma remove_returns (index : ℕ) (value : VersionedCrdsValue) :
    ∃ s', s.remove index value = .ok s' ∧ s'.shardBits = crdsShardsBits
      ∧ ∀ shard i hash, s'.Holds shard i hash ↔ s.Holds shard i hash
        ∧ ¬ (i = index ∧ shard = hashAsU64 value.value.hash >>> (64 - crdsShardsBits)) := by
  refine ⟨_, if_pos (shardIndex_lt h value.value.hash), h, fun shard i hash => ?_⟩
  simp only [Holds, Function.update_apply, shardIndex_eq h]
  by_cases hshard : shard = hashAsU64 value.value.hash >>> (64 - crdsShardsBits)
  · by_cases hi : i = index <;> simp [hshard, hi, get_swapRemove]
  · simp [hshard]

end
end CrdsShards

open CrdsShards

namespace Crds

/-! ## Insertion -/

/-- Every value stands under its label, and the shards are as many as they were made. -/
structure Labelled (c : Crds) : Prop where
  label : ∀ i label v, c.table.getIndex i = some (label, v) → v.value.label = label
  shardBits : c.shards.shardBits = crdsShardsBits

/-- The effect of an insertion under a new label. -/
structure Added (c : Crds) (v : VersionedCrdsValue) (c' : Crds) : Prop where
  table : c'.table = c.table.insert v.value.label v
  cursor : c'.cursor = consume c.cursor v.ordinal
  shards : c.shards.insert c.table.len v = .ok c'.shards
  nodes : c'.nodes = if v.value.data.isContactInfo then c.nodes.insert c.table.len () else c.nodes
  votes : c'.votes = if v.value.data.isVote then c.votes.insert v.ordinal c.table.len else c.votes
  epochSlots : c'.epochSlots =
    if v.value.data.isEpochSlots then c.epochSlots.insert v.ordinal c.table.len else c.epochSlots
  duplicateShreds : c'.duplicateShreds =
    if v.value.data.isDuplicateShred then c.duplicateShreds.insert v.ordinal c.table.len
    else c.duplicateShreds
  records : c'.records = c.records.insert v.value.pubkey
    ((c.records[v.value.pubkey]?.getD .empty).insert c.table.len ())
  entries : c'.entries = c.entries.insert v.ordinal c.table.len

/-- The effect of an insertion over an older value. -/
structure Replaced (c : Crds) (v other : VersionedCrdsValue) (index : ℕ) (c' : Crds) : Prop where
  table : c'.table = c.table.insert v.value.label v
  cursor : c'.cursor = consume c.cursor v.ordinal
  shards : ∃ s, c.shards.remove index other = .ok s ∧ s.insert index v = .ok c'.shards
  nodes : c'.nodes = c.nodes
  votes : c'.votes =
    if v.value.data.isVote then (c.votes.erase other.ordinal).insert v.ordinal index else c.votes
  epochSlots : c'.epochSlots =
    if v.value.data.isEpochSlots then (c.epochSlots.erase other.ordinal).insert v.ordinal index
    else c.epochSlots
  duplicateShreds : c'.duplicateShreds =
    if v.value.data.isDuplicateShred
    then (c.duplicateShreds.erase other.ordinal).insert v.ordinal index else c.duplicateShreds
  records : c'.records = c.records
  entries : c'.entries = (c.entries.erase other.ordinal).insert v.ordinal index

/-- Every value keeps its index and its ordinal, and only what else is noted beside the values may
change. -/
structure Kept (c c' : Crds) : Prop where
  table : ∀ i, (c'.table.getIndex i).map (fun e => (e.1, e.2.ordinal, e.2.value))
    = (c.table.getIndex i).map fun e => (e.1, e.2.ordinal, e.2.value)
  len : c'.table.len = c.table.len
  cursor : c'.cursor = c.cursor
  shards : c'.shards = c.shards
  nodes : c'.nodes = c.nodes
  votes : c'.votes = c.votes
  epochSlots : c'.epochSlots = c.epochSlots
  duplicateShreds : c'.duplicateShreds = c.duplicateShreds
  records : c'.records = c.records
  entries : c'.entries = c.entries

variable {c c' c'' : Crds} {v other : VersionedCrdsValue} {index : ℕ}
  {label : CrdsValueLabel} {i : ℕ}

namespace Kept

lemma refl (c : Crds) : c.Kept c := ⟨fun _ => rfl, rfl, rfl, rfl, rfl, rfl, rfl, rfl, rfl, rfl⟩

lemma trans (h : c.Kept c') (h' : c'.Kept c'') : c.Kept c'' where
  table i := (h'.table i).trans (h.table i)
  len := h'.len.trans h.len
  cursor := h'.cursor.trans h.cursor
  shards := h'.shards.trans h.shards
  nodes := h'.nodes.trans h.nodes
  votes := h'.votes.trans h.votes
  epochSlots := h'.epochSlots.trans h.epochSlots
  duplicateShreds := h'.duplicateShreds.trans h.duplicateShreds
  records := h'.records.trans h.records
  entries := h'.entries.trans h.entries

lemma symm (h : c.Kept c') : c'.Kept c where
  table i := (h.table i).symm
  len := h.len.symm
  cursor := h.cursor.symm
  shards := h.shards.symm
  nodes := h.nodes.symm
  votes := h.votes.symm
  epochSlots := h.epochSlots.symm
  duplicateShreds := h.duplicateShreds.symm
  records := h.records.symm
  entries := h.entries.symm

/-- Changing what is noted beside a value. -/
lemma modifyIndex {f : VersionedCrdsValue → VersionedCrdsValue}
    (hf : ∀ v, (f v).ordinal = v.ordinal ∧ (f v).value = v.value) :
    c.Kept { c with table := c.table.modifyIndex index f } where
  table i := by
    rw [getIndex_modifyIndex]
    split
    · rw [Option.map_map]
      congr 1
      funext entry
      simp [hf]
    · rfl
  len := len_modifyIndex f
  cursor := rfl
  shards := rfl
  nodes := rfl
  votes := rfl
  epochSlots := rfl
  duplicateShreds := rfl
  records := rfl
  entries := rfl

/-- A value after such a change was there before. -/
lemma exists_before (h : c.Kept c') (hv : c'.table.getIndex i = some (label, v)) :
    ∃ w, c.table.getIndex i = some (label, w) ∧ w.ordinal = v.ordinal ∧ w.value = v.value := by
  have hi := h.table i
  rw [hv, Option.map_some] at hi
  obtain ⟨⟨label', w⟩, hw, heq⟩ := Option.map_eq_some_iff.mp hi.symm
  simp only [Prod.mk.injEq] at heq
  obtain ⟨rfl, hordinal, hvalue⟩ := heq
  exact ⟨w, hw, hordinal, hvalue⟩

end Kept

lemma insertVacant_returns (h : c.shards.shardBits = crdsShardsBits) :
    ∃ c', c.insertVacant v = .ok c' ∧ c.Added v c' := by
  obtain ⟨shards, hshards, -⟩ := insert_returns h c.table.len v
  refine ⟨_, by rw [insertVacant, hshards]; rfl, ?_⟩
  unfold indexNew
  generalize hdata : v.value.data = data
  cases data <;> constructor <;> simp only [hdata] <;> first | rfl | exact hshards

lemma indexReplaced_returns (index : ℕ) (h : v.value.label = other.value.label) :
    ∃ c', indexReplaced c v other index = .ok c' ∧ c'.table = c.table ∧ c'.cursor = c.cursor
      ∧ c'.shards = c.shards ∧ c'.nodes = c.nodes ∧ c'.records = c.records
      ∧ c'.entries = c.entries ∧ c'.purged = c.purged
      ∧ c'.votes = (if v.value.data.isVote
          then (c.votes.erase other.ordinal).insert v.ordinal index else c.votes)
      ∧ c'.epochSlots = (if v.value.data.isEpochSlots
          then (c.epochSlots.erase other.ordinal).insert v.ordinal index else c.epochSlots)
      ∧ c'.duplicateShreds = (if v.value.data.isDuplicateShred
          then (c.duplicateShreds.erase other.ordinal).insert v.ordinal index
          else c.duplicateShreds) := by
  obtain ⟨-, hcontact, -⟩ := kind_of_label_eq h
  unfold indexReplaced
  generalize v.value.data = data at hcontact ⊢
  cases data with
  | contactInfo info =>
    have hother : other.value.data.isContactInfo = true := hcontact.symm
    exact ⟨_, if_pos hother, rfl, rfl, rfl, rfl, rfl, rfl, rfl, rfl, rfl, rfl⟩
  | _ => exact ⟨_, rfl, rfl, rfl, rfl, rfl, rfl, rfl, rfl, rfl, rfl, rfl⟩

lemma insertOccupied_returns (index now : ℕ) (h : c.shards.shardBits = crdsShardsBits)
    (hlabel : v.value.label = other.value.label) :
    ∃ c', c.insertOccupied v other index now = .ok c' ∧ c.Replaced v other index c' := by
  obtain ⟨s₁, hs₁, hbits, -⟩ := remove_returns h index other
  obtain ⟨s₂, hs₂, -⟩ := insert_returns hbits index v
  obtain ⟨c₁, hc₁, htable, hcursor, hshards, hnodes, hrecords, hentries, -, hvotes, hslots,
    hshreds⟩ := indexReplaced_returns (c := { c with shards := s₂ }) index hlabel
  have hpubkey : ¬ other.value.pubkey ≠ v.value.pubkey :=
    not_not.mpr (kind_of_label_eq hlabel).1.symm
  refine ⟨{ c₁ with
    entries := (c₁.entries.erase other.ordinal).insert v.ordinal index
    cursor := consume c₁.cursor v.ordinal
    purged := c₁.purged ++ [(other.value.hash, now)]
    table := c₁.table.insert v.value.label v }, ?_, ?_⟩
  · simp only [insertOccupied, hs₁, hs₂, hc₁, bind, Except.bind]
    rw [if_neg hpubkey]
  constructor
  · rw [htable]
  · rw [hcursor]
  · exact ⟨s₁, hs₁, by rw [hs₂, hshards]⟩
  · exact hnodes
  · exact hvotes
  · exact hslots
  · exact hshreds
  · exact hrecords
  · rw [hentries]

/-- A refused value is reported, and changes at most a count beside a value. -/
lemma insertRefused_returns (c : Crds) (v other : VersionedCrdsValue) (index now : ℕ)
    (route : GossipRoute) : ∃ error c',
      c.insertRefused v other index now route = (.error error, c') ∧ c.Kept c' := by
  unfold insertRefused
  split
  · exact ⟨_, _, rfl, ⟨fun _ => rfl, rfl, rfl, rfl, rfl, rfl, rfl, rfl, rfl, rfl⟩⟩
  · split
    · refine ⟨_, _, rfl, .modifyIndex fun v => ⟨rfl, rfl⟩⟩
    · exact ⟨_, _, rfl, .refl c⟩

/-- The three ways an insertion ends: under a new label, over an older value, or refused. -/
theorem insert_cases (h : c.Labelled) (value : CrdsValue) (now : ℕ) (route : GossipRoute) :
    (c.table.getFull value.label = none ∧ ∃ c', c.insert value now route = .ok (.ok (), c')
      ∧ c.Added (.new value c.cursor now route) c')
    ∨ (∃ index other, c.table.getFull value.label = some (index, other)
      ∧ other.value.rank < value.rank ∧ ∃ c', c.insert value now route = .ok (.ok (), c')
      ∧ c.Replaced (.new value c.cursor now route) other index c')
    ∨ (∃ index other, c.table.getFull value.label = some (index, other)
      ∧ ¬ other.value.rank < value.rank
      ∧ ∃ error c', c.insert value now route = .ok (.error error, c') ∧ c.Kept c') := by
  have hlabel : (VersionedCrdsValue.new value c.cursor now route).value.label = value.label := rfl
  unfold insert
  simp only [hlabel]
  cases hfull : c.table.getFull value.label with
  | none =>
    obtain ⟨c', hc', hadded⟩ := insertVacant_returns
      (v := .new value c.cursor now route) h.shardBits
    exact .inl ⟨rfl, c', by simp only [hc', Except.map], hadded⟩
  | some full =>
    obtain ⟨index, other⟩ := full
    have hsame : value.label = other.value.label :=
      (h.label index _ other (getFull_eq_some.mp hfull)).symm
    have hover := overrides_eq hsame
    by_cases hrank : other.value.rank < value.rank
    · obtain ⟨c', hc', hreplaced⟩ := insertOccupied_returns index now
        (v := .new value c.cursor now route) h.shardBits hsame
      refine .inr (.inl ⟨index, other, rfl, hrank, c', ?_, hreplaced⟩)
      simp [insertOver, VersionedCrdsValue.new, hover, hrank, bind, bind] at hc' ⊢
      rw [hc']
      rfl
    obtain ⟨error, c', hc', hkept⟩ := insertRefused_returns c (.new value c.cursor now route)
      other index now route
    refine .inr (.inr ⟨index, other, rfl, hrank, error, c', ?_, hkept⟩)
    simp [insertOver, VersionedCrdsValue.new, hover, hrank, bind, bind] at hc' ⊢
    rw [hc']
    rfl

/-! ## Removal -/

/-- The effect of forgetting the value that was at an index. -/
structure Unindexed (c : Crds) (v : VersionedCrdsValue) (index : ℕ) (c' : Crds) : Prop where
  table : c'.table = c.table
  cursor : c'.cursor = c.cursor
  shards : c.shards.remove index v = .ok c'.shards
  nodes : c'.nodes = if v.value.data.isContactInfo then c.nodes.swapRemove index else c.nodes
  votes : c'.votes = if v.value.data.isVote then c.votes.erase v.ordinal else c.votes
  epochSlots : c'.epochSlots =
    if v.value.data.isEpochSlots then c.epochSlots.erase v.ordinal else c.epochSlots
  duplicateShreds : c'.duplicateShreds =
    if v.value.data.isDuplicateShred then c.duplicateShreds.erase v.ordinal
    else c.duplicateShreds
  records : ∃ records, c.records[v.value.pubkey]? = some records ∧ c'.records =
    if (records.swapRemove index).len = 0 then c.records.erase v.value.pubkey
    else c.records.insert v.value.pubkey (records.swapRemove index)
  entries : c'.entries = c.entries.erase v.ordinal

/-- The effect of noting that a value moved from the end of the table to an index. -/
structure Reindexed (c : Crds) (v : VersionedCrdsValue) (size index : ℕ) (c' : Crds) : Prop where
  table : c'.table = c.table
  cursor : c'.cursor = c.cursor
  shards : ∃ s, c.shards.remove size v = .ok s ∧ s.insert index v = .ok c'.shards
  nodes : c'.nodes = if v.value.data.isContactInfo
    then (c.nodes.swapRemove size).insert index () else c.nodes
  votes : c'.votes = if v.value.data.isVote then c.votes.insert v.ordinal index else c.votes
  epochSlots : c'.epochSlots =
    if v.value.data.isEpochSlots then c.epochSlots.insert v.ordinal index else c.epochSlots
  duplicateShreds : c'.duplicateShreds =
    if v.value.data.isDuplicateShred then c.duplicateShreds.insert v.ordinal index
    else c.duplicateShreds
  records : ∃ records, c.records[v.value.pubkey]? = some records ∧ c'.records =
    c.records.insert v.value.pubkey ((records.swapRemove size).insert index ())
  entries : c'.entries = c.entries.insert v.ordinal index

variable {records : IndexSet ℕ} {size : ℕ}

lemma unindex_returns (index now : ℕ) (h : c.shards.shardBits = crdsShardsBits)
    (hrecords : c.records[v.value.pubkey]? = some records) :
    ∃ c', c.unindex v index now = .ok c' ∧ c.Unindexed v index c' := by
  obtain ⟨shards, hshards, -⟩ := remove_returns h index v
  unfold unindex removeRecord indexRemoved
  rw [hshards]
  by_cases hempty : (records.swapRemove index).len = 0
  · generalize hdata : v.value.data = data
    cases data <;>
    · simp only [bind, bind, hrecords, hempty, if_true]
      refine ⟨_, rfl, ?_⟩
      constructor <;> simp only [hdata] <;> first
        | rfl
        | exact hshards
        | exact ⟨records, hrecords, (if_pos hempty).symm⟩
  generalize hdata : v.value.data = data
  cases data <;>
  · simp only [bind, bind, hrecords, hempty, if_false]
    refine ⟨_, rfl, ?_⟩
    constructor <;> simp only [hdata] <;> first
      | rfl
      | exact hshards
      | exact ⟨records, hrecords, (if_neg hempty).symm⟩

lemma reindex_returns (size index : ℕ) (h : c.shards.shardBits = crdsShardsBits)
    (hrecords : c.records[v.value.pubkey]? = some records) :
    ∃ c', c.reindex v size index = .ok c' ∧ c.Reindexed v size index c' := by
  obtain ⟨s₁, hs₁, hbits, -⟩ := remove_returns h size v
  obtain ⟨s₂, hs₂, -⟩ := insert_returns hbits index v
  unfold reindex moveRecord indexMoved
  rw [hs₁]
  generalize hdata : v.value.data = data
  cases data <;>
  · simp only [bind, Except.bind, hs₂, hrecords]
    refine ⟨_, rfl, ?_⟩
    constructor <;> simp only [hdata] <;> first
      | rfl
      | exact ⟨s₁, hs₁, hs₂⟩
      | exact ⟨records, hrecords, rfl⟩

end Crds
end Trezoa.Gossip
