import Trezoa.AccountsDb.DeleteDependencies

/-!
# The purged accounts are the greatest set that can be purged together

* `purged_isGreatest`: the three passes together, in any order of visits.
-/

namespace Trezoa.AccountsDb

open Lib List Candidate Function

variable {env : CleanEnv} {total : ℕ → ℕ} {L candidates : List Candidate} {c : Candidate} {slot : ℕ}

lemma Candidate.mem_slots : slot ∈ c.slots ↔ ∃ item ∈ c.slotList, item.1 = slot := by
  simp [slots]

/-! ## Store counts -/

/-- The versions of candidates, with their keys. -/
def versionsOf (candidates : List Candidate) : List (ℕ × ℕ × AccountInfo) :=
  candidates.flatMap fun c => c.slotList.map fun item => (c.pubkey, item)

lemma versionsOf_slots : (versionsOf candidates).map (fun v => v.2.1) =
    (entriesOf candidates).map Prod.snd := by
  simp [versionsOf, entriesOf, map_flatMap, comp_def]

lemma mem_versionsOf {v : ℕ × ℕ × AccountInfo} :
    v ∈ versionsOf candidates ↔ ∃ c ∈ candidates, c.pubkey = v.1 ∧ v.2 ∈ c.slotList := by
  obtain ⟨key, item⟩ := v
  simp only [versionsOf, mem_flatMap, mem_map, Prod.mk.injEq]
  constructor
  · rintro ⟨c, hc, item', hitem, hkey, rfl⟩
    exact ⟨c, hc, hkey, hitem⟩
  · rintro ⟨c, hc, hkey, hitem⟩
    exact ⟨c, hc, item, hitem, hkey, rfl⟩

/-- The counts of a slot once these versions are taken out: its store is that of one of them. -/
def SlotCounted (env : CleanEnv) (versions : List (ℕ × ℕ × AccountInfo)) (slot : ℕ) :
    Option (ℕ × List ℕ) → Prop
  | none => slot ∉ versions.map fun v => v.2.1
  | some (left, keys) =>
    (∃ v ∈ versions, v.2.1 = slot ∧ env.storage slot v.2.2.storeId =
      some (left + (versions.map fun v => v.2.1).count slot)) ∧
    ∀ key, key ∈ keys ↔ ∃ v ∈ versions, v.1 = key ∧ v.2.1 = slot

variable {versions : List (ℕ × ℕ × AccountInfo)}

/-- Versions of other slots do not change the counts of a slot. -/
lemma SlotCounted.append_other {count : Option (ℕ × List ℕ)} {v : ℕ × ℕ × AccountInfo}
    (h : SlotCounted env versions slot count) (hv : v.2.1 ≠ slot) :
    SlotCounted env (versions ++ [v]) slot count := by
  cases count with
  | none =>
    simp only [SlotCounted, map_append, mem_append, not_or] at h ⊢
    exact ⟨h, by simpa using Ne.symm hv⟩
  | some entry =>
    obtain ⟨⟨u, hu, huslot, hstore⟩, hkeys⟩ := h
    refine ⟨⟨u, mem_append_left _ hu, huslot, ?_⟩, fun key => ?_⟩
    · rw [hstore, map_append, count_append]
      simp [hv]
    rw [hkeys key]
    constructor
    · rintro ⟨u, hu, h⟩
      exact ⟨u, mem_append_left _ hu, h⟩
    rintro ⟨u, hu, hkey, huslot⟩
    rcases mem_append.mp hu with hu | hu
    · exact ⟨u, hu, hkey, huslot⟩
    · rw [mem_singleton.mp hu] at huslot
      exact absurd huslot hv

/-- The keys in a slot once a version of it is taken out. -/
lemma exists_version_append {pubkey key : ℕ} {item : ℕ × AccountInfo} :
    (∃ v ∈ versions ++ [(pubkey, item)], v.1 = key ∧ v.2.1 = item.1) ↔
      key = pubkey ∨ ∃ v ∈ versions, v.1 = key ∧ v.2.1 = item.1 := by
  simp only [mem_append, mem_singleton, or_and_right, exists_or, exists_eq_left]
  rw [or_comm]
  simp [eq_comm]

variable {counts' : StoreCounts}

section
variable {counts : StoreCounts} (h : ∀ slot, SlotCounted env versions slot (counts slot))
include h

/-- One version is taken out. -/
lemma countEntry_spec {pubkey : ℕ} {item : ℕ × AccountInfo}
    (hcount : countEntry env pubkey counts item = .ok counts') (slot : ℕ) :
    SlotCounted env (versions ++ [(pubkey, item)]) slot (counts' slot) := by
  -- the counts change at the slot of the version only
  obtain ⟨entry, hupdate, hentry⟩ : ∃ entry, counts' = update counts item.1 entry ∧
      SlotCounted env (versions ++ [(pubkey, item)]) item.1 entry := by
    have hslot := h item.1
    have hcountOne : ((versions ++ [(pubkey, item)]).map fun v => v.2.1).count item.1 =
        (versions.map fun v => v.2.1).count item.1 + 1 := by
      simp [count_append]
    unfold countEntry at hcount
    split at hcount
    · next left keys hsome =>
      split at hcount
      · next hpos =>
        cases hcount
        rw [hsome] at hslot
        obtain ⟨⟨u, hu, huslot, hstore⟩, hkeys⟩ := hslot
        refine ⟨_, rfl, ⟨u, mem_append_left _ hu, huslot, ?_⟩, fun key => ?_⟩
        · rw [hstore, hcountOne, Option.some.injEq]
          omega
        · rw [mem_insert_iff, hkeys key, exists_version_append]
      · cases hcount
    next hnone =>
    rw [hnone] at hslot
    split at hcount
    · cases hcount
    split at hcount
    · cases hcount
    next count hstore =>
    split at hcount
    · next hpos =>
      cases hcount
      refine ⟨_, rfl, ⟨(pubkey, item), by simp, rfl, ?_⟩, fun key => ?_⟩
      · rw [hstore, hcountOne, count_eq_zero.mpr hslot, Option.some.injEq]
        omega
      · rw [mem_singleton, exists_version_append, or_iff_left]
        rintro ⟨v, hv, -, hvslot⟩
        exact hslot (mem_map.mpr ⟨v, hv, hvslot⟩)
    · cases hcount
  rw [hupdate]
  by_cases hs : slot = item.1
  · rw [hs, update_self]
    exact hentry
  · rw [update_of_ne hs]
    exact (h slot).append_other (Ne.symm hs)

/-- The versions of one candidate are taken out. -/
lemma countEntries_spec {items : List (ℕ × AccountInfo)} {pubkey : ℕ}
    (hcount : items.foldlM (countEntry env pubkey) counts = .ok counts') (slot : ℕ) :
    SlotCounted env (versions ++ items.map fun item => (pubkey, item)) slot (counts' slot) := by
  induction items generalizing versions counts with
  | nil =>
    cases hcount
    simpa using h slot
  | cons item items ih =>
    obtain ⟨counts₁, h₁, hcount⟩ := foldlM_cons_eq_ok.mp hcount
    have := ih (countEntry_spec h h₁) hcount
    rwa [append_assoc] at this

/-- The versions of all candidates are taken out. -/
lemma countCandidates_spec (hcount : candidates.foldlM (countCandidate env) counts = .ok counts')
    (slot : ℕ) :
    SlotCounted env (versions ++ versionsOf (candidates.map (retainSlots env))) slot
      (counts' slot) := by
  induction candidates generalizing versions counts with
  | nil =>
    cases hcount
    simpa [versionsOf] using h slot
  | cons c candidates ih =>
    obtain ⟨counts₁, h₁, hcount⟩ := foldlM_cons_eq_ok.mp hcount
    unfold countCandidate at h₁
    split at h₁
    · cases h₁
    · have := ih (countEntries_spec h h₁) hcount
      rwa [append_assoc] at this

end

/-- Counts of stores that have `total` accounts, less the candidates. -/
structure IsTable (total : ℕ → ℕ) (candidates : List Candidate) (counts : StoreCounts) : Prop where
  none : ∀ slot, counts slot = none → ∀ c ∈ candidates, slot ∉ c.slots
  left : ∀ slot left keys, counts slot = some (left, keys) →
    left = total slot - ((entriesOf candidates).map Prod.snd).count slot
  keys : ∀ slot left keys, counts slot = some (left, keys) →
    ∀ key, key ∈ keys ↔ ∃ c ∈ candidates, c.pubkey = key ∧ slot ∈ c.slots

/-- What `total` is for candidates: the accounts in the store of one of the versions in a slot,
which has at least as many accounts as candidates. -/
def IsTotal (env : CleanEnv) (candidates : List Candidate) (total : ℕ → ℕ) : Prop :=
  ∀ slot, (∃ c ∈ candidates, slot ∈ c.slots) →
    ((entriesOf candidates).map Prod.snd).count slot ≤ total slot ∧
    ∃ c ∈ candidates, ∃ item ∈ c.slotList, item.1 = slot ∧
      env.storage slot item.2.storeId = some (total slot)

/-- The store counts are those of the stores less the candidates. -/
theorem collectStoreCounts_spec {counts : StoreCounts}
    (h : collectStoreCounts env candidates = .ok (counts, L)) :
    L = candidates.map (retainSlots env) ∧
      ∃ total, IsTotal env L total ∧ IsTable total L counts := by
  obtain ⟨counts', hcount, heq⟩ := map_eq_ok.mp h
  cases heq
  refine ⟨rfl, ?_⟩
  have hempty : ∀ slot, SlotCounted env [] slot none := fun slot => not_mem_nil
  have hspec := countCandidates_spec hempty hcount
  simp only [nil_append] at hspec
  generalize candidates.map (retainSlots env) = L at hspec ⊢
  have hmem : ∀ slot, slot ∈ (versionsOf L).map (fun v => v.2.1) ↔ ∃ c ∈ L, slot ∈ c.slots := by
    intro slot
    simp only [mem_map, mem_versionsOf, mem_slots]
    constructor
    · rintro ⟨v, ⟨c, hc, -, hv⟩, hslot⟩
      exact ⟨c, hc, v.2, hv, hslot⟩
    · rintro ⟨c, hc, item, hitem, hslot⟩
      exact ⟨(c.pubkey, item), ⟨c, hc, rfl, hitem⟩, hslot⟩
  refine ⟨fun slot => ((counts slot).map Prod.fst).getD 0 +
    ((entriesOf L).map Prod.snd).count slot, ?_, ?_, ?_, ?_⟩
  · intro slot hslot
    have := hspec slot
    cases hc : counts slot with
    | none =>
      rw [hc] at this
      exact absurd ((hmem slot).mpr hslot) this
    | some entry =>
      rw [hc] at this
      obtain ⟨⟨v, hv, hvslot, hstore⟩, -⟩ := this
      obtain ⟨c, hcL, -, hitem⟩ := mem_versionsOf.mp hv
      refine ⟨Nat.le_add_left _ _, c, hcL, v.2, hitem, hvslot, ?_⟩
      rw [hstore, versionsOf_slots]
      simp [hc]
  · intro slot hnone c hc hslot
    have := hspec slot
    rw [hnone] at this
    exact this ((hmem slot).mpr ⟨c, hc, hslot⟩)
  · intro slot left keys hsome
    simp [hsome]
  intro slot left keys hsome key
  have := hspec slot
  rw [hsome] at this
  rw [this.2 key]
  constructor
  · rintro ⟨v, hv, hkey, hslot⟩
    obtain ⟨c, hc, hpub, hitem⟩ := mem_versionsOf.mp hv
    exact ⟨c, hc, hpub.trans hkey, mem_slots.mpr ⟨v.2, hitem, hslot⟩⟩
  · rintro ⟨c, hc, hkey, hslot⟩
    obtain ⟨item, hitem, hslot⟩ := mem_slots.mp hslot
    exact ⟨(c.pubkey, item), mem_versionsOf.mpr ⟨c, hc, rfl, hitem⟩, hkey, hslot⟩

/-! ## Blocked stores -/

/-- A store that holds no candidate of any set that can be purged. -/
def Blocked (total : ℕ → ℕ) (L : List Candidate) (slot : ℕ) : Prop :=
  ∀ keys, Purgeable total L keys → ∀ c ∈ L, c.pubkey ∈ keys → slot ∉ c.slots

/-- The stores of a candidate that is in no set that can be purged are blocked. -/
lemma blocked_of_not_mem (hc : c ∈ L) (h : ∀ keys, Purgeable total L keys → c.pubkey ∉ keys)
    (hslot : slot ∈ c.slots) : Blocked total L slot := by
  intro keys hkeys c' hc' hmem hslot'
  exact h keys hkeys (hkeys.closed c' hc' hmem slot hslot' c hc hslot)

/-- A candidate with a blocked store has only blocked stores. -/
lemma Blocked.of_shared {slot' : ℕ} (h : Blocked total L slot) (hc : c ∈ L) (hslot : slot ∈ c.slots)
    (hslot' : slot' ∈ c.slots) : Blocked total L slot' :=
  blocked_of_not_mem hc (fun keys hkeys hmem => h keys hkeys c hc hmem hslot) hslot'

/-- The slots of candidates. -/
def allSlots (L : List Candidate) : Finset ℕ := ((entriesOf L).map Prod.snd).toFinset

lemma mem_allSlots : slot ∈ allSlots L ↔ ∃ c ∈ L, slot ∈ c.slots := by
  simp only [allSlots, entriesOf, mem_toFinset, mem_map, mem_flatMap, mem_slots]
  constructor
  · rintro ⟨entry, ⟨c, hc, item, hitem, rfl⟩, hslot⟩
    exact ⟨c, hc, item, hitem, hslot⟩
  · rintro ⟨c, hc, item, hitem, hslot⟩
    exact ⟨(c.pubkey, item.1), ⟨c, hc, item, hitem, rfl⟩, hslot⟩

/-! ## The loop -/

namespace Worklist

/-- The stores that are taken out or will be. -/
def reached (w : Worklist) : Finset ℕ := w.alreadyCounted ∪ w.pendingStores

variable {w : Worklist}

lemma mem_reached :
    slot ∈ w.reached ↔ slot ∈ w.alreadyCounted ∨ slot ∈ w.pendingStores := Finset.mem_union

lemma reached_of_empty (hempty : w.pendingStores = ∅) : w.reached = w.alreadyCounted := by
  rw [reached, hempty, Finset.union_empty]

/-- The work list: only blocked stores are reached, and what shares a candidate with a store that is
taken out is reached. -/
structure Inv (total : ℕ → ℕ) (L : List Candidate) (counts : StoreCounts) (w : Worklist) :
    Prop where
  counts : ∀ slot, w.storeCounts slot = if slot ∈ w.alreadyCounted then none else counts slot
  blocked : ∀ slot ∈ w.reached, Blocked total L slot
  known : w.reached ⊆ allSlots L
  closed : ∀ slot ∈ w.alreadyCounted, ∀ c ∈ L, slot ∈ c.slots → c.slots ⊆ w.reached

/-- Goes down in every round. -/
def work (L : List Candidate) (w : Worklist) : ℕ :=
  (allSlots L \ w.alreadyCounted).card * ((allSlots L).card + 1) + w.pendingStores.card

end Worklist

open Worklist

/-- The rounds that are enough for any work list. -/
def enoughRounds (L : List Candidate) : ℕ :=
  (allSlots L).card * ((allSlots L).card + 1) + (allSlots L).card + 1

variable {counts : StoreCounts} {visits : Visits} {w : Worklist}

lemma Worklist.Inv.work_lt (h : w.Inv total L counts) : w.work L < enoughRounds L := by
  have hout : (allSlots L \ w.alreadyCounted).card ≤ (allSlots L).card :=
    Finset.card_le_card Finset.sdiff_subset
  have hpending : w.pendingStores.card ≤ (allSlots L).card :=
    Finset.card_le_card (Finset.subset_union_right.trans h.known)
  have := Nat.mul_le_mul_right ((allSlots L).card + 1) hout
  unfold work enoughRounds
  omega

/-- Distinct keys: a candidate is found by its key. -/
lemma find?_pubkey (hnodup : (L.map pubkey).Nodup) (hc : c ∈ L) :
    (L.find? fun c' => decide (c'.pubkey = c.pubkey)) = some c := by
  induction L with
  | nil => cases hc
  | cons a L ih =>
    rw [map_cons, nodup_cons] at hnodup
    rcases mem_cons.mp hc with rfl | hc
    · simp
    · have hne : a.pubkey ≠ c.pubkey := fun heq => hnodup.1 (heq ▸ mem_map_of_mem hc)
      rw [find?_cons_of_neg (by simpa using hne)]
      exact ih hnodup.2 hc

lemma eq_of_pubkey {c' : Candidate} (hnodup : (L.map pubkey).Nodup) (hc : c ∈ L)
    (hc' : c' ∈ L) (h : c.pubkey = c'.pubkey) : c = c' :=
  inj_on_of_nodup_map hnodup hc hc' h

/-- The stores of the candidates in a store are added. -/
lemma updatePendingStores_spec {keys : List ℕ} {counted pending : Finset ℕ}
    (hnodup : (L.map pubkey).Nodup) (hkeys : ∀ key ∈ keys, ∃ c ∈ L, c.pubkey = key) :
    ∃ pending', keys.foldlM (updatePendingStores L counted) pending = .ok pending' ∧
      ∀ slot, slot ∈ pending' ↔ slot ∈ pending ∨
        slot ∉ counted ∧ ∃ c ∈ L, c.pubkey ∈ keys ∧ slot ∈ c.slots := by
  induction keys generalizing pending with
  | nil => exact ⟨pending, rfl, fun slot => by simp⟩
  | cons key keys ih =>
    obtain ⟨c, hc, rfl⟩ := hkeys key (.head _)
    obtain ⟨pending', hloop, hmem⟩ := @ih (pending ∪ c.slots \ counted) fun key hkey =>
      hkeys key (.tail _ hkey)
    refine ⟨pending', foldlM_cons_eq_ok.mpr ⟨_, ?_, hloop⟩, fun slot => ?_⟩
    · simp [updatePendingStores, find?_pubkey hnodup hc]
    rw [hmem slot, Finset.mem_union, Finset.mem_sdiff]
    constructor
    · rintro ((h | ⟨hslot, hnot⟩) | ⟨hnot, c', hc', hkey, hslot⟩)
      · exact .inl h
      · exact .inr ⟨hnot, c, hc, .head _, hslot⟩
      · exact .inr ⟨hnot, c', hc', .tail _ hkey, hslot⟩
    rintro (h | ⟨hnot, c', hc', hkey, hslot⟩)
    · exact .inl (.inl h)
    rcases mem_cons.mp hkey with heq | hkey
    · rw [eq_of_pubkey hnodup hc' hc heq] at hslot
      exact .inl (.inr ⟨hslot, hnot⟩)
    · exact .inr ⟨hnot, c', hc', hkey, hslot⟩

/-- A round that takes out a store: it was pending, all that shares a candidate with it is pending
or taken out, and nothing else is new. -/
lemma Worklist.Inv.takeOut {pending : Finset ℕ} {round : ℕ}
    (h : w.Inv total L counts) (hpending : slot ∈ w.pendingStores) (hnew : slot ∉ w.alreadyCounted)
    (hcounts : ∀ s, counts' s = if s = slot then none else w.storeCounts s)
    (hmem : ∀ s, s ∈ pending ↔ s ∈ w.pendingStores.erase slot ∨
      s ∉ insert slot w.alreadyCounted ∧ ∃ c ∈ L, slot ∈ c.slots ∧ s ∈ c.slots) :
    let w' : Worklist := ⟨counts', insert slot w.alreadyCounted, pending, round⟩
    w'.Inv total L counts ∧ w.reached ⊆ w'.reached ∧ w'.work L < w.work L := by
  intro w'
  have hreached : ∀ s, s ∈ w'.reached ↔ s ∈ w.reached ∨ ∃ c ∈ L, slot ∈ c.slots ∧ s ∈ c.slots := by
    intro s
    rw [mem_reached, mem_reached]
    rw [hmem s, Finset.mem_erase, Finset.mem_insert]
    by_cases hs : s = slot
    · subst hs
      simp [hpending]
    · tauto
  have hinv : w'.Inv total L counts := by
    refine ⟨fun s => ?_, fun s hs => ?_, fun s hs => ?_, fun s hs c hc hslot t ht => ?_⟩
    · change counts' s = if s ∈ insert slot w.alreadyCounted then none else counts s
      rw [hcounts s, h.counts s]
      by_cases hs : s = slot <;> simp [hs]
    · rcases (hreached s).mp hs with hs | ⟨c, hc, hslot, hs⟩
      · exact h.blocked s hs
      · exact (h.blocked slot (mem_reached.mpr (.inr hpending))).of_shared hc hslot hs
    · rcases (hreached s).mp hs with hs | ⟨c, hc, -, hs⟩
      · exact h.known hs
      · exact mem_allSlots.mpr ⟨c, hc, hs⟩
    · refine (hreached t).mpr ?_
      rcases Finset.mem_insert.mp hs with rfl | hs
      · exact .inr ⟨c, hc, hslot, ht⟩
      · exact .inl (h.closed s hs c hc hslot ht)
  refine ⟨hinv, fun s hs => (hreached s).mpr (.inl hs), ?_⟩
  have hslot : slot ∈ allSlots L \ w.alreadyCounted :=
    Finset.mem_sdiff.mpr ⟨h.known (mem_reached.mpr (.inr hpending)), hnew⟩
  have hcard : (allSlots L \ insert slot w.alreadyCounted).card <
      (allSlots L \ w.alreadyCounted).card := by
    rw [Finset.sdiff_insert]
    exact Finset.card_erase_lt_of_mem hslot
  have hle : pending.card ≤ (allSlots L).card :=
    Finset.card_le_card (Finset.subset_union_right.trans hinv.known)
  have := Nat.mul_le_mul_right ((allSlots L).card + 1) hcard
  rw [Nat.succ_mul] at this
  change (allSlots L \ insert slot w.alreadyCounted).card * ((allSlots L).card + 1) + pending.card <
    (allSlots L \ w.alreadyCounted).card * ((allSlots L).card + 1) + w.pendingStores.card
  omega

section
variable (visits) (hnodup : (L.map pubkey).Nodup) (htable : IsTable total L counts)
  (h : w.Inv total L counts)
include hnodup htable h

/-- A round of the loop. -/
theorem takeOut_spec (hne : w.pendingStores ≠ ∅) :
    ∃ w', takeOut visits L w = .ok (some w') ∧ w'.Inv total L counts ∧ w.reached ⊆ w'.reached ∧
      w'.work L < w.work L := by
  have hpending := visits.pick_mem w.round _ (Finset.nonempty_iff_ne_empty.mpr hne)
  unfold takeOut
  rw [if_neg hne]
  generalize visits.pick w.round w.pendingStores = slot at hpending ⊢
  by_cases hcounted : slot ∈ w.alreadyCounted
  · rw [if_pos hcounted]
    refine ⟨_, rfl, ?_⟩
    have hreached : w.alreadyCounted ∪ w.pendingStores.erase slot = w.reached := by
      ext s
      by_cases hs : s = slot
      · simp [reached, hs, hcounted]
      · simp [reached, hs]
    refine ⟨⟨h.counts, fun s hs => h.blocked s (hreached.le hs), hreached.le.trans h.known,
      fun s hs c hc hsc => (h.closed s hs c hc hsc).trans hreached.ge⟩,
      hreached.ge, ?_⟩
    exact Nat.add_lt_add_left (Finset.card_erase_lt_of_mem hpending) _
  rw [if_neg hcounted]
  have hw : w.storeCounts slot = counts slot := by rw [h.counts, if_neg hcounted]
  rw [hw]
  cases hc : counts slot with
  | none =>
    refine ⟨_, rfl, h.takeOut hpending hcounted (fun s => ?_) fun s => ?_⟩
    · by_cases hs : s = slot
      · rw [if_pos hs, hs, hw, hc]
      · rw [if_neg hs]
    constructor
    · exact .inl
    · rintro (hs | ⟨-, c, hcL, hsc, -⟩)
      · exact hs
      · exact absurd hsc (htable.none slot hc c hcL)
  | some entry =>
    obtain ⟨left, keys⟩ := entry
    have hkeys := htable.keys slot left keys hc
    have horder : ∀ key, key ∈ visits.order w.round keys ↔ key ∈ keys := fun key =>
      (visits.order_perm w.round keys).mem_iff
    obtain ⟨pending', hloop, hmem⟩ := @updatePendingStores_spec L
      (visits.order w.round keys) (insert slot w.alreadyCounted) (w.pendingStores.erase slot)
      hnodup fun key hkey => by
        obtain ⟨c, hcL, hpub, -⟩ := (hkeys key).mp ((horder key).mp hkey)
        exact ⟨c, hcL, hpub⟩
    refine ⟨_, map_eq_ok.mpr ⟨pending', hloop, rfl⟩,
      h.takeOut hpending hcounted (fun s => ?_) fun s => ?_⟩
    · rw [update_apply]
    rw [hmem s]
    refine or_congr_right (and_congr_right fun _ => ?_)
    constructor
    · rintro ⟨c, hcL, hkey, hs⟩
      obtain ⟨c', hc', hpub, hslot'⟩ := (hkeys _).mp ((horder _).mp hkey)
      rw [eq_of_pubkey hnodup hc' hcL hpub] at hslot'
      exact ⟨c, hcL, hslot', hs⟩
    · rintro ⟨c, hcL, hsc, hs⟩
      exact ⟨c, hcL, (horder _).mpr ((hkeys _).mpr ⟨c, hcL, rfl, hsc⟩), hs⟩

lemma takeOut_cases : w.pendingStores = ∅ ∧ takeOut visits L w = .ok none ∨
    ∃ w', takeOut visits L w = .ok (some w') ∧ w'.Inv total L counts ∧ w.reached ⊆ w'.reached ∧
      w'.work L < w.work L := by
  by_cases hempty : w.pendingStores = ∅
  · exact .inl ⟨hempty, if_pos hempty⟩
  · exact .inr (takeOut_spec visits hnodup htable h hempty)

variable {fuel : ℕ} (hfuel : enoughRounds L ≤ fuel)
include hfuel

/-- The loop ends, with all that was reached taken out. -/
theorem takeOut_loop :
    ∃ w', whileLoop (takeOut visits L) .outOfFuel fuel w = .ok w' ∧ w'.Inv total L counts ∧
      w'.pendingStores = ∅ ∧ w.reached ⊆ w'.alreadyCounted := by
  have hround : ∀ s s', (s.Inv total L counts ∧ w.reached ⊆ s.reached) →
      takeOut visits L s = .ok (some s') →
      (s'.Inv total L counts ∧ w.reached ⊆ s'.reached) ∧ s'.work L < s.work L := by
    rintro s s' ⟨hs, hsub⟩ hs'
    obtain ⟨-, h₁⟩ | ⟨s₁, h₁, hinv, hgrow, hlt⟩ := takeOut_cases visits hnodup htable hs
    · cases hs'.symm.trans h₁
    · cases hs'.symm.trans h₁
      exact ⟨⟨hinv, hsub.trans hgrow⟩, hlt⟩
  have hok : ∀ s e, (s.Inv total L counts ∧ w.reached ⊆ s.reached) →
      takeOut visits L s ≠ .error e := by
    rintro s e ⟨hs, -⟩ herror
    obtain ⟨-, h₁⟩ | ⟨_, h₁, -⟩ := takeOut_cases visits hnodup htable hs
    · cases herror.symm.trans h₁
    · cases herror.symm.trans h₁
  obtain ⟨w', hloop, ⟨hinv, hsub⟩, hdone⟩ := whileLoop_returns _ (work L) hround hok
    ⟨h, Finset.Subset.refl _⟩ (h.work_lt.trans_le hfuel)
  obtain ⟨hempty, -⟩ | ⟨_, h₁, -⟩ := takeOut_cases visits hnodup htable hinv
  · exact ⟨w', hloop, hinv, hempty, reached_of_empty hempty ▸ hsub⟩
  · cases hdone.symm.trans h₁

end

/-! ## All candidates -/

/-- Whether the counts of a slot say that its store can be deleted. -/
def Deletable (counts : StoreCounts) (slot : ℕ) : Prop := (counts slot).map Prod.fst = some 0

lemma storesDeleted_iff : storesDeleted counts c = true ↔
    ∀ slot ∈ c.slots, Deletable counts slot := by
  simp only [storesDeleted, Deletable, all_eq_true, decide_eq_true_eq, mem_slots]
  refine ⟨?_, fun h item hitem => h item.1 ⟨item, hitem, rfl⟩⟩
  rintro h slot ⟨item, hitem, rfl⟩
  exact h item hitem

lemma canDelete_iff : canDelete counts c = true ↔
    c.slotList.length = c.refCount ∧ ∀ slot ∈ c.slots, Deletable counts slot := by
  rw [← storesDeleted_iff, canDelete, Bool.and_eq_true, decide_eq_true_eq]
  rfl

/-- The store of a candidate can be deleted iff it holds candidates only. -/
lemma IsTable.deletable_iff (htable : IsTable total L counts) (hc : c ∈ L)
    (hslot : slot ∈ c.slots) :
    Deletable counts slot ↔ total slot - ((entriesOf L).map Prod.snd).count slot = 0 := by
  unfold Deletable
  cases h : counts slot with
  | none => exact absurd hslot (htable.none slot h c hc)
  | some entry =>
    rw [← htable.left slot entry.1 entry.2 h]
    simp

/-- A store can be deleted iff it could at first, and is not taken out. -/
lemma Worklist.Inv.deletable_iff (h : w.Inv total L counts) :
    Deletable w.storeCounts slot ↔ slot ∉ w.alreadyCounted ∧ Deletable counts slot := by
  unfold Deletable
  rw [h.counts slot]
  by_cases hs : slot ∈ w.alreadyCounted <;> simp [hs]

/-- The stores of a candidate that cannot be deleted are blocked. -/
lemma Worklist.Inv.blocked_of_not_canDelete (htable : IsTable total L counts)
    (h : w.Inv total L counts) (hc : c ∈ L) (hnot : ¬ canDelete w.storeCounts c = true)
    (hslot : slot ∈ c.slots) : Blocked total L slot := by
  refine blocked_of_not_mem hc (fun keys hkeys hmem => hnot (canDelete_iff.mpr ?_)) hslot
  refine ⟨hkeys.refCount c hc hmem, fun s hs => h.deletable_iff.mpr ⟨fun hcounted => ?_, ?_⟩⟩
  · exact h.blocked s (mem_reached.mpr (.inl hcounted)) keys hkeys c hc hmem hs
  · exact (htable.deletable_iff hc hs).mpr (hkeys.empty c hc hmem s hs)

/-- A candidate is settled: its stores are taken out, or it could be deleted at first. -/
def Settled (counts : StoreCounts) (w : Worklist) (c : Candidate) : Prop :=
  c.slots ⊆ w.alreadyCounted ∨
    c.slotList.length = c.refCount ∧ ∀ slot ∈ c.slots, Deletable counts slot

lemma Settled.mono {w' : Worklist} (h : Settled counts w c)
    (hsub : w.alreadyCounted ⊆ w'.alreadyCounted) : Settled counts w' c :=
  h.imp_left fun hslots => hslots.trans hsub

section
variable (hnodup : (L.map pubkey).Nodup) (htable : IsTable total L counts)
  (h : w.Inv total L counts) (hempty : w.pendingStores = ∅)
include hnodup htable h hempty

section
variable (visits) {fuel : ℕ} (hfuel : enoughRounds L ≤ fuel)
include hfuel

/-- One candidate is settled. -/
lemma calcDependencies_spec (hc : c ∈ L) :
    ∃ w', calcDependencies visits L fuel w c = .ok w' ∧ w'.Inv total L counts ∧
      w'.pendingStores = ∅ ∧ w.alreadyCounted ⊆ w'.alreadyCounted ∧ Settled counts w' c := by
  unfold calcDependencies
  by_cases hcan : canDelete w.storeCounts c = true
  · rw [if_pos hcan]
    obtain ⟨hcount, hslots⟩ := canDelete_iff.mp hcan
    exact ⟨w, rfl, h, hempty, Finset.Subset.refl _,
      .inr ⟨hcount, fun s hs => (h.deletable_iff.mp (hslots s hs)).2⟩⟩
  rw [if_neg hcan]
  obtain ⟨w₁, hw₁⟩ : ∃ w₁ : Worklist,
    w₁ = { w with pendingStores := c.slots \ w.alreadyCounted } := ⟨_, rfl⟩
  rw [← hw₁]
  have hreached : ∀ s, s ∈ w₁.reached ↔ s ∈ w.alreadyCounted ∨ s ∈ c.slots := by
    intro s
    rw [hw₁, mem_reached, Finset.mem_sdiff]
    tauto
  have hinv : w₁.Inv total L counts := by
    refine ⟨?_, fun s hs => ?_, fun s hs => ?_, fun s hs c' hc' hsc t ht => ?_⟩
    · rw [hw₁]
      exact h.counts
    · rcases (hreached s).mp hs with hs | hs
      · exact h.blocked s (mem_reached.mpr (.inl hs))
      · exact h.blocked_of_not_canDelete htable hc hcan hs
    · rcases (hreached s).mp hs with hs | hs
      · exact h.known (mem_reached.mpr (.inl hs))
      · exact mem_allSlots.mpr ⟨c, hc, hs⟩
    · rw [hw₁] at hs
      exact (hreached t).mpr (.inl (reached_of_empty hempty ▸ h.closed s hs c' hc' hsc ht))
  obtain ⟨w', hloop, hinv', hempty', hsub⟩ := takeOut_loop visits hnodup htable hinv hfuel
  exact ⟨w', hloop, hinv', hempty', fun s hs => hsub ((hreached s).mpr (.inl hs)),
    .inl fun s hs => hsub ((hreached s).mpr (.inr hs))⟩

/-- All candidates of a part of the list are settled. -/
lemma calcDependencies_loop {l : List Candidate} (hl : ∀ c ∈ l, c ∈ L) :
    ∃ w', l.foldlM (calcDependencies visits L fuel) w = .ok w' ∧ w'.Inv total L counts ∧
      w'.pendingStores = ∅ ∧ w.alreadyCounted ⊆ w'.alreadyCounted ∧
      ∀ c ∈ l, Settled counts w' c := by
  induction l generalizing w with
  | nil => exact ⟨w, rfl, h, hempty, Finset.Subset.refl _, nofun⟩
  | cons a l ih =>
    obtain ⟨w₁, h₁, hinv₁, hempty₁, hsub₁, hset₁⟩ :=
      calcDependencies_spec visits hnodup htable h hempty hfuel (hl a (.head _))
    obtain ⟨w', h', hinv, hempty', hsub, hset⟩ := ih hinv₁ hempty₁ fun c hc => hl c (.tail _ hc)
    exact ⟨w', foldlM_cons_eq_ok.mpr ⟨w₁, h₁, h'⟩, hinv, hempty', hsub₁.trans hsub,
      forall_mem_cons.mpr ⟨hset₁.mono hsub, hset⟩⟩

end

/-- The keys of the candidates whose stores can all be deleted. -/
def deletedKeys (L : List Candidate) (counts : StoreCounts) : Set ℕ :=
  {key | ∃ c ∈ L, c.pubkey = key ∧ storesDeleted counts c = true}

/-- Once every candidate is settled, those with all stores left can be purged together. -/
lemma purgeable_deletedKeys (hne : ∀ c ∈ L, c.slotList ≠ [])
    (hset : ∀ c ∈ L, Settled counts w c) :
    Purgeable total L (deletedKeys L w.storeCounts) := by
  have hdel : ∀ c ∈ L, c.pubkey ∈ deletedKeys L w.storeCounts →
      ∀ slot ∈ c.slots, slot ∉ w.alreadyCounted ∧ Deletable counts slot := by
    rintro c hc ⟨c', hc', hpub, hdel⟩ slot hslot
    rw [eq_of_pubkey hnodup hc' hc hpub] at hdel
    exact h.deletable_iff.mp (storesDeleted_iff.mp hdel slot hslot)
  refine ⟨?_, ?_, ?_, ?_⟩
  · rintro key ⟨c, hc, hpub, -⟩
    exact ⟨c, hc, hpub⟩
  · intro c hc hmem
    -- a candidate has a version, so its stores are not all taken out
    obtain ⟨item, hitem⟩ := exists_mem_of_ne_nil _ (hne c hc)
    have hslot : item.1 ∈ c.slots := mem_slots.mpr ⟨item, hitem, rfl⟩
    rcases hset c hc with hout | ⟨hcount, -⟩
    · exact absurd (hout hslot) (hdel c hc hmem _ hslot).1
    · exact hcount
  · intro c hc hmem slot hslot
    exact (htable.deletable_iff hc hslot).mp (hdel c hc hmem slot hslot).2
  intro c hc hmem slot hslot c' hc' hslot'
  have hleft := (hdel c hc hmem slot hslot).1
  refine ⟨c', hc', rfl, storesDeleted_iff.mpr fun t ht => h.deletable_iff.mpr ⟨fun hout => ?_, ?_⟩⟩
  · exact hleft (reached_of_empty hempty ▸ h.closed t hout c' hc' ht hslot')
  · rcases hset c' hc' with hall | ⟨-, hall⟩
    · exact absurd (hall hslot') hleft
    · exact hall t ht

end

/-- The candidates with all stores left are the greatest set that can be purged together. -/
theorem calcDeleteDependencies_spec (visits : Visits) {fuel : ℕ} (hnodup : (L.map pubkey).Nodup)
    (hne : ∀ c ∈ L, c.slotList ≠ []) (htable : IsTable total L counts)
    (hfuel : enoughRounds L ≤ fuel) :
    ∃ counts', calcDeleteDependencies visits L fuel counts = .ok counts' ∧
      IsGreatest {keys | Purgeable total L keys} (deletedKeys L counts') := by
  have hstart : Worklist.Inv total L counts { storeCounts := counts } :=
    ⟨by simp, by simp [reached], by simp [reached], by simp⟩
  obtain ⟨w, hloop, hinv, hempty, -, hset⟩ :=
    calcDependencies_loop visits hnodup htable hstart rfl hfuel fun c (hc : c ∈ L) => hc
  refine ⟨w.storeCounts, map_eq_ok.mpr ⟨w, hloop, rfl⟩,
    purgeable_deletedKeys hnodup htable hinv hempty hne hset, ?_⟩
  intro keys hkeys key hkey
  obtain ⟨c, hc, rfl⟩ := hkeys.candidate key hkey
  refine ⟨c, hc, rfl, storesDeleted_iff.mpr fun slot hslot =>
    hinv.deletable_iff.mpr ⟨fun hout => ?_, ?_⟩⟩
  · exact hinv.blocked slot (mem_reached.mpr (.inl hout)) keys hkeys c hc hkey hslot
  · exact (htable.deletable_iff hc hslot).mpr (hkeys.empty c hc hkey slot hslot)

/-! ## Any order -/

section Perm
variable {L' : List Candidate} (h : L'.Perm L)
include h

lemma entriesOf_count_perm :
    ((entriesOf L').map Prod.snd).count slot = ((entriesOf L).map Prod.snd).count slot :=
  ((h.flatMap_right _).map _).count_eq slot

lemma IsTable.perm (htable : IsTable total L counts) : IsTable total L' counts where
  none slot hnone c hc := htable.none slot hnone c (h.mem_iff.mp hc)
  left slot left keys hsome := by
    rw [entriesOf_count_perm h]
    exact htable.left slot left keys hsome
  keys slot left keys hsome key := by
    simp only [h.mem_iff]
    exact htable.keys slot left keys hsome key

lemma Purgeable.perm {keys : Set ℕ} (hkeys : Purgeable total L keys) : Purgeable total L' keys where
  candidate key hkey := by
    obtain ⟨c, hc, hpub⟩ := hkeys.candidate key hkey
    exact ⟨c, h.mem_iff.mpr hc, hpub⟩
  refCount c hc := hkeys.refCount c (h.mem_iff.mp hc)
  empty c hc hmem slot hslot := by
    rw [entriesOf_count_perm h]
    exact hkeys.empty c (h.mem_iff.mp hc) hmem slot hslot
  closed c hc hmem slot hslot c' hc' :=
    hkeys.closed c (h.mem_iff.mp hc) hmem slot hslot c' (h.mem_iff.mp hc')

lemma purgeable_perm_iff {keys : Set ℕ} : Purgeable total L' keys ↔ Purgeable total L keys :=
  ⟨fun hkeys => hkeys.perm h.symm, fun hkeys => hkeys.perm h⟩

lemma deletedKeys_perm : deletedKeys L' counts = deletedKeys L counts := by
  ext key
  simp [deletedKeys, h.mem_iff]

end Perm

/-! ## The filter -/

lemma newestEntry_of_ne_nil {l : List (ℕ × AccountInfo)} (h : l ≠ []) :
    ∃ item, newestEntry l = some item := by
  cases l with
  | nil => exact absurd rfl h
  | cons a l =>
    rw [newestEntry]
    cases newestEntry l with
    | none => exact ⟨a, rfl⟩
    | some best =>
      by_cases hlt : best.1 < a.1
      · exact ⟨a, if_pos hlt⟩
      · exact ⟨best, if_neg hlt⟩

/-- The newest entry has the greatest slot. -/
lemma newestEntry_spec {l : List (ℕ × AccountInfo)} {item : ℕ × AccountInfo}
    (h : newestEntry l = some item) : item ∈ l ∧ ∀ item' ∈ l, item'.1 ≤ item.1 := by
  induction l generalizing item with
  | nil => cases h
  | cons a l ih =>
    rw [newestEntry] at h
    split at h
    · next hnone =>
      cases h
      obtain rfl : l = [] := by
        by_contra hne
        obtain ⟨_, hsome⟩ := newestEntry_of_ne_nil hne
        cases hnone.symm.trans hsome
      exact ⟨.head _, fun item' hitem' => (mem_singleton.mp hitem') ▸ le_rfl⟩
    next best hbest =>
    obtain ⟨hmem, hle⟩ := ih hbest
    split at h
    · next hlt =>
      cases h
      refine ⟨.head _, fun item' hitem' => ?_⟩
      rcases mem_cons.mp hitem' with rfl | hitem'
      · exact le_rfl
      · exact (hle item' hitem').trans hlt.le
    next hnot =>
    cases h
    refine ⟨.tail _ hmem, fun item' hitem' => ?_⟩
    rcases mem_cons.mp hitem' with rfl | hitem'
    · exact not_lt.mp hnot
    · exact hle item' hitem'

/-- The newest slot of a candidate is its greatest. -/
lemma isGreatest_newestEntry {item : ℕ × AccountInfo} (h : newestEntry c.slotList = some item) :
    IsGreatest (c.slots : Set ℕ) item.1 := by
  obtain ⟨hmem, hle⟩ := newestEntry_spec h
  refine ⟨mem_slots.mpr ⟨item, hmem, rfl⟩, fun slot hslot => ?_⟩
  obtain ⟨item', hitem', rfl⟩ := mem_slots.mp hslot
  exact hle item' hitem'

/-- Whether the filter keeps a candidate. -/
def keeps (shouldFilter : Bool) (full : ℕ) (counts : StoreCounts) (c : Candidate) : Bool :=
  storesDeleted counts c && (!shouldFilter ||
    (newestEntry c.slotList).any fun item => decide (item.1 ≤ full))

/-- What the filter remembers of a candidate. -/
def remembers (shouldFilter : Bool) (full : ℕ) (counts : StoreCounts) (c : Candidate) :
    Option (ℕ × ℕ) :=
  if storesDeleted counts c && shouldFilter then
    ((newestEntry c.slotList).filter fun item => decide (full < item.1)).map fun item =>
      (item.1, c.pubkey)
  else none

/-- The filter is a test of each candidate. -/
lemma filterCandidate_loop {shouldFilter : Bool} {latest : Option ℕ} {full : ℕ}
    {st : List Candidate × List (ℕ × ℕ)} (hlatest : shouldFilter = true → latest = some full)
    (hne : ∀ c ∈ L, c.slotList ≠ [])
    (hzero : shouldFilter = true → ∀ c ∈ L, storesDeleted counts c = true →
      ∀ item, newestEntry c.slotList = some item → item.2.isZeroLamport = true) :
    L.foldlM (filterCandidate shouldFilter latest counts) st =
      .ok (st.1 ++ L.filter (keeps shouldFilter full counts),
        st.2 ++ L.filterMap (remembers shouldFilter full counts)) := by
  induction L generalizing st with
  | nil => simp [pure, Except.pure]
  | cons c L ih =>
    have hnil := hne c (.head _)
    have hrest := fun st => @ih st (fun c hc => hne c (.tail _ hc))
      fun hf c hc => hzero hf c (.tail _ hc)
    refine foldlM_cons_eq_ok.mpr ?_
    by_cases hdel : storesDeleted counts c = true
    · cases shouldFilter with
      | false =>
        refine ⟨(st.1 ++ [c], st.2), ?_, ?_⟩
        · simp [filterCandidate, hnil, hdel]
        · rw [hrest]
          simp [keeps, remembers, hdel]
      | true =>
        obtain ⟨⟨newest, info⟩, hitem⟩ := newestEntry_of_ne_nil hnil
        have hz : info.isZeroLamport = true := hzero rfl c (.head _) hdel _ hitem
        by_cases hlt : full < newest
        · refine ⟨(st.1, st.2 ++ [(newest, c.pubkey)]), ?_, ?_⟩
          · simp [filterCandidate, hnil, hdel, hitem, hz, hlatest rfl, hlt]
          · rw [hrest]
            simp [keeps, remembers, hdel, hitem, hlt]
        · refine ⟨(st.1 ++ [c], st.2), ?_, ?_⟩
          · simp [filterCandidate, hnil, hdel, hitem, hz, hlatest rfl, hlt]
          · rw [hrest]
            simp [keeps, remembers, hdel, hitem, not_lt.mp hlt]
    · refine ⟨st, ?_, ?_⟩
      · simp [filterCandidate, hnil, hdel]
      · rw [hrest]
        simp [keeps, remembers, hdel]

lemma keeps_incremental_iff {full : ℕ} (hnil : c.slotList ≠ []) : keeps true full counts c = true ↔
    storesDeleted counts c = true ∧ ∀ slot ∈ c.slots, slot ≤ full := by
  obtain ⟨item, hitem⟩ := newestEntry_of_ne_nil hnil
  have hgreatest := isGreatest_newestEntry hitem
  simp only [keeps, hitem, Bool.and_eq_true, Bool.not_true, Bool.false_or, Option.any_some,
    decide_eq_true_eq]
  refine and_congr_right fun _ => ⟨fun hle slot hslot => (hgreatest.2 hslot).trans hle, fun h => ?_⟩
  exact h _ hgreatest.1

lemma remembers_incremental_iff {full key : ℕ} (hnil : c.slotList ≠ []) :
    remembers true full counts c = some (slot, key) ↔ c.pubkey = key ∧
      storesDeleted counts c = true ∧ IsGreatest (c.slots : Set ℕ) slot ∧ full < slot := by
  obtain ⟨item, hitem⟩ := newestEntry_of_ne_nil hnil
  have hgreatest := isGreatest_newestEntry hitem
  simp only [remembers, hitem, Bool.and_true, Option.ite_none_right_eq_some, Option.map_eq_some_iff,
    Option.filter_eq_some_iff, Option.some.injEq, decide_eq_true_eq, Prod.mk.injEq]
  constructor
  · rintro ⟨hdel, _, ⟨rfl, hlt⟩, rfl, rfl⟩
    exact ⟨rfl, hdel, hgreatest, hlt⟩
  · rintro ⟨rfl, hdel, hslot, hlt⟩
    obtain rfl := hslot.unique hgreatest
    exact ⟨hdel, item, ⟨rfl, hlt⟩, rfl, rfl⟩

/-- There is filtering only with a full snapshot. -/
lemma isSome_of_shouldFilter {maxCleanRoot latest : Option ℕ}
    (hmax : ∀ root ∈ maxCleanRoot, root ≤ slotMax)
    (h : shouldFilterForIncrementalSnapshots maxCleanRoot latest = true) :
    ∃ full, latest = some full := by
  cases latest with
  | some full => exact ⟨full, rfl⟩
  | none =>
    have hlt : slotMax < maxCleanRoot.getD slotMax := by
      simpa [shouldFilterForIncrementalSnapshots] using h
    cases maxCleanRoot with
    | none => exact absurd hlt (lt_irrefl _)
    | some root => exact absurd (hmax root rfl) (not_le.mpr hlt)

/-! ## Purging -/

/-- In any order of visits, the candidates that are purged are the greatest set of candidates that
can be purged together. With incremental snapshots those that have a version above the full snapshot
are not purged but remembered.

`hne` is what the code asserts in debug builds of the candidates it filters, and the condition on
the newest version what it asserts with incremental snapshots. `hmax` is the range of a slot. -/
theorem purged_isGreatest (env : CleanEnv) (visits : Visits) (candidates L L₁ L₂ : List Candidate)
    (counts : StoreCounts) (maxCleanRoot latestFullSnapshotSlot : Option ℕ)
    (hnodup : (candidates.map pubkey).Nodup)
    (hcollect : collectStoreCounts env candidates = .ok (counts, L))
    (h₁ : L₁.Perm L) (h₂ : L₂.Perm L) (hne : ∀ c ∈ L, c.slotList ≠ [])
    (hmax : ∀ root ∈ maxCleanRoot, root ≤ slotMax) :
    ∃ total, IsTotal env L total ∧ ∃ K, IsGreatest {keys | Purgeable total L keys} K ∧
      ∃ rounds, ∀ fuel, rounds ≤ fuel → ∃ counts',
        calcDeleteDependencies visits L₁ fuel counts = .ok counts' ∧
        (shouldFilterForIncrementalSnapshots maxCleanRoot latestFullSnapshotSlot = false →
          ∃ kept, filterZeroLamportClean maxCleanRoot latestFullSnapshotSlot counts' L₂ =
              .ok (kept, []) ∧
            ∀ c, c ∈ kept ↔ c ∈ L ∧ c.pubkey ∈ K) ∧
        (shouldFilterForIncrementalSnapshots maxCleanRoot latestFullSnapshotSlot = true →
          (∀ c ∈ L, c.pubkey ∈ K → ∀ item, newestEntry c.slotList = some item →
            item.2.isZeroLamport = true) →
          ∃ full kept remembered, latestFullSnapshotSlot = some full ∧
            filterZeroLamportClean maxCleanRoot latestFullSnapshotSlot counts' L₂ =
              .ok (kept, remembered) ∧
            (∀ c, c ∈ kept ↔ c ∈ L ∧ c.pubkey ∈ K ∧ ∀ slot ∈ c.slots, slot ≤ full) ∧
            ∀ slot key, (slot, key) ∈ remembered ↔ ∃ c ∈ L, c.pubkey = key ∧ key ∈ K ∧
              IsGreatest (c.slots : Set ℕ) slot ∧ full < slot) := by
  obtain ⟨hL, total, htotal, htable⟩ := collectStoreCounts_spec hcollect
  have hnodupL : (L.map pubkey).Nodup := by
    rw [hL, map_map]
    exact hnodup
  have hnodup₁ : (L₁.map pubkey).Nodup := (h₁.map _).nodup_iff.mpr hnodupL
  have hne₁ : ∀ c ∈ L₁, c.slotList ≠ [] := fun c hc => hne c (h₁.mem_iff.mp hc)
  have hne₂ : ∀ c ∈ L₂, c.slotList ≠ [] := fun c hc => hne c (h₂.mem_iff.mp hc)
  -- the greatest set does not depend on the order, nor on the fuel
  have hcalc : ∀ fuel, enoughRounds L₁ ≤ fuel → ∃ counts',
      calcDeleteDependencies visits L₁ fuel counts = .ok counts' ∧
      IsGreatest {keys | Purgeable total L keys} (deletedKeys L counts') := by
    intro fuel hfuel
    obtain ⟨counts', hrun, hgreatest⟩ :=
      calcDeleteDependencies_spec visits hnodup₁ hne₁ (htable.perm h₁) hfuel
    rw [deletedKeys_perm h₁] at hgreatest
    simp only [purgeable_perm_iff h₁] at hgreatest
    exact ⟨counts', hrun, hgreatest⟩
  obtain ⟨counts₀, -, hK⟩ := hcalc _ le_rfl
  refine ⟨total, htotal, deletedKeys L counts₀, hK, enoughRounds L₁, fun fuel hfuel => ?_⟩
  obtain ⟨counts', hrun, hgreatest⟩ := hcalc fuel hfuel
  rw [hK.unique hgreatest]
  have hmem : ∀ c ∈ L, c.pubkey ∈ deletedKeys L counts' ↔ storesDeleted counts' c = true := by
    refine fun c hc => ⟨?_, fun hdel => ⟨c, hc, rfl, hdel⟩⟩
    rintro ⟨c', hc', hpub, hdel⟩
    rwa [eq_of_pubkey hnodupL hc' hc hpub] at hdel
  refine ⟨counts', hrun, fun hfilter => ?_, fun hfilter hzero => ?_⟩
  · refine ⟨L₂.filter (keeps false 0 counts'), ?_, fun c => ?_⟩
    · simp only [filterZeroLamportClean, hfilter, Bool.and_false, Bool.false_eq_true, if_false]
      rw [@filterCandidate_loop L₂ counts' false latestFullSnapshotSlot 0 ([], []) nofun hne₂ nofun]
      simp [remembers]
    · rw [mem_filter, h₂.mem_iff]
      refine and_congr_right fun hc => ?_
      rw [hmem c hc]
      simp [keeps]
  obtain ⟨full, rfl⟩ := isSome_of_shouldFilter hmax hfilter
  have hloop := @filterCandidate_loop L₂ counts' true (some full) full ([], []) (fun _ => rfl)
    hne₂ fun _ c hc hdel => hzero c (h₂.mem_iff.mp hc) ((hmem c (h₂.mem_iff.mp hc)).mpr hdel)
  refine ⟨full, L₂.filter (keeps true full counts'), L₂.filterMap (remembers true full counts'),
    rfl, ?_, fun c => ?_, fun slot key => ?_⟩
  · simp only [filterZeroLamportClean, hfilter, Option.isNone_some, Bool.false_and,
      Bool.false_eq_true, if_false]
    exact hloop
  · rw [mem_filter, h₂.mem_iff]
    refine and_congr_right fun hc => ?_
    rw [hmem c hc, keeps_incremental_iff (hne c hc)]
  rw [mem_filterMap]
  simp only [h₂.mem_iff]
  refine exists_congr fun c => and_congr_right fun hc => ?_
  rw [remembers_incremental_iff (hne c hc)]
  refine and_congr_right fun hkey => ?_
  rw [← hkey, hmem c hc]

/-- The least store first, and candidates in the order they were found. -/
def leastFirst : Visits where
  pick _ set := if h : set.Nonempty then set.min' h else 0
  pick_mem _ set h := by
    rw [dif_pos h]
    exact set.min'_mem h
  order _ keys := keys
  order_perm _ keys := .refl keys

/-- Stores of slots 1, 2 and 5 with candidates only, and one of slot 3 with another account. Nothing
is removed by the cleaning of older versions, but one version in slot 4. -/
def someStores : CleanEnv where
  storage slot _ :=
    if slot = 1 ∨ slot = 5 then some 1 else if slot = 2 ∨ slot = 3 then some 2 else none
  purgedAccountSlots key := if key = 30 then some {4} else none
  removedAccounts _ := none
  refCountFromStorage _ := 1

/-- A version without lamports. -/
def emptyVersion : AccountInfo := ⟨0, 0, true, false⟩

/-- Keys 10 and 20 share the store of slot 2, and key 20 is in slot 3. Key 30 is alone in slot 5. -/
def someCandidates : List Candidate :=
  [⟨10, [(1, emptyVersion), (2, emptyVersion)], 2⟩, ⟨20, [(2, emptyVersion), (3, emptyVersion)], 2⟩,
    ⟨30, [(4, emptyVersion), (5, emptyVersion)], 2⟩]

/-- The candidates without the version in slot 4. -/
def someRetained : List Candidate := someCandidates.map (retainSlots someStores)

theorem purged_isGreatest_someCandidates :
    ∃ counts, collectStoreCounts someStores someCandidates = .ok (counts, someRetained) ∧
      shouldFilterForIncrementalSnapshots (some 9) (some 4) = true ∧
      ∃ total, IsTotal someStores someRetained total ∧
        ∃ K, IsGreatest {keys | Purgeable total someRetained keys} K ∧
          ∃ rounds, ∀ fuel, rounds ≤ fuel → ∃ counts',
            calcDeleteDependencies leastFirst someRetained.reverse fuel counts = .ok counts' ∧
            ∃ kept remembered,
              filterZeroLamportClean (some 9) (some 4) counts' someRetained =
                .ok (kept, remembered) ∧
              ∀ slot key, (slot, key) ∈ remembered ↔ ∃ c ∈ someRetained, c.pubkey = key ∧ key ∈ K ∧
                IsGreatest (c.slots : Set ℕ) slot ∧ 4 < slot := by
  refine ⟨_, rfl, by decide, ?_⟩
  obtain ⟨total, htotal, K, hK, rounds, h⟩ := purged_isGreatest someStores leastFirst someCandidates
    someRetained someRetained.reverse someRetained _ (some 9) (some 4) (by decide) rfl
    (reverse_perm _) (.refl _) (by decide) (by decide)
  refine ⟨total, htotal, K, hK, rounds, fun fuel hfuel => ?_⟩
  obtain ⟨counts', hrun, -, hfilter⟩ := h fuel hfuel
  have hzero : ∀ c ∈ someRetained, ∀ item ∈ newestEntry c.slotList,
      item.2.isZeroLamport = true := by
    decide
  obtain ⟨full, kept, remembered, hfull, hkept, -, hrem⟩ := hfilter (by decide)
    fun c hc _ item hitem => hzero c hc item hitem
  cases hfull
  exact ⟨counts', hrun, kept, remembered, hkept, hrem⟩

end Trezoa.AccountsDb
