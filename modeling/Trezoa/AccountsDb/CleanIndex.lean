import Trezoa.AccountsDb.AccountsIndex

/-!
# Cleaning does not change what is read

* `clean_reads`: cleaning a key leaves what readers take unchanged, reclaims the entries that are
  not needed and nothing when it is done again.
-/

namespace Trezoa.AccountsDb

open Lib List Function

variable {T : Type}

/-! ## Readers -/

/-- The slots that a reader sees: its ancestors, and the roots up to its own. -/
def Visible (roots : RootsTracker) (ancestors : Option (Finset ℕ)) (maxRootInclusive : Option ℕ)
    (slot : ℕ) : Prop :=
  (∃ set, ancestors = some set ∧ slot ∈ set) ∨
    slot ∈ roots.aliveRoots ∧ ∀ maxRoot, maxRootInclusive = some maxRoot → slot ≤ maxRoot

lemma isRootUpTo_iff {roots : RootsTracker} {maxRoot : Option ℕ} {slot : ℕ} :
    isRootUpTo roots maxRoot slot = true ↔
      slot ∈ roots.aliveRoots ∧ ∀ bound, maxRoot = some bound → slot ≤ bound := by
  rw [isRootUpTo, Bool.and_eq_true, decide_eq_true_eq, and_comm]
  cases maxRoot with
  | none => simp
  | some bound => simp

/-- The slots and places of a list that satisfy a condition. -/
def candidates (p : ℕ → Bool) (items : List (SlotListItem T × ℕ)) : List (ℕ × ℕ) :=
  (items.filter fun item => p item.1.1).map fun item => (item.1.1, item.2)

/-- The loop looks at the items that satisfy the condition. -/
theorem foldl_latestStep (p : ℕ → Bool) (items : List (SlotListItem T × ℕ)) (st : Option ℕ × ℕ) :
    items.foldl (latestStep p) st = (candidates p items).foldl keepMax st := by
  induction items generalizing st with
  | nil => rfl
  | cons item items ih =>
    by_cases hp : p item.1.1 = true
    · have hstep : latestStep p st item = keepMax st (item.1.1, item.2) := by
        rw [latestStep, keepMax, hp, Bool.and_true]
      rw [foldl_cons, ih, hstep, candidates, candidates, filter_cons_of_pos (by simpa using hp),
        map_cons, foldl_cons]
    · have hstep : latestStep p st item = st := by
        rw [latestStep, if_neg (by simp [hp])]
      rw [foldl_cons, ih, hstep, candidates, candidates, filter_cons_of_neg (by simpa using hp)]

/-- The ancestors as a set; none has no elements. -/
def ancestorSet (ancestors : Option (Finset ℕ)) : Finset ℕ := ancestors.getD ∅

lemma latestAncestor_eq (ancestors : Option (Finset ℕ)) (slotList : List (SlotListItem T)) :
    latestAncestor ancestors slotList =
      (candidates (fun slot => decide (slot ∈ ancestorSet ancestors)) slotList.reverse.zipIdx).foldl
        keepMax (none, 0) := by
  have hempty : (candidates (fun slot => decide (slot ∈ (∅ : Finset ℕ)))
    slotList.reverse.zipIdx).foldl
      keepMax (none, 0) = (none, 0) := by simp [candidates]
  cases ancestors with
  | none => exact hempty.symm
  | some set =>
    rw [latestAncestor]
    split
    · next h =>
      rw [h]
      exact hempty.symm
    · rw [foldl_latestStep]
      rfl

lemma mem_ancestorSet {ancestors : Option (Finset ℕ)} {slot : ℕ} :
    slot ∈ ancestorSet ancestors ↔ ∃ set, ancestors = some set ∧ slot ∈ set := by
  cases ancestors with
  | none => simp [ancestorSet]
  | some set => simp [ancestorSet]

/-- A candidate is a version of the list, by its place from the end. -/
theorem mem_candidates {p : ℕ → Bool} {slotList : List (SlotListItem T)} {slot place : ℕ} :
    (slot, place) ∈ candidates p slotList.reverse.zipIdx ↔
      p slot = true ∧ place < slotList.length ∧
        ∃ entry, slotList[slotList.length - 1 - place]? = some entry ∧ entry.1 = slot := by
  rw [candidates, mem_map]
  constructor
  · rintro ⟨⟨entry, place'⟩, hitem, heq⟩
    obtain ⟨hmem, hp⟩ := mem_filter.mp hitem
    simp only [Prod.mk.injEq] at heq
    obtain ⟨rfl, rfl⟩ := heq
    have hget := mk_mem_zipIdx_iff_getElem?.mp hmem
    have hlt : place' < slotList.length := by
      simpa using (List.getElem?_eq_some_iff.mp hget).1
    rw [getElem?_reverse hlt] at hget
    exact ⟨by simpa using hp, hlt, entry, hget, rfl⟩
  · rintro ⟨hp, hlt, entry, hget, rfl⟩
    refine ⟨(entry, place), mem_filter.mpr ⟨?_, by simpa using hp⟩, rfl⟩
    rw [mk_mem_zipIdx_iff_getElem?, getElem?_reverse hlt]
    exact hget

/-- A reader takes the version with the greatest slot that it sees, if there is one. -/
theorem latestEntry_spec (roots : RootsTracker) (ancestors : Option (Finset ℕ))
    (slotList : List (SlotListItem T)) (maxRoot : Option ℕ) :
    (∃ entry, latestEntry roots ancestors slotList maxRoot = some entry ∧
      IsLatest Prod.fst (Visible roots ancestors maxRoot) slotList entry) ∨
    latestEntry roots ancestors slotList maxRoot = none ∧
      ∀ entry ∈ slotList, ¬Visible roots ancestors maxRoot entry.1 := by
  set seen := candidates (fun slot => decide (slot ∈ ancestorSet ancestors)) slotList.reverse.zipIdx
    ++ candidates (isRootUpTo roots maxRoot) slotList.reverse.zipIdx with hseen
  have hmem {slot place : ℕ} : (slot, place) ∈ seen ↔ Visible roots ancestors maxRoot slot ∧
      place < slotList.length ∧
        ∃ entry, slotList[slotList.length - 1 - place]? = some entry ∧ entry.1 = slot := by
    rw [hseen, mem_append, mem_candidates, mem_candidates, decide_eq_true_eq, mem_ancestorSet,
      isRootUpTo_iff, ← or_and_right]
    rfl
  have hplace {entry : SlotListItem T} (hentry : entry ∈ slotList)
      (hvisible : Visible roots ancestors maxRoot entry.1) : ∃ place, (entry.1, place) ∈ seen := by
    obtain ⟨i, hi⟩ := mem_iff_getElem?.mp hentry
    have hlt := (List.getElem?_eq_some_iff.mp hi).1
    refine ⟨slotList.length - 1 - i, hmem.mpr ⟨hvisible, by omega, entry, ?_, rfl⟩⟩
    rw [show slotList.length - 1 - (slotList.length - 1 - i) = i by omega]
    exact hi
  have hkept : Kept seen (slotList.reverse.zipIdx.foldl (latestStep (isRootUpTo roots maxRoot))
      (latestAncestor ancestors slotList)) := by
    rw [foldl_latestStep, latestAncestor_eq, ← foldl_append]
    exact foldl_keepMax (.inl ⟨rfl, rfl⟩) _
  rw [latestEntry, latestSlot]
  rcases hkept with ⟨hnone, hnil⟩ | ⟨place, hsome, hin, hle⟩
  · right
    refine ⟨by rw [hnone]; rfl, fun entry hentry hvisible => ?_⟩
    obtain ⟨place, hin⟩ := hplace hentry hvisible
    rw [hnil] at hin
    cases hin
  left
  obtain ⟨hvisible, -, entry, hget, hslot⟩ := hmem.mp hin
  refine ⟨entry, by rw [hsome]; exact hget, mem_of_getElem? hget, hslot ▸ hvisible, ?_⟩
  intro other hother hvisible'
  obtain ⟨place', hin'⟩ := hplace hother hvisible'
  rw [hslot]
  exact hle _ hin'

/-- With distinct slots, the version that a reader takes is the latest one. -/
theorem latestEntry_eq_some_iff {roots : RootsTracker} {ancestors : Option (Finset ℕ)}
    {slotList : List (SlotListItem T)} {maxRoot : Option ℕ} (hnodup : (slotList.map Prod.fst).Nodup)
    {entry : SlotListItem T} :
    latestEntry roots ancestors slotList maxRoot = some entry ↔
      IsLatest Prod.fst (Visible roots ancestors maxRoot) slotList entry := by
  rcases latestEntry_spec roots ancestors slotList maxRoot with ⟨entry', heq,
    hlatest⟩ | ⟨heq, hnone⟩
  · rw [heq, Option.some.injEq]
    constructor
    · rintro rfl
      exact hlatest
    · exact fun h => isLatest_unique hnodup hlatest h
  · rw [heq]
    refine ⟨fun h => (nomatch h), fun h => absurd h.seen (hnone entry h.mem)⟩

/-! ## The newest root -/

/-- The newest root of a slot list up to a bound, or zero. -/
theorem newestRoot_spec (roots : RootsTracker) (slotList : List (SlotListItem T))
    (maxRoot : Option ℕ) :
    IsGreatest {slot | slot ∈ slotList.map Prod.fst ∧ slot ∈ roots.aliveRoots ∧
        slot ≤ cleanRoot roots maxRoot} (getNewestRootInSlotList roots slotList maxRoot) ∨
      (∀ slot ∈ slotList.map Prod.fst, slot ∈ roots.aliveRoots → cleanRoot roots maxRoot < slot) ∧
        getNewestRootInSlotList roots slotList maxRoot = 0 := by
  have hmem {slot : ℕ} : slot ∈ (slotList.map Prod.fst).filter (isRootUpTo roots maxRoot) ↔
      slot ∈ slotList.map Prod.fst ∧ slot ∈ roots.aliveRoots ∧ slot ≤ cleanRoot roots maxRoot := by
    rw [mem_filter, isRootUpTo_iff, cleanRoot]
    cases maxRoot with
    | none =>
      simp only [reduceCtorEq, false_implies, implies_true, and_true, Option.getD_none]
      exact and_congr_right fun _ => ⟨fun h => ⟨h, RootsTracker.le_maxInclusive h⟩, And.left⟩
    | some bound => simp
  rw [getNewestRootInSlotList]
  rcases hmax : ((slotList.map Prod.fst).filter (isRootUpTo roots maxRoot)).max? with _ | newest
  · right
    rw [max?_eq_none_iff] at hmax
    refine ⟨fun slot hslot hroot => ?_, rfl⟩
    by_contra hle
    have := hmem.mpr ⟨hslot, hroot, Nat.le_of_not_lt hle⟩
    rw [hmax] at this
    cases this
  · left
    obtain ⟨hin, hle⟩ := max?_eq_some_iff.mp hmax
    exact ⟨hmem.mp hin, fun slot hslot => hle slot (hmem.mpr hslot)⟩

/-! ## Cleaning -/

section clean
variable (isCached : T → Bool) (roots : RootsTracker) (slotList : List (SlotListItem T))
  (maxClean : Option ℕ)

lemma shouldPurge_iff {entry : SlotListItem T} :
    shouldPurge isCached roots slotList maxClean entry = true ↔
      entry.1 < cleanRoot roots maxClean ∧
        entry.1 ≠ getNewestRootInSlotList roots slotList maxClean ∧ isCached entry.2 = false := by
  rw [shouldPurge, canPurgeOlderEntries]
  simp [and_assoc]

/-- A purged version that a reader sees is below the newest root, which stays and which it sees. -/
theorem latestEntry_purge {ancestors : Option (Finset ℕ)} {maxRoot : Option ℕ}
    (hnodup : (slotList.map Prod.fst).Nodup)
    (hmaxRoot : ∀ bound, maxRoot = some bound → cleanRoot roots maxClean ≤ bound)
    (hancestors : ∀ set, ancestors = some set → ∀ slot ∈ set, slot < cleanRoot roots maxClean →
      slot ∈ roots.aliveRoots) :
    latestEntry roots ancestors
        (slotList.filter fun item => !shouldPurge isCached roots slotList maxClean item) maxRoot =
      latestEntry roots ancestors slotList maxRoot := by
  have hsub : ((slotList.filter fun item =>
      !shouldPurge isCached roots slotList maxClean item).map Prod.fst).Nodup :=
    hnodup.sublist (filter_sublist.map _)
  refine Option.ext fun entry => ?_
  rw [latestEntry_eq_some_iff hsub, latestEntry_eq_some_iff hnodup]
  refine isLatest_filter_iff fun old hold hvisible hpurge => ?_
  obtain ⟨hlt, hne, -⟩ := (shouldPurge_iff isCached roots slotList maxClean).mp
    (by simpa using hpurge)
  have hroot : old.1 ∈ roots.aliveRoots := by
    rcases hvisible with ⟨set, hset, hin⟩ | ⟨hroot, -⟩
    · exact hancestors set hset old.1 hin hlt
    · exact hroot
  have hslot : old.1 ∈ slotList.map Prod.fst := mem_map.mpr ⟨old, hold, rfl⟩
  rcases newestRoot_spec roots slotList maxClean with ⟨⟨hnewest, hnewestRoot, hnewestLe⟩,
    hgreatest⟩ |
    ⟨hnone, -⟩
  · obtain ⟨newest, hmem, heq⟩ := mem_map.mp hnewest
    refine ⟨newest, hmem, ?_, .inr ⟨heq ▸ hnewestRoot, fun bound hbound => ?_⟩, ?_⟩
    · rw [Bool.not_eq_true', ← Bool.not_eq_true, shouldPurge_iff]
      exact fun hpurge => hpurge.2.1 heq
    · exact heq ▸ hnewestLe.trans (hmaxRoot bound hbound)
    · have := hgreatest ⟨hslot, hroot, hlt.le⟩
      omega
  · exact absurd (hnone old.1 hslot hroot) (by omega)

/-- The newest root stays the newest root. -/
theorem getNewestRootInSlotList_purge :
    getNewestRootInSlotList roots
        (slotList.filter fun item => !shouldPurge isCached roots slotList maxClean item) maxClean =
      getNewestRootInSlotList roots slotList maxClean := by
  set kept := slotList.filter fun item => !shouldPurge isCached roots slotList maxClean item
    with hkept
  have hsub {slot : ℕ} (h : slot ∈ kept.map Prod.fst) : slot ∈ slotList.map Prod.fst :=
    (filter_sublist.map _).subset h
  rcases newestRoot_spec roots slotList maxClean with ⟨⟨hnewest, hroot, hle⟩, hgreatest⟩ |
    ⟨hnone, hzero⟩
  · have hstays : getNewestRootInSlotList roots slotList maxClean ∈ kept.map Prod.fst := by
      obtain ⟨newest, hmem, heq⟩ := mem_map.mp hnewest
      refine mem_map.mpr ⟨newest, mem_filter.mpr ⟨hmem, ?_⟩, heq⟩
      rw [Bool.not_eq_true', ← Bool.not_eq_true, shouldPurge_iff]
      exact fun hpurge => hpurge.2.1 heq
    rcases newestRoot_spec roots kept maxClean with hkeptGreatest | ⟨hnone', -⟩
    · exact hkeptGreatest.unique ⟨⟨hstays, hroot, hle⟩, fun slot hslot =>
        hgreatest ⟨hsub hslot.1, hslot.2⟩⟩
    · exact absurd (hnone' _ hstays hroot) (by omega)
  · rcases newestRoot_spec roots kept maxClean with ⟨⟨hin, hroot, hle⟩, -⟩ | ⟨-, hzero'⟩
    · exact absurd (hnone _ (hsub hin) hroot) (by omega)
    · rw [hzero, hzero']

/-- A purge of what was purged removes nothing. -/
theorem purge_again {entry : SlotListItem T}
    (h : entry ∈ slotList.filter fun item => !shouldPurge isCached roots slotList maxClean item) :
    shouldPurge isCached roots
      (slotList.filter fun item => !shouldPurge isCached roots slotList maxClean item)
      maxClean entry =
        false := by
  rw [shouldPurge, getNewestRootInSlotList_purge]
  simpa only [Bool.not_eq_true', shouldPurge] using (mem_filter.mp h).2

/-- What cleaning does to a key with a slot list. -/
theorem cleanRootedEntries_some {index : ℕ → Option (List (SlotListItem T))} {pubkey : ℕ}
    (hindex : index pubkey = some slotList) (reclaims : List (SlotListItem T)) :
    let kept := slotList.filter fun item => !shouldPurge isCached roots slotList maxClean item
    cleanRootedEntries isCached roots maxClean index pubkey reclaims = (decide (kept = []),
      update index pubkey (if kept = [] then none else some kept),
      reclaims ++ slotList.filter (shouldPurge isCached roots slotList maxClean)) := by
  intro kept
  rw [cleanRootedEntries, hindex]
  dsimp only [purgeOlderRootEntries]
  split
  · next hnil => rw [decide_eq_true hnil]
  · next hnil => rw [decide_eq_false hnil]

end clean

/-- The version of a key that a reader takes. -/
def readIndex (roots : RootsTracker) (ancestors : Option (Finset ℕ)) (maxRoot : Option ℕ)
    (index : ℕ → Option (List (SlotListItem T))) (pubkey : ℕ) : Option (SlotListItem T) :=
  (index pubkey).bind fun slotList => latestEntry roots ancestors slotList maxRoot

lemma latestEntry_nil (roots : RootsTracker) (ancestors : Option (Finset ℕ)) (maxRoot : Option ℕ) :
    latestEntry roots ancestors ([] : List (SlotListItem T)) maxRoot = none := by
  rcases latestEntry_spec roots ancestors ([] : List (SlotListItem T)) maxRoot with
    ⟨entry, -, hlatest⟩ | ⟨hnone, -⟩
  · exact absurd hlatest.mem not_mem_nil
  · exact hnone

/-- For any roots, any index whose slot lists have distinct slots, any key, any root to clean up to
and any reader whose own root is not below it and whose ancestors below it are alive roots: what the
reader takes is the same before and after; the entries that are reclaimed are those that are not
cached, below the root, and not at the newest alive root of the slot list up to it, each once; and
cleaning again reclaims nothing. -/
theorem clean_reads (isCached : T → Bool) (roots : RootsTracker) (maxClean : Option ℕ)
    (index : ℕ → Option (List (SlotListItem T))) (pubkey : ℕ) (reclaims : List (SlotListItem T))
    (hdistinct : ∀ key slotList, index key = some slotList → (slotList.map Prod.fst).Nodup) :
    let cleaned := cleanRootedEntries isCached roots maxClean index pubkey reclaims
    (∀ (ancestors : Option (Finset ℕ)) (maxRoot : Option ℕ),
      (∀ bound, maxRoot = some bound → cleanRoot roots maxClean ≤ bound) →
      (∀ set, ancestors = some set → ∀ slot ∈ set, slot < cleanRoot roots maxClean →
        slot ∈ roots.aliveRoots) →
      ∀ key, readIndex roots ancestors maxRoot cleaned.2.1 key =
        readIndex roots ancestors maxRoot index key) ∧
    (∀ slotList, index pubkey = some slotList → ∃ newest purged,
      (IsGreatest {slot | slot ∈ slotList.map Prod.fst ∧ slot ∈ roots.aliveRoots ∧
          slot ≤ cleanRoot roots maxClean} newest ∨
        (∀ slot ∈ slotList.map Prod.fst, slot ∈ roots.aliveRoots →
          cleanRoot roots maxClean < slot) ∧ newest = 0) ∧
      cleaned.2.2 = reclaims ++ purged ∧ purged.Nodup ∧
      ∀ entry, entry ∈ purged ↔ entry ∈ slotList ∧ isCached entry.2 = false ∧
        entry.1 < cleanRoot roots maxClean ∧ entry.1 ≠ newest) ∧
    (index pubkey = none → cleaned.2.2 = reclaims) ∧
    ∀ reclaims', cleanRootedEntries isCached roots maxClean cleaned.2.1 pubkey reclaims' =
      (cleaned.1, cleaned.2.1, reclaims') := by
  intro cleaned
  rcases hindex : index pubkey with _ | slotList
  · have hcleaned : cleaned = (true, index, reclaims) := by
      rw [show cleaned = cleanRootedEntries isCached roots maxClean index pubkey reclaims from rfl,
        cleanRootedEntries, hindex]
    rw [hcleaned]
    refine ⟨fun ancestors maxRoot _ _ key => rfl, fun slotList h => (nomatch h), fun _ => rfl,
      fun reclaims' => ?_⟩
    dsimp only
    rw [cleanRootedEntries, hindex]
  set kept := slotList.filter fun item => !shouldPurge isCached roots slotList maxClean item
    with hkept
  have hcleaned : cleaned = _ :=
    cleanRootedEntries_some isCached roots slotList maxClean hindex reclaims
  rw [hcleaned]
  dsimp only
  rw [← hkept]
  refine ⟨fun ancestors maxRoot hmaxRoot hancestors key => ?_, fun slotList' h => ?_,
    fun h => (nomatch h), fun reclaims' => ?_⟩
  · rcases eq_or_ne key pubkey with rfl | hne
    · have hpurge := latestEntry_purge isCached roots slotList maxClean
        (hdistinct key slotList hindex) hmaxRoot hancestors
      rw [← hkept] at hpurge
      rw [readIndex, readIndex, update_self, hindex, Option.bind_some, ← hpurge]
      split
      · next hnil => rw [hnil, latestEntry_nil, Option.bind_none]
      · rw [Option.bind_some]
    · rw [readIndex, readIndex, update_of_ne hne]
  · cases h
    have hnodup := (hdistinct pubkey slotList hindex).of_map
    refine ⟨_, _, newestRoot_spec roots slotList maxClean, rfl, hnodup.filter _, fun entry => ?_⟩
    rw [mem_filter, shouldPurge_iff]
    tauto
  by_cases hnil : kept = []
  · rw [cleanRootedEntries, update_self, if_pos hnil, decide_eq_true hnil]
  rw [if_neg hnil, cleanRootedEntries_some isCached roots kept maxClean
    (update_self pubkey (some kept) index)]
  -- what is left is kept
  have hagain (entry : SlotListItem T) (hentry : entry ∈ kept) :
      shouldPurge isCached roots kept maxClean entry = false :=
    purge_again isCached roots slotList maxClean hentry
  have hall : (kept.filter fun item => !shouldPurge isCached roots kept maxClean item) = kept :=
    filter_eq_self.mpr fun entry hentry => by rw [hagain entry hentry]; rfl
  have hnone : kept.filter (shouldPurge isCached roots kept maxClean) = [] :=
    filter_eq_nil_iff.mpr fun entry hentry => by rw [hagain entry hentry]; simp
  rw [hall, hnone, if_neg hnil, update_idem, append_nil]

/-- The roots 3 and 7. -/
def someRoots : RootsTracker := ⟨{3, 7}, 8, by decide⟩

/-- Versions of one key at 5, 7 and 3, the one at 7 cached. -/
def someIndex : ℕ → Option (List (SlotListItem Bool)) := fun key =>
  if key = 0 then some [(5, false), (7, true), (3, false)] else none

theorem clean_reads_someIndex :
    readIndex someRoots (some {7, 9}) none
        (cleanRootedEntries id someRoots none someIndex 0 []).2.1 0 =
      readIndex someRoots (some {7, 9}) none someIndex 0 := by
  refine (clean_reads id someRoots none someIndex 0 [] fun key slotList h => ?_).1
    (some {7, 9}) none
    (fun bound h => (nomatch h)) (fun set h => ?_) 0
  · by_cases hkey : key = 0
    · rw [someIndex, if_pos hkey] at h
      cases h
      decide
    · rw [someIndex, if_neg hkey] at h
      cases h
  · cases h
    decide

end Trezoa.AccountsDb
