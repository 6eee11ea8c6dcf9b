import Trezoa.Lib.KeyedLoop
import Trezoa.Runtime.StatusCache

/-!
# Replay protection

Runs of the status cache, against the history of what was inserted, cleared and dropped.

* `finds_cleared_slot`: below a dropped root a slot that was cleared can still be found: the second
  index, which clearing goes through, is dropped with the root, while the blockhash is kept for a
  higher slot.
-/

namespace Trezoa.Lib.OrdMap

variable {κ β : Type} [Ord κ] [Std.TransOrd κ] {m : OrdMap κ β} {k : κ}

/-- Keeping the entries with some values. -/
lemma getElem?_filter_value (p : β → Bool) : (m.filter fun _ v => p v)[k]? = m[k]?.filter p := by
  rw [Std.TreeMap.getElem?_filter]
  ext v
  rw [Option.pfilter_eq_some_iff, Option.filter_eq_some_iff]
  simp

end Trezoa.Lib.OrdMap

namespace Trezoa.Runtime

open Std.TreeMap Lib List

variable {T : Type}

/-- A status that was inserted. -/
structure Insertion (T : Type) where
  blockhash : ℕ
  key : List UInt8
  slot : ℕ
  res : T

/-- What happened so far. -/
structure History (T : Type) where
  insertions : List (Insertion T)
  uncleared : List (Insertion T)
  dropped : List ℕ

namespace StatusCache

/-! ## Slices -/

/-- The slice of a key that is long enough. -/
def sliceOf (key : List UInt8) (keyIndex : ℕ) : KeySlice :=
  (key.drop (sliceIndex key keyIndex)).take cachedKeySize

lemma keySlice_eq {key : List UInt8} (h : cachedKeySize ≤ key.length) (keyIndex : ℕ) :
    keySlice key keyIndex = .ok (sliceOf key keyIndex) := by
  rw [keySlice, if_pos]
  · rfl
  · have : sliceIndex key keyIndex ≤ maxKeyIndex key := min_le_right _ _
    unfold maxKeyIndex cachedKeySize at *
    omega

/-- The slices of a slot and a blockhash in the second index. -/
def slices (c : StatusCache T) (slot blockhash : ℕ) : List KeySlice :=
  (((c.slotDeltas[slot]?.getD ∅)[blockhash]?.map Prod.snd).getD []).map Prod.fst

/-- What the cache holds of a history. -/
structure Invariant (c : StatusCache T) (h : History T) : Prop where
  complete : ∀ r ∈ h.uncleared, (∀ d ∈ h.dropped, d < r.slot) → ∃ entry forks,
    c.cache[r.blockhash]? = some entry
      ∧ entry.keyMap[sliceOf r.key entry.keyIndex]? = some forks ∧ (r.slot, r.res) ∈ forks
  sound : ∀ (b : ℕ) (entry : BlockhashEntry T) (slice : KeySlice) (forks : ForkStatus T) (s : ℕ)
    (res : T), c.cache[b]? = some entry → entry.keyMap[slice]? = some forks → (s, res) ∈ forks →
    s ≤ entry.maxSlot ∧ (slice ∈ c.slices s b ∨ ∃ d ∈ h.dropped, s ≤ d)
      ∧ ∃ r ∈ h.insertions, r.blockhash = b ∧ r.slot = s ∧ r.res = res
        ∧ sliceOf r.key entry.keyIndex = slice ∧ (r ∈ h.uncleared ∨ ∃ d ∈ h.dropped, s ≤ d)
  delta : ∀ (s b : ℕ) (deltas : Status T), c.slotDeltas[s]? = some deltas → b ∈ deltas →
    (c.slices s b).Nodup ∧ c.slices s b ≠ [] ∧ ∃ entry, c.cache[b]? = some entry ∧ s ≤ entry.maxSlot
      ∧ ∀ slice ∈ c.slices s b,
        (∃ forks res, entry.keyMap[slice]? = some forks ∧ (s, res) ∈ forks)
        ∧ ∃ r ∈ h.uncleared, r.blockhash = b ∧ r.slot = s ∧ sliceOf r.key entry.keyIndex = slice

variable {c c' : StatusCache T} {h : History T} {slot : ℕ}

lemma default_invariant : Invariant (default : StatusCache T) ⟨[], [], []⟩ where
  complete := by simp
  sound b entry slice forks s res hentry := by
    rw [default, getElem?_emptyc] at hentry
    cases hentry
  delta s b deltas hdeltas := by
    rw [default, getElem?_emptyc] at hdeltas
    cases hdeltas

/-- A slice in the second index is one of an entry of its slot. -/
lemma exists_deltas {s b : ℕ} {slice : KeySlice} (hslice : slice ∈ c.slices s b) :
    ∃ deltas, c.slotDeltas[s]? = some deltas ∧ b ∈ deltas := by
  unfold slices at hslice
  cases hdeltas : c.slotDeltas[s]? with
  | none =>
    rw [hdeltas, Option.getD_none, getElem?_emptyc] at hslice
    simp at hslice
  | some deltas =>
    refine ⟨deltas, rfl, ?_⟩
    by_contra hb
    rw [hdeltas, Option.getD_some, getElem?_eq_none hb] at hslice
    simp at hslice

/-! ## Steps -/

/-- A status in the entry of a blockhash. -/
def Holds (c : StatusCache T) (b : ℕ) (entry : BlockhashEntry T) (sl : KeySlice)
    (f : ℕ × T) : Prop :=
  c.cache[b]? = some entry ∧ ∃ forks, entry.keyMap[sl]? = some forks ∧ f ∈ forks

/-- Statuses of the slots in `kept` are carried over. -/
structure Carries (c c' : StatusCache T) (h h' : History T) (kept : ℕ → Prop) : Prop where
  holds : ∀ {b entry sl f}, c.Holds b entry sl f → kept f.1 → ∃ entry', c'.Holds b entry' sl f
    ∧ entry'.keyIndex = entry.keyIndex ∧ entry.maxSlot ≤ entry'.maxSlot
  slices : ∀ {s b sl}, sl ∈ c.slices s b → kept s → sl ∈ c'.slices s b
  insertions : h.insertions ⊆ h'.insertions
  uncleared : ∀ r ∈ h.uncleared, kept r.slot → r ∈ h'.uncleared
  dropped : h.dropped ⊆ h'.dropped

section carries
variable {h' : History T} {kept : ℕ → Prop} {b s : ℕ} {entry : BlockhashEntry T} {sl : KeySlice}

variable (hstep : Carries c c' h h' kept) (hinv : Invariant c h)
include hstep hinv

lemma Carries.complete {r : Insertion T} (hr : r ∈ h.uncleared) (hkept : kept r.slot)
    (hdropped : ∀ d ∈ h'.dropped, d < r.slot) :
    ∃ entry forks, c'.cache[r.blockhash]? = some entry
      ∧ entry.keyMap[sliceOf r.key entry.keyIndex]? = some forks ∧ (r.slot, r.res) ∈ forks := by
  obtain ⟨entry, forks, hentry, hforks, hmem⟩ :=
    hinv.complete r hr fun d hd => hdropped d (hstep.dropped hd)
  obtain ⟨entry', ⟨hentry', forks', hforks', hmem'⟩, hindex, -⟩ :=
    hstep.holds ⟨hentry, forks, hforks, hmem⟩ hkept
  exact ⟨entry', forks', hentry', hindex ▸ hforks', hmem'⟩

/-- A status that was there before; one of a slot that is not kept is below a dropped root. -/
lemma Carries.sound {entry' : BlockhashEntry T} {res : T} (hold : c.Holds b entry sl (s, res))
    (hindex : entry'.keyIndex = entry.keyIndex) (hmax : entry.maxSlot ≤ entry'.maxSlot)
    (hkept : kept s ∨ ∃ d ∈ h'.dropped, s ≤ d) :
    s ≤ entry'.maxSlot ∧ (sl ∈ c'.slices s b ∨ ∃ d ∈ h'.dropped, s ≤ d)
      ∧ ∃ r ∈ h'.insertions, r.blockhash = b ∧ r.slot = s ∧ r.res = res
        ∧ sliceOf r.key entry'.keyIndex = sl ∧ (r ∈ h'.uncleared ∨ ∃ d ∈ h'.dropped, s ≤ d) := by
  obtain ⟨hentry, forks, hforks, hmem⟩ := hold
  obtain ⟨hle, hdelta, r, hr, hb, rfl, hres, hslice, huncleared⟩ :=
    hinv.sound b entry sl forks s res hentry hforks hmem
  have hlow : (∃ d ∈ h.dropped, r.slot ≤ d) → ∃ d ∈ h'.dropped, r.slot ≤ d := by
    rintro ⟨d, hd, hsd⟩
    exact ⟨d, hstep.dropped hd, hsd⟩
  refine ⟨hle.trans hmax, ?_, r, hstep.insertions hr, hb, rfl, hres, hindex ▸ hslice, ?_⟩
  · rcases hkept with hkept | hkept
    · exact hdelta.imp (hstep.slices · hkept) hlow
    · exact .inr hkept
  · rcases hkept with hkept | hkept
    · exact huncleared.imp (hstep.uncleared r · hkept) hlow
    · exact .inr hkept

lemma Carries.delta {deltas : Status T} (hdeltas : c.slotDeltas[s]? = some deltas)
    (hb : b ∈ deltas) (hkept : kept s) :
    ∃ entry, c'.cache[b]? = some entry ∧ s ≤ entry.maxSlot ∧ ∀ sl ∈ c.slices s b,
      (∃ forks res, entry.keyMap[sl]? = some forks ∧ (s, res) ∈ forks)
      ∧ ∃ r ∈ h'.uncleared, r.blockhash = b ∧ r.slot = s ∧ sliceOf r.key entry.keyIndex = sl := by
  obtain ⟨-, hne, entry, hentry, hle, hall⟩ := hinv.delta s b deltas hdeltas hb
  -- Some slice is there, so the entry is carried over; the others are in the same entry.
  have hcarried : ∀ sl ∈ c.slices s b, ∃ res entry', c'.Holds b entry' sl (s, res)
      ∧ entry'.keyIndex = entry.keyIndex ∧ entry.maxSlot ≤ entry'.maxSlot := by
    intro sl hsl
    obtain ⟨⟨forks, res, hforks, hmem⟩, -⟩ := hall sl hsl
    exact ⟨res, hstep.holds ⟨hentry, forks, hforks, hmem⟩ hkept⟩
  obtain ⟨sl₀, hsl₀⟩ := exists_mem_of_ne_nil _ hne
  obtain ⟨-, entry', ⟨hentry', -⟩, hindex, hmax⟩ := hcarried sl₀ hsl₀
  refine ⟨entry', hentry', hle.trans hmax, fun sl hsl => ?_⟩
  obtain ⟨res, entry'', ⟨hentry'', forks, hforks, hmem⟩, -⟩ := hcarried sl hsl
  cases hentry'.symm.trans hentry''
  obtain ⟨-, r, hr, hrb, rfl, hslice⟩ := hall sl hsl
  exact ⟨⟨forks, res, hforks, hmem⟩, r, hstep.uncleared r hr hkept, hrb, rfl, hindex ▸ hslice⟩

end carries

/-! ## Dropping a root -/

/-- The roots that adding a root drops. -/
def droppedBy (c : StatusCache T) (fork : ℕ) : List ℕ :=
  if (c.roots.insert fork).size > maxCacheEntries then (c.roots.insert fork).toList.min?.toList
  else []

lemma Invariant.addRoot (hinv : Invariant c h) (fork : ℕ) :
    Invariant (c.addRoot fork) { h with dropped := c.droppedBy fork ++ h.dropped } := by
  unfold StatusCache.addRoot purgeRoots droppedBy
  split
  · cases hmin : (c.roots.insert fork).toList.min? with
    | none => exact ⟨hinv.complete, hinv.sound, hinv.delta⟩
    | some low =>
      simp only
      let c' : StatusCache T := ⟨c.cache.filter fun _ entry => low < entry.maxSlot,
        (c.roots.insert fork).erase low, c.slotDeltas.filter fun slot _ => low < slot⟩
      have hslices : ∀ s b, low < s → c'.slices s b = c.slices s b := by
        intro s b hs
        unfold slices
        simp only [c']
        rw [OrdMap.getElem?_filter (fun slot => low < slot), if_pos (by simpa using hs)]
      have hstep : Carries c c' h { h with dropped := low :: h.dropped } (low < ·) := by
        refine ⟨?_, fun hsl hlow => (hslices _ _ hlow).symm ▸ hsl, List.Subset.refl _,
          fun r hr _ => hr, subset_cons_self low _⟩
        rintro b entry sl ⟨s, res⟩ ⟨hentry, forks, hforks, hmem⟩ hlow
        have hle := (hinv.sound b entry sl forks s res hentry hforks hmem).1
        refine ⟨entry, ⟨?_, forks, hforks, hmem⟩, rfl, le_rfl⟩
        rw [OrdMap.getElem?_filter_value (fun entry : BlockhashEntry T => low < entry.maxSlot),
          hentry, Option.filter_some, if_pos (by simpa using hlow.trans_le hle)]
      refine ⟨fun r hr hdropped => ?_, fun b entry slice forks s res hentry hforks hmem => ?_,
        fun s b deltas hdeltas hb => ?_⟩
      · exact hstep.complete hinv hr (hdropped low (.head _)) hdropped
      · dsimp only at hentry
        rw [OrdMap.getElem?_filter_value (fun entry : BlockhashEntry T => low < entry.maxSlot),
          Option.filter_eq_some_iff] at hentry
        exact hstep.sound hinv ⟨hentry.1, forks, hforks, hmem⟩ rfl le_rfl
          ((lt_or_ge low s).imp_right fun hle => ⟨low, .head _, hle⟩)
      dsimp only at hdeltas
      rw [OrdMap.getElem?_filter (fun slot => low < slot)] at hdeltas
      split at hdeltas
      · rename_i hlow
        have hlow : low < s := by simpa using hlow
        rw [hslices s b hlow]
        obtain ⟨hnodup, hne, -⟩ := hinv.delta s b deltas hdeltas hb
        exact ⟨hnodup, hne, hstep.delta hinv hdeltas hb hlow⟩
      · cases hdeltas
  · exact ⟨hinv.complete, hinv.sound, hinv.delta⟩

/-! ## Inserting -/

/-- The offset that a blockhash has, or gets. -/
def keyIndexOf (c : StatusCache T) (blockhash randomIndex : ℕ) : ℕ :=
  (c.cache[blockhash]?.map BlockhashEntry.keyIndex).getD randomIndex

/-- No uncleared insertion of the blockhash and slot has the same slice. -/
def Fresh (c : StatusCache T) (h : History T) (r : Insertion T) (randomIndex : ℕ) : Prop :=
  ∀ r' ∈ h.uncleared, r'.blockhash = r.blockhash → r'.slot = r.slot →
    sliceOf r'.key (c.keyIndexOf r.blockhash randomIndex)
      ≠ sliceOf r.key (c.keyIndexOf r.blockhash randomIndex)

/-- The slices of the second index after one was added. -/
lemma slices_addToSlotDelta (b s keyIndex : ℕ) (slice : KeySlice) (res : T) (s' b' : ℕ) :
    (c.addToSlotDelta b s keyIndex slice res).slices s' b'
      = if s' = s ∧ b' = b then c.slices s b ++ [slice] else c.slices s' b' := by
  unfold slices addToSlotDelta
  rw [OrdMap.getElem?_insert]
  by_cases hs : s = s'
  · subst hs
    rw [if_pos rfl, Option.getD_some, OrdMap.getElem?_insert]
    by_cases hb : b = b'
    · subst hb
      simp only
      cases (c.slotDeltas[s]?.getD ∅)[b]? <;> simp
    · rw [if_neg hb, if_neg (fun heq => hb heq.2.symm)]
  · rw [if_neg hs, if_neg (fun heq => hs heq.1.symm)]

lemma Invariant.nodup_slices (hinv : Invariant c h) (s b : ℕ) : (c.slices s b).Nodup := by
  rcases hslices : c.slices s b with _ | ⟨sl, sls⟩
  · exact nodup_nil
  have hsl : sl ∈ c.slices s b := hslices ▸ mem_cons_self
  rw [← hslices]
  obtain ⟨deltas, hdeltas, hb⟩ := exists_deltas hsl
  exact (hinv.delta s b deltas hdeltas hb).1

/-- All other entries of the second index were there before. -/
lemma deltas_of_addToSlotDelta {b s keyIndex s' b' : ℕ} {slice : KeySlice} {res : T}
    {deltas : Status T}
    (hdeltas : (c.addToSlotDelta b s keyIndex slice res).slotDeltas[s']? = some deltas)
    (hb : b' ∈ deltas) (hother : ¬(s' = s ∧ b' = b)) :
    ∃ deltas₀, c.slotDeltas[s']? = some deltas₀ ∧ b' ∈ deltas₀ := by
  simp only [addToSlotDelta, OrdMap.getElem?_insert] at hdeltas
  split_ifs at hdeltas with hs
  · cases hdeltas
    rw [mem_insert] at hb
    rcases hb with hb | hb
    · exact absurd ⟨hs.symm, (compare_eq_iff_eq.mp hb).symm⟩ hother
    cases hd : c.slotDeltas[s]? with
    | none =>
      rw [hd, Option.getD_none] at hb
      exact absurd hb not_mem_emptyc
    | some deltas₀ =>
      rw [hd, Option.getD_some] at hb
      exact ⟨deltas₀, hs ▸ hd, hb⟩
  · exact ⟨deltas, hdeltas, hb⟩

/-- A fresh slice is not in the second index. -/
lemma Invariant.notMem_slices (hinv : Invariant c h) {r : Insertion T} {randomIndex : ℕ}
    (hfresh : c.Fresh h r randomIndex) :
    sliceOf r.key (c.keyIndexOf r.blockhash randomIndex) ∉ c.slices r.slot r.blockhash := by
  intro hsl
  obtain ⟨deltas, hdeltas, hb⟩ := exists_deltas hsl
  obtain ⟨-, -, e, he, -, hall⟩ := hinv.delta _ _ deltas hdeltas hb
  obtain ⟨-, r', hr', hb', hs', hslice⟩ := hall _ hsl
  have hindex : e.keyIndex = c.keyIndexOf r.blockhash randomIndex := by
    simp [keyIndexOf, he]
  exact hfresh r' hr' hb' hs' (hindex ▸ hslice)

/-- A key that is long enough can be inserted; the invariant is kept if the slice is fresh. -/
theorem Invariant.insert (hinv : Invariant c h) (r : Insertion T) {randomIndex : ℕ}
    (hkey : cachedKeySize ≤ r.key.length) (hfresh : c.Fresh h r randomIndex) :
    ∃ c', c.insert r.blockhash r.key r.slot r.res randomIndex = .ok c'
      ∧ Invariant c' ⟨r :: h.insertions, r :: h.uncleared, h.dropped⟩ := by
  -- The entry of the blockhash before, as the code reads it.
  let entry₀ : BlockhashEntry T := (c.cache[r.blockhash]?).getD ⟨r.slot, randomIndex, ∅⟩
  let slice := sliceOf r.key entry₀.keyIndex
  let forks₀ := (entry₀.keyMap[slice]?).getD []
  let entry : BlockhashEntry T := ⟨max r.slot entry₀.maxSlot, entry₀.keyIndex,
    entry₀.keyMap.insert slice (forks₀ ++ [(r.slot, r.res)])⟩
  let c₁ : StatusCache T := { c with cache := c.cache.insert r.blockhash entry }
  let c' := c₁.addToSlotDelta r.blockhash r.slot (sliceIndex r.key entry.keyIndex) slice r.res
  have hindex : entry₀.keyIndex = c.keyIndexOf r.blockhash randomIndex := by
    simp only [entry₀, keyIndexOf]
    cases c.cache[r.blockhash]? <;> rfl
  have hcache : ∀ b, c'.cache[b]? = if r.blockhash = b then some entry else c.cache[b]? :=
    fun b => OrdMap.getElem?_insert
  have hslices : ∀ s b, c'.slices s b
      = if s = r.slot ∧ b = r.blockhash then c.slices r.slot r.blockhash ++ [slice]
        else c.slices s b := fun s b => slices_addToSlotDelta _ _ _ _ _ s b
  have hnew : c'.cache[r.blockhash]? = some entry := by rw [hcache, if_pos rfl]
  -- The statuses of the entry are those before and the new one.
  have hheld : ∀ sl f, (∃ forks, entry.keyMap[sl]? = some forks ∧ f ∈ forks)
      ↔ (∃ forks, entry₀.keyMap[sl]? = some forks ∧ f ∈ forks)
        ∨ slice = sl ∧ f = (r.slot, r.res) := by
    intro sl f
    rw [OrdMap.getElem?_insert]
    by_cases hsl : slice = sl
    · subst hsl
      cases hf : entry₀.keyMap[slice]? <;> simp [forks₀, hf]
    · simp [hsl]
  have hbefore : ∀ sl f, (∃ forks, entry₀.keyMap[sl]? = some forks ∧ f ∈ forks) →
      c.Holds r.blockhash entry₀ sl f := by
    rintro sl f ⟨forks, hforks, hmem⟩
    cases hc : c.cache[r.blockhash]? with
    | none =>
      simp only [entry₀, hc] at hforks
      cases hforks
    | some e => exact ⟨by simp only [entry₀, hc, Option.getD_some], forks, hforks, hmem⟩
  have hstep : Carries c c' h ⟨r :: h.insertions, r :: h.uncleared, h.dropped⟩ fun _ => True := by
    refine ⟨?_, ?_, subset_cons_self r _, fun r' hr' _ => .tail _ hr', List.Subset.refl _⟩
    · rintro b e sl f ⟨he, hforks⟩ -
      by_cases hb : r.blockhash = b
      · subst hb
        obtain rfl : entry₀ = e := by simp [entry₀, he]
        exact ⟨entry, ⟨hnew, (hheld sl f).mpr (.inl hforks)⟩, rfl, le_max_right _ _⟩
      · exact ⟨e, ⟨by rw [hcache, if_neg hb, he], hforks⟩, rfl, le_rfl⟩
    intro s b sl hsl _
    rw [hslices]
    split_ifs with heq
    · rw [← heq.1, ← heq.2]
      exact mem_append_left _ hsl
    · exact hsl
  refine ⟨c', ?_, fun r' hr' hdropped => ?_, fun b e sl forks s res he hforks hmem => ?_,
    fun s b deltas hdeltas hb => ?_⟩
  · unfold StatusCache.insert
    exact map_eq_ok.mpr ⟨slice, keySlice_eq hkey _, rfl⟩
  · rcases mem_cons.mp hr' with rfl | hr'
    · obtain ⟨forks, hforks, hmem⟩ := (hheld slice (r'.slot, r'.res)).mpr (.inr ⟨rfl, rfl⟩)
      exact ⟨entry, forks, hnew, hforks, hmem⟩
    · exact hstep.complete hinv hr' trivial hdropped
  · rw [hcache] at he
    split_ifs at he with hb
    · subst hb
      cases he
      rcases (hheld sl (s, res)).mp ⟨forks, hforks, hmem⟩ with hold | ⟨hsl, heq⟩
      · exact hstep.sound hinv (hbefore sl _ hold) rfl (le_max_right _ _) (.inl trivial)
      cases heq
      refine ⟨le_max_left _ _, .inl ?_, r, .head _, rfl, rfl, rfl, hsl, .inl (.head _)⟩
      rw [hslices, if_pos ⟨rfl, rfl⟩, ← hsl]
      exact mem_append_right _ (.head _)
    · exact hstep.sound hinv ⟨he, forks, hforks, hmem⟩ rfl le_rfl (.inl trivial)
  by_cases hsame : s = r.slot ∧ b = r.blockhash
  · -- The slices that were there keep their statuses, and the new one is fresh.
    obtain ⟨rfl, rfl⟩ := hsame
    have hnotMem : slice ∉ c.slices r.slot r.blockhash := by
      simp only [slice, hindex]
      exact hinv.notMem_slices hfresh
    rw [hslices, if_pos ⟨rfl, rfl⟩]
    refine ⟨nodup_append.mpr ⟨hinv.nodup_slices _ _, nodup_singleton _, ?_⟩, by simp,
      entry, hnew, le_max_left _ _, fun sl hsl => ?_⟩
    · intro a ha a' ha' heq
      rw [mem_singleton.mp ha'] at heq
      exact hnotMem (heq ▸ ha)
    rcases mem_append.mp hsl with hsl | hsl
    · obtain ⟨deltas₀, hdeltas₀, hb₀⟩ := exists_deltas hsl
      obtain ⟨e, he, -, hall⟩ := hstep.delta hinv hdeltas₀ hb₀ trivial
      cases hnew.symm.trans he
      exact hall sl hsl
    · obtain ⟨forks, hforks, hmem⟩ :=
        (hheld sl (r.slot, r.res)).mpr (.inr ⟨(mem_singleton.mp hsl).symm, rfl⟩)
      exact ⟨⟨forks, r.res, hforks, hmem⟩, r, .head _, rfl, rfl, (mem_singleton.mp hsl).symm⟩
  · rw [hslices, if_neg hsame]
    obtain ⟨deltas₀, hdeltas₀, hb₀⟩ := deltas_of_addToSlotDelta hdeltas hb hsame
    obtain ⟨hnodup, hne, -⟩ := hinv.delta s b deltas₀ hdeltas₀ hb₀
    exact ⟨hnodup, hne, hstep.delta hinv hdeltas₀ hb₀ trivial⟩

/-! ## Clearing -/

/-- The statuses of a key without those of a slot, if there are any. -/
def without (slot : ℕ) (forks : ForkStatus T) : Option (ForkStatus T) :=
  let forks := forks.filter fun f => f.1 ≠ slot
  if forks.isEmpty then none else some forks

lemma without_eq_some {forks forks' : ForkStatus T} (h : without slot forks = some forks')
    {s : ℕ} {res : T} : (s, res) ∈ forks' ↔ (s, res) ∈ forks ∧ s ≠ slot := by
  unfold without at h
  dsimp only at h
  split at h
  · cases h
  · cases h
    simp

lemma exists_without {forks : ForkStatus T} {s : ℕ} {res : T} (hmem : (s, res) ∈ forks)
    (hs : s ≠ slot) : ∃ forks', without slot forks = some forks' := by
  have hmem' : (s, res) ∈ forks.filter fun f => f.1 ≠ slot :=
    mem_filter.mpr ⟨hmem, by simpa using hs⟩
  refine ⟨_, if_neg ?_⟩
  rw [List.isEmpty_iff]
  exact ne_nil_of_mem hmem'

/-- The map of a blockhash without the statuses of a slot, of which the slices are given. -/
def ClearedMap (slot : ℕ) (sls : List KeySlice) (keyMap keyMap' : OrdMap KeySlice (ForkStatus T)) :
    Prop :=
  ∀ sl, keyMap'[sl]? = if sl ∈ sls then keyMap[sl]?.bind (without slot) else keyMap[sl]?

/-- The slices of a slot that are all in the map can be cleared. -/
lemma clearKey_loop (slot : ℕ) {sls : List KeySlice}
    {keyMap : OrdMap KeySlice (ForkStatus T)} (hnodup : sls.Nodup) (hall : ∀ sl ∈ sls, ∃ forks,
    keyMap[sl]? = some forks) :
    ∃ keyMap', sls.foldlM (clearKey slot) keyMap = .ok keyMap' ∧
      ClearedMap slot sls keyMap keyMap' := by
  obtain ⟨keyMap', hrun, -, hdone, hrest⟩ := foldlM_keys
    (fun (m : OrdMap KeySlice (ForkStatus T)) sl => m[sl]?) (clearKey slot) (fun _ => True)
    (fun sl e => e = keyMap[sl]? ∧ ∃ forks, keyMap[sl]? = some forks)
    (fun sl e => e = keyMap[sl]?.bind (without slot))
    (by
      rintro m sl - ⟨hm, forks, hforks⟩
      have hm' : m[sl]? = some forks := hm.trans hforks
      let forks' := forks.filter fun f => f.1 ≠ slot
      refine ⟨if forks'.isEmpty then m.erase sl else m.insert sl forks', ?_, trivial, ?_,
        fun sl' hsl' => ?_⟩
      · simp only [clearKey, hm', ← apply_ite]
        rfl
      · rw [OrdMap.getElem?_eraseOrInsert, if_pos rfl, hforks]
        rfl
      · rw [OrdMap.getElem?_eraseOrInsert, if_neg (Ne.symm hsl')])
    hnodup trivial (fun sl hsl => ⟨rfl, hall sl hsl⟩)
  refine ⟨keyMap', hrun, fun sl => ?_⟩
  split
  · exact hdone sl ‹_›
  · exact hrest sl ‹_›

/-- What clearing leaves of a blockhash. -/
def ClearedEntry (slot : ℕ) (sls : List KeySlice) (e e' : Option (BlockhashEntry T)) : Prop :=
  ∃ entry keyMap', e = some entry ∧ ClearedMap slot sls entry.keyMap keyMap'
    ∧ e' = if keyMap'.isEmpty then none else some { entry with keyMap := keyMap' }

/-- A status of another slot is left. -/
lemma ClearedEntry.keeps {sls : List KeySlice} {entry : BlockhashEntry T}
    {e' : Option (BlockhashEntry T)} (h : ClearedEntry slot sls (some entry) e') {sl : KeySlice}
    {forks : ForkStatus T} {s : ℕ} {res : T} (hforks : entry.keyMap[sl]? = some forks)
    (hmem : (s, res) ∈ forks) (hs : s ≠ slot) :
    ∃ entry' forks', e' = some entry' ∧ entry'.keyIndex = entry.keyIndex
      ∧ entry'.maxSlot = entry.maxSlot ∧ entry'.keyMap[sl]? = some forks' ∧ (s, res) ∈ forks' := by
  obtain ⟨entry₀, keyMap', heq, hcleared, he'⟩ := h
  cases heq
  obtain ⟨forks', hforks', hmem'⟩ : ∃ forks', keyMap'[sl]? = some forks' ∧ (s, res) ∈ forks' := by
    rw [hcleared sl, hforks]
    split
    · obtain ⟨forks', hforks'⟩ := exists_without hmem hs
      exact ⟨forks', hforks', (without_eq_some hforks').mpr ⟨hmem, hs⟩⟩
    · exact ⟨forks, rfl, hmem⟩
  have hne : keyMap'.isEmpty = false := by
    rw [Bool.eq_false_iff]
    intro hempty
    rw [isEmpty_iff_forall_not_mem] at hempty
    refine hempty sl ?_
    rw [mem_iff_isSome_getElem?, hforks']
    rfl
  exact ⟨{ entry with keyMap := keyMap' }, forks', by rw [he', hne]; rfl, rfl, rfl, hforks', hmem'⟩

/-- What is left was there, and not in the cleared slot if its slice was cleared. -/
lemma ClearedEntry.left {sls : List KeySlice} {e : Option (BlockhashEntry T)}
    {entry' : BlockhashEntry T} (h : ClearedEntry slot sls e (some entry')) {sl : KeySlice}
    {forks' : ForkStatus T} {s : ℕ} {res : T} (hforks' : entry'.keyMap[sl]? = some forks')
    (hmem : (s, res) ∈ forks') :
    ∃ entry forks, e = some entry ∧ entry'.keyIndex = entry.keyIndex
      ∧ entry'.maxSlot = entry.maxSlot ∧ entry.keyMap[sl]? = some forks ∧ (s, res) ∈ forks
      ∧ (sl ∈ sls → s ≠ slot) := by
  obtain ⟨entry, keyMap', heq, hcleared, he'⟩ := h
  split at he'
  · cases he'
  cases he'
  have hsl : keyMap'[sl]? = some forks' := hforks'
  rw [hcleared sl] at hsl
  split_ifs at hsl with hnot
  · cases hforks : entry.keyMap[sl]? with
    | none =>
      rw [hforks] at hsl
      cases hsl
    | some forks =>
      rw [hforks] at hsl
      have hmem' := (without_eq_some hsl).mp hmem
      exact ⟨entry, forks, heq, rfl, rfl, hforks, hmem'.1, fun _ => hmem'.2⟩
  · exact ⟨entry, forks', heq, rfl, rfl, hsl, hmem, fun h => absurd h hnot⟩

/-- The slot of a deltas entry can be cleared for all its blockhashes. -/
lemma clearBlockhash_loop (hinv : Invariant c h) {deltas : Status T}
    (hdeltas : c.slotDeltas[slot]? = some deltas) :
    ∃ cache', deltas.keys.foldlM (clearBlockhash slot deltas) c.cache = .ok cache'
      ∧ (∀ b ∈ deltas, ClearedEntry slot (c.slices slot b) c.cache[b]? cache'[b]?)
      ∧ ∀ b ∉ deltas, cache'[b]? = c.cache[b]? := by
  have hslices : ∀ b, ((deltas[b]?.map Prod.snd).getD []).map Prod.fst = c.slices slot b := by
    intro b
    rw [slices, hdeltas, Option.getD_some]
  obtain ⟨cache', hrun, -, hdone, hrest⟩ := foldlM_keys
    (fun (m : OrdMap ℕ (BlockhashEntry T)) b => m[b]?) (clearBlockhash slot deltas)
    (fun _ => True) (fun b e => e = c.cache[b]? ∧ b ∈ deltas)
    (fun b e => ClearedEntry slot (c.slices slot b) c.cache[b]? e)
    (by
      rintro m b - ⟨hm, hb⟩
      obtain ⟨hnodup, -, entry, hentry, -, hall⟩ := hinv.delta slot b deltas hdeltas hb
      obtain ⟨keyMap', hloop, hcleared⟩ := clearKey_loop slot hnodup fun sl hsl => by
        obtain ⟨⟨forks, -, hforks, -⟩, -⟩ := hall sl hsl
        exact ⟨forks, hforks⟩
      have hm' : m[b]? = some entry := hm.trans hentry
      rw [← hslices b] at hloop
      refine ⟨if keyMap'.isEmpty then m.erase b else m.insert b { entry with keyMap := keyMap' },
        ?_,
        trivial, ⟨entry, keyMap', hentry, hcleared, ?_⟩, fun b' hb' => ?_⟩
      · simp only [clearBlockhash, hm']
        exact bind_eq_ok.mpr ⟨keyMap', hloop, (apply_ite Except.ok _ _ _).symm⟩
      · rw [OrdMap.getElem?_eraseOrInsert, if_pos rfl]
      · rw [OrdMap.getElem?_eraseOrInsert, if_neg (Ne.symm hb')])
    nodup_keys trivial
    (fun b hb => ⟨rfl, mem_keys.mp hb⟩)
  refine ⟨cache', hrun, fun b hb => hdone b (mem_keys.mpr hb), fun b hb => ?_⟩
  exact hrest b fun hkeys => hb (mem_keys.mp hkeys)

/-- What clearing a slot keeps and leaves. -/
structure Cleared (c : StatusCache T) (slot : ℕ) (c' : StatusCache T) : Prop where
  roots : c'.roots = c.roots
  slotDeltas : ∀ s, c'.slotDeltas[s]? = if slot = s then none else c.slotDeltas[s]?
  keeps : ∀ {b entry sl f}, c.Holds b entry sl f → f.1 ≠ slot → ∃ entry', c'.Holds b entry' sl f
    ∧ entry'.keyIndex = entry.keyIndex ∧ entry.maxSlot ≤ entry'.maxSlot
  left : ∀ {b entry' sl f}, c'.Holds b entry' sl f → ∃ entry, c.Holds b entry sl f
    ∧ entry'.keyIndex = entry.keyIndex ∧ entry.maxSlot ≤ entry'.maxSlot
    ∧ (sl ∈ c.slices slot b → f.1 ≠ slot)

lemma Invariant.clearSlotEntries_cleared (hinv : Invariant c h) (slot : ℕ) :
    ∃ c', c.clearSlotEntries slot = .ok c' ∧ Cleared c slot c' := by
  cases hdeltas : c.slotDeltas[slot]? with
  | none =>
    refine ⟨c, by rw [StatusCache.clearSlotEntries, hdeltas], rfl, fun s => ?_,
      fun hold _ => ⟨_, hold, rfl, le_rfl⟩, fun hold => ⟨_, hold, rfl, le_rfl, fun hsl => ?_⟩⟩
    · split
      · rwa [← ‹slot = s›]
      · rfl
    · obtain ⟨deltas, hsome, -⟩ := exists_deltas hsl
      cases hdeltas.symm.trans hsome
  | some deltas =>
    obtain ⟨cache', hrun, hdone, hrest⟩ := clearBlockhash_loop hinv hdeltas
    refine ⟨⟨cache', c.roots, c.slotDeltas.erase slot⟩, ?_, rfl, fun s =>
      OrdMap.getElem?_erase, ?_, ?_⟩
    · rw [StatusCache.clearSlotEntries, hdeltas]
      exact map_eq_ok.mpr ⟨cache', hrun, rfl⟩
    · rintro b entry sl ⟨s, res⟩ ⟨hentry, forks, hforks, hmem⟩ hs
      by_cases hb : b ∈ deltas
      · have hcleared := hdone b hb
        rw [hentry] at hcleared
        obtain ⟨entry', forks', hentry', hindex, hmax, hforks', hmem'⟩ :=
          hcleared.keeps hforks hmem hs
        exact ⟨entry', ⟨hentry', forks', hforks', hmem'⟩, hindex, hmax.ge⟩
      · exact ⟨entry, ⟨(hrest b hb).trans hentry, forks, hforks, hmem⟩, rfl, le_rfl⟩
    rintro b entry' sl ⟨s, res⟩ ⟨hentry' : cache'[b]? = some entry', forks', hforks', hmem'⟩
    by_cases hb : b ∈ deltas
    · have hcleared := hdone b hb
      rw [hentry'] at hcleared
      obtain ⟨entry, forks, hentry, hindex, hmax, hforks, hmem, hslot⟩ :=
        hcleared.left hforks' hmem'
      exact ⟨entry, ⟨hentry, forks, hforks, hmem⟩, hindex, hmax.ge, hslot⟩
    · rw [hrest b hb] at hentry'
      refine ⟨entry', ⟨hentry', forks', hforks', hmem'⟩, rfl, le_rfl, fun hsl => ?_⟩
      rw [slices, hdeltas, Option.getD_some, getElem?_eq_none hb] at hsl
      cases hsl

/-- A slot can be cleared. -/
theorem Invariant.clearSlotEntries (hinv : Invariant c h) (slot : ℕ) :
    ∃ c', c.clearSlotEntries slot = .ok c' ∧ c'.roots = c.roots
      ∧ Invariant c' { h with uncleared := h.uncleared.filter fun r => r.slot ≠ slot } := by
  obtain ⟨c', hcall, hcleared⟩ := hinv.clearSlotEntries_cleared slot
  have hfilter : ∀ r, r ∈ h.uncleared.filter (fun r => r.slot ≠ slot)
      ↔ r ∈ h.uncleared ∧ r.slot ≠ slot := fun r => by simp
  have hslices : ∀ {s : ℕ} (b : ℕ), s ≠ slot → c'.slices s b = c.slices s b := by
    intro s b hs
    rw [slices, slices, hcleared.slotDeltas, if_neg (Ne.symm hs)]
  have hstep : Carries c c' h
      { h with uncleared := h.uncleared.filter fun r => r.slot ≠ slot } (· ≠ slot) :=
    ⟨hcleared.keeps, fun hsl hs => (hslices _ hs).symm ▸ hsl, List.Subset.refl _,
      fun r hr hs => (hfilter r).mpr ⟨hr, hs⟩, List.Subset.refl _⟩
  refine ⟨c', hcall, hcleared.roots, fun r hr hdropped => ?_,
    fun b entry' slice forks' s res hentry' hforks' hmem' => ?_, fun s b deltas hdeltas hb => ?_⟩
  · obtain ⟨hr, hslot⟩ := (hfilter r).mp hr
    exact hstep.complete hinv hr hslot hdropped
  · obtain ⟨entry, hold, hindex, hmax, hslot⟩ := hcleared.left ⟨hentry', forks', hforks', hmem'⟩
    -- what is left of the slot is not in the second index, so it is below a dropped root
    refine hstep.sound hinv hold hindex hmax (or_iff_not_imp_left.mpr fun hs => ?_)
    obtain ⟨hentry, forks, hforks, hmem⟩ := hold
    obtain ⟨-, hdelta, -⟩ := hinv.sound b entry slice forks s res hentry hforks hmem
    obtain rfl : s = slot := not_not.mp hs
    exact hdelta.resolve_left fun hsl => hslot hsl rfl
  rw [hcleared.slotDeltas] at hdeltas
  split at hdeltas
  · cases hdeltas
  rename_i hslot
  obtain ⟨hnodup, hne, -⟩ := hinv.delta s b deltas hdeltas hb
  rw [hslices b (Ne.symm hslot)]
  exact ⟨hnodup, hne, hstep.delta hinv hdeltas hb (Ne.symm hslot)⟩

end StatusCache

/-! ## Runs -/

open StatusCache

/-- The caches that calls lead to, with what happened. -/
inductive Reachable : StatusCache T → History T → Prop
  | default : Reachable StatusCache.default ⟨[], [], []⟩
  | insert {c c' : StatusCache T} {h : History T} {r : Insertion T} {randomIndex : ℕ}
      (hc : Reachable c h) (hkey : cachedKeySize ≤ r.key.length)
      (hrandom : randomIndex ≤ maxKeyIndex r.key) (hfresh : c.Fresh h r randomIndex)
      (hcall : c.insert r.blockhash r.key r.slot r.res randomIndex = .ok c') :
      Reachable c' ⟨r :: h.insertions, r :: h.uncleared, h.dropped⟩
  | addRoot {c : StatusCache T} {h : History T} (fork : ℕ) (hc : Reachable c h) :
      Reachable (c.addRoot fork) { h with dropped := c.droppedBy fork ++ h.dropped }
  | clear {c c' : StatusCache T} {h : History T} {slot : ℕ} (hc : Reachable c h)
      (hcall : c.clearSlotEntries slot = .ok c') :
      Reachable c' { h with uncleared := h.uncleared.filter fun r => r.slot ≠ slot }

lemma Reachable.invariant {c : StatusCache T} {h : History T} (hc : Reachable c h) :
    Invariant c h := by
  induction hc with
  | default => exact default_invariant
  | insert _ hkey _ hfresh hcall ih =>
    obtain ⟨c', hok, hinv⟩ := ih.insert _ hkey hfresh
    cases hcall.symm.trans hok
    exact hinv
  | addRoot fork _ ih => exact ih.addRoot fork
  | clear _ hcall ih =>
    obtain ⟨c', hok, -, hinv⟩ := ih.clearSlotEntries _
    cases hcall.symm.trans hok
    exact hinv

/-- In every reachable state: no call panics; a key that was inserted in a slot that was not cleared
since, is above every root dropped so far and is an ancestor or a root has a status; and a status
that is found is that of an insertion under the blockhash of a key with the same slice, in a slot
that is an ancestor or a root, and was not cleared since or is at most a dropped root. -/
theorem reachable_protects {c : StatusCache T} {h : History T} (hc : Reachable c h) :
    (∀ (r : Insertion T) (randomIndex : ℕ), cachedKeySize ≤ r.key.length →
      randomIndex ≤ maxKeyIndex r.key → c.Fresh h r randomIndex →
      ∃ c', c.insert r.blockhash r.key r.slot r.res randomIndex = .ok c')
    ∧ (∀ slot, ∃ c', c.clearSlotEntries slot = .ok c')
    ∧ (∀ (key : List UInt8) (blockhash : ℕ) (ancestors : ℕ → Bool), cachedKeySize ≤ key.length →
      ∃ status, c.getStatus key blockhash ancestors = .ok status
        ∧ ((∃ r ∈ h.uncleared, r.blockhash = blockhash ∧ r.key = key ∧ (∀ d ∈ h.dropped, d < r.slot)
          ∧ (ancestors r.slot = true ∨ c.roots.contains r.slot = true)) → status.isSome = true)
        ∧ ∀ slot res, status = some (slot, res) →
          (ancestors slot = true ∨ c.roots.contains slot = true)
          ∧ ∃ r ∈ h.insertions, r.blockhash = blockhash ∧ r.slot = slot ∧ r.res = res
            ∧ (∃ keyIndex, (c.cache[blockhash]?.map BlockhashEntry.keyIndex) = some keyIndex
              ∧ sliceOf r.key keyIndex = sliceOf key keyIndex)
            ∧ (r ∈ h.uncleared ∨ ∃ d ∈ h.dropped, slot ≤ d)) := by
  have hinv := hc.invariant
  refine ⟨fun r randomIndex hkey _ hfresh => ?_, fun slot => ?_, fun key blockhash ancestors hkey =>
    ?_⟩
  · obtain ⟨c', hok, -⟩ := hinv.insert r hkey hfresh
    exact ⟨c', hok⟩
  · obtain ⟨c', hok, -⟩ := hinv.clearSlotEntries slot
    exact ⟨c', hok⟩
  unfold getStatus
  cases hentry : c.cache[blockhash]? with
  | none =>
    refine ⟨none, rfl, ?_, by simp⟩
    rintro ⟨r, hr, rfl, -, hdropped, -⟩
    obtain ⟨entry, -, hsome, -⟩ := hinv.complete r hr hdropped
    cases hentry.symm.trans hsome
  | some entry =>
    refine ⟨_, map_eq_ok.mpr ⟨_, keySlice_eq hkey _, rfl⟩, ?_, ?_⟩
    · rintro ⟨r, hr, rfl, rfl, hdropped, hfork⟩
      obtain ⟨entry', forks, hentry', hforks, hmem⟩ := hinv.complete r hr hdropped
      rw [hentry] at hentry'
      cases hentry'
      simp only [hforks]
      rw [find?_isSome]
      exact ⟨_, hmem, by simpa using hfork⟩
    intro slot res hstatus
    cases hforks : entry.keyMap[sliceOf key entry.keyIndex]? with
    | none =>
      simp only [hforks] at hstatus
      cases hstatus
    | some forks =>
      simp only [hforks] at hstatus
      have hfork := find?_some hstatus
      have hmem := mem_of_find?_eq_some hstatus
      obtain ⟨-, -, r, hr, hb, hs, hres, hslice, huncleared⟩ :=
        hinv.sound _ _ _ _ _ _ hentry hforks hmem
      exact ⟨by simpa using hfork, r, hr, hb, hs, hres, ⟨entry.keyIndex, rfl, hslice⟩, huncleared⟩

/-- The cache with more roots, and the roots dropped so far. -/
def addRoots (st : StatusCache T × List ℕ) (forks : List ℕ) : StatusCache T × List ℕ :=
  forks.foldl (fun st fork => (st.1.addRoot fork, st.1.droppedBy fork ++ st.2)) st

lemma Reachable.addRoots {c : StatusCache T} {h : History T} (hc : Reachable c h) (forks : List ℕ) :
    Reachable (Runtime.addRoots (c, h.dropped) forks).1
      { h with dropped := (Runtime.addRoots (c, h.dropped) forks).2 } := by
  induction forks generalizing c h with
  | nil => exact hc
  | cons fork forks ih => exact ih (hc.addRoot fork)

/-- The roots 0 and 10 are dropped, keys are inserted in three slots, and one slot is cleared; the
key of another slot is found. -/
theorem reachable_protects_threeKeys : ∃ (c : StatusCache Unit) (h : History Unit)
    (status : Option (ℕ × Unit)), Reachable c h ∧ h.insertions.length = 3
      ∧ h.uncleared.length = 2 ∧ h.dropped = [10, 0]
      ∧ c.getStatus (replicate 20 2) 7 (· == 1000) = .ok status ∧ status.isSome = true := by
  let r (key : UInt8) (slot : ℕ) : Insertion Unit := ⟨7, replicate 20 key, slot, ()⟩
  have hc := (Reachable.default (T := Unit)).addRoots (range' 10 301)
  have hdropped :
      (addRoots (StatusCache.default (T := Unit), []) (range' 10 301)).2 = [10, 0] := by
    decide +kernel
  rw [hdropped] at hc
  obtain ⟨c₁, h₁⟩ := (reachable_protects hc).1 (r 1 5) 0 (by decide) (by decide) nofun
  have hc₁ := hc.insert (by decide) (by decide) nofun h₁
  have hfresh₂ : c₁.Fresh ⟨[r 1 5], [r 1 5], [10, 0]⟩ (r 2 1000) 0 := by simp [Fresh, r]
  obtain ⟨c₂, h₂⟩ := (reachable_protects hc₁).1 (r 2 1000) 0 (by decide) (by decide) hfresh₂
  have hc₂ := hc₁.insert (by decide) (by decide) hfresh₂ h₂
  have hfresh₃ : c₂.Fresh ⟨[r 2 1000, r 1 5], [r 2 1000, r 1 5], [10, 0]⟩ (r 3 1001) 0 := by
    simp [Fresh, r]
  obtain ⟨c₃, h₃⟩ := (reachable_protects hc₂).1 (r 3 1001) 0 (by decide) (by decide) hfresh₃
  have hc₃ := hc₂.insert (by decide) (by decide) hfresh₃ h₃
  obtain ⟨c₄, h₄⟩ := (reachable_protects hc₃).2.1 1001
  have hc₄ := hc₃.clear h₄
  obtain ⟨status, hstatus, hfound, -⟩ :=
    (reachable_protects hc₄).2.2 (replicate 20 2) 7 (· == 1000) (by decide)
  exact ⟨c₄, _, status, hc₄, rfl, rfl, rfl, hstatus,
    hfound ⟨r 2 1000, by simp [r], rfl, rfl, by simp [r], .inl rfl⟩⟩

/-- A key of slot 5, and one of slot 1000 with the same blockhash. Once the root 10 is dropped,
clearing slot 5 does nothing, and the key of slot 5 is still found there. -/
theorem finds_cleared_slot : (do
    let c ← (StatusCache.default : StatusCache Unit).insert 7 (replicate 20 1) 5 () 0
    let c ← c.insert 7 (replicate 20 2) 1000 () 0
    let c := (range 301).foldl (fun c i => addRoot c (10 + i)) c
    let c ← c.clearSlotEntries 5
    c.getStatus (replicate 20 1) 7 fun slot => slot == 5) = .ok (some (5, ())) := by
  decide +kernel

end Trezoa.Runtime
