import Trezoa.AccountsDb.AccountsIndex
import Trezoa.AccountsDb.DeleteDependencies

/-!
# Updating a slot list

Models `upsert` of `accounts-db/src/accounts_index/in_mem_accounts_index.rs` on the entry of a key:
its slot list, and its reference count, which is the number of versions that are not cached.

* `upserts_exact`: no assertion fails in a sequence of upserts, and no version is lost.

The change of the count is an `i32`, whose subtraction is checked. The age of an entry and whether
it is dirty are left out.
-/

namespace Trezoa.AccountsDb

open Lib List

/-- Whether an account is in the write cache. -/
class IsCached (T : Type) where
  isCached : T → Bool

open IsCached

instance instIsCached : IsCached AccountInfo := ⟨AccountInfo.isCached⟩

abbrev SlotList (T : Type) := List (SlotListItem T)

/-- What an upsert does with older versions. -/
inductive UpsertReclaim where
  | previousSlotEntryWasCached
  | populateReclaims
  | ignoreReclaims
  | reclaimOldSlots
deriving DecidableEq

/-- The count is a `u32`. -/
def refCountMax : ℕ := 2 ^ 32 - 1

/-- The versions of an account, with their count. -/
structure AccountMapEntry (T : Type) where
  slotList : SlotList T
  refCount : ℕ

/-- The arguments of an upsert. -/
structure Upsert (T : Type) where
  slot : ℕ
  accountInfo : T
  otherSlot : Option ℕ
  reclaim : UpsertReclaim

/-- The variables of the pass over a slot list. -/
structure Retain (T : Type) where
  slotList : SlotList T
  reclaims : SlotList T
  refCountChange : ℤ
  foundSlot : Bool

variable {T : Type} (u : Upsert T)

/-- The slot that is replaced. -/
def Upsert.oldSlot : ℕ := u.otherSlot.getD u.slot

abbrev Upsert.newValue : SlotListItem T := (u.slot, u.accountInfo)

variable {u} in
lemma nodup_push {slotList : SlotList T} (h : (slotList.map Prod.fst).Nodup)
    (hslot : u.slot ∉ slotList.map Prod.fst) : ((slotList ++ [u.newValue]).map Prod.fst).Nodup := by
  rw [map_append]
  exact h.append (nodup_singleton _) (disjoint_singleton.mpr hslot)

variable [IsCached T]

/-- `ref_count_change -= 1`. -/
def decrement (refCountChange : ℤ) : Except CleanPanic ℤ :=
  if -2 ^ 31 < refCountChange then .ok (refCountChange - 1) else .error .subtraction

/-- The closure that `update_slot_list` calls for each item. -/
def retainItem (st : Retain T) (item : SlotListItem T) : Except CleanPanic (Retain T) :=
  if item.1 = u.oldSlot then
    if st.foundSlot = true ∨ u.reclaim = .previousSlotEntryWasCached ∧ isCached item.2 = false then
      .error .assertion
    else do
      let reclaims := if (u.reclaim = .reclaimOldSlots ∨ u.reclaim = .populateReclaims)
        ∧ isCached item.2 = false then st.reclaims ++ [item] else st.reclaims
      let refCountChange ←
        if isCached item.2 then .ok st.refCountChange else decrement st.refCountChange
      return ⟨st.slotList ++ [u.newValue], reclaims, refCountChange, true⟩
  else if u.reclaim = .reclaimOldSlots then
    if isCached item.2 = false ∧ item.1 < u.slot then do
      let refCountChange ← decrement st.refCountChange
      return { st with reclaims := st.reclaims ++ [item], refCountChange := refCountChange }
    else .ok { st with slotList := st.slotList ++ [item] }
  else if item.1 = u.slot then .error .assertion
  else .ok { st with slotList := st.slotList ++ [item] }

/-- The pass over the slot list. -/
def updateSlotList (slotList reclaims : SlotList T) : Except CleanPanic (Retain T) :=
  if isCached u.accountInfo then .error .assertion
  else do
    let st ← slotList.foldlM (retainItem u) ⟨[], reclaims, 1, false⟩
    return { st with slotList := if st.foundSlot then st.slotList else st.slotList ++ [u.newValue] }

/-- The new list with the changed count. -/
def lockAndUpdateSlotList (entry : AccountMapEntry T) (reclaims : SlotList T) :
    Except CleanPanic (AccountMapEntry T × SlotList T) := do
  let st ← updateSlotList u entry.slotList reclaims
  if st.refCountChange = 0 then .ok (⟨st.slotList, entry.refCount⟩, st.reclaims)
  else if 0 < st.refCountChange then
    if st.refCountChange = 1 ∧ entry.refCount ≠ refCountMax then
      .ok (⟨st.slotList, entry.refCount + 1⟩, st.reclaims)
    else .error .assertion
  else if st.refCountChange.natAbs ≤ entry.refCount then
    .ok (⟨st.slotList, entry.refCount - st.refCountChange.natAbs⟩, st.reclaims)
  else .error .assertion

/-- Adds a cached version unless its slot has one. -/
def cacheEntryAtSlot (entry : AccountMapEntry T) : AccountMapEntry T :=
  if u.slot ∈ entry.slotList.map Prod.fst then entry
  else { entry with slotList := entry.slotList ++ [u.newValue] }

/-- An upsert of an entry, with the reclaims so far. -/
def upsert (st : AccountMapEntry T × SlotList T) (u : Upsert T) :
    Except CleanPanic (AccountMapEntry T × SlotList T) :=
  if isCached u.accountInfo then .ok (cacheEntryAtSlot u st.1, st.2)
  else lockAndUpdateSlotList u st.1 st.2

/-! ## What an upsert keeps -/

/-- The versions that are counted. -/
def uncached (slotList : SlotList T) : SlotList T :=
  slotList.filter fun item => !isCached item.2

/-- The slots are distinct, and the count is exact. -/
structure ExactEntry (entry : AccountMapEntry T) : Prop where
  nodup : (entry.slotList.map Prod.fst).Nodup
  refCount : entry.refCount = (uncached entry.slotList).length

/-- A version that is not cached replaces the one at its own slot, and what it removes is
reclaimed. -/
def Replaces : Prop :=
  isCached u.accountInfo = false →
    u.oldSlot = u.slot ∧ (u.reclaim = .populateReclaims ∨ u.reclaim = .reclaimOldSlots)

/-- After some items of which one list is kept and another reclaimed. -/
def Retain.add (st : Retain T) (kept gone : SlotList T) (found : Bool) : Retain T :=
  ⟨st.slotList ++ kept, st.reclaims ++ gone, st.refCountChange - gone.length, st.foundSlot || found⟩

/-- Of some items the pass keeps one list, with the new version in place of the one at its slot, and
reclaims another. -/
structure Splits (items kept gone : SlotList T) : Prop where
  slots : kept.map Prod.fst <+ items.map Prod.fst
  reclaimed : gone <+ uncached items
  counted : (uncached kept ++ gone).Perm
    ((if u.slot ∈ items.map Prod.fst then [u.newValue] else []) ++ uncached items)

variable {u}

@[simp]
lemma uncached_append (l l' : SlotList T) : uncached (l ++ l') = uncached l ++ uncached l' :=
  filter_append ..

@[simp]
lemma uncached_singleton (item : SlotListItem T) :
    uncached [item] = if isCached item.2 then [] else [item] := by
  cases h : isCached item.2 <;> simp [uncached, h]

lemma Splits.cons {item : SlotListItem T} {items kept gone kept' gone' : SlotList T}
    (hitem : Splits u [item] kept gone) (h : Splits u items kept' gone')
    (hnew : item.1 ∉ items.map Prod.fst) :
    Splits u (item :: items) (kept ++ kept') (gone ++ gone') := by
  classical
  refine ⟨by simpa using hitem.slots.append h.slots, ?_, perm_iff_count.mpr fun v => ?_⟩
  · rw [← singleton_append, uncached_append]
    exact hitem.reclaimed.append h.reclaimed
  have hcount := perm_iff_count.mp hitem.counted v
  have hcount' := perm_iff_count.mp h.counted v
  rw [← singleton_append, uncached_append, uncached_append]
  by_cases heq : item.1 = u.slot
  · simp [heq ▸ hnew, heq, count_cons] at hcount hcount' ⊢
    omega
  · simp [Ne.symm heq, count_append] at hcount hcount' ⊢
    omega

section
variable (hcached : isCached u.accountInfo = false) (h : Replaces u)
include hcached h

/-- An item is replaced, reclaimed or kept. -/
lemma retainItem_splits (st : Retain T) (item : SlotListItem T)
    (hchange : -2 ^ 31 < st.refCountChange)
    (hfound : item.1 = u.slot → st.foundSlot = false) : ∃ kept gone,
      Splits u [item] kept gone ∧
        retainItem u st item = .ok (st.add kept gone (item.1 = u.slot)) := by
  obtain ⟨hslot, hmode⟩ := h hcached
  unfold retainItem Retain.add decrement
  rw [hslot, if_pos hchange]
  by_cases heq : item.1 = u.slot
  · refine ⟨[u.newValue], uncached [item],
      ⟨by simp [heq], .refl _, by simp [heq, hcached]⟩, ?_⟩
    cases hitem : isCached item.2 <;> rcases hmode with hmode | hmode <;>
      simp [heq, hfound heq, hmode, hitem, bind, Except.bind, pure, Except.pure]
  by_cases hold : u.reclaim = .reclaimOldSlots ∧ isCached item.2 = false ∧ item.1 < u.slot
  · exact ⟨[], [item], ⟨by simp, by simp [hold.2.1], by simp [Ne.symm heq, hold.2.1, uncached]⟩,
      by simp [heq, hold, bind, Except.bind, pure, Except.pure]⟩
  · refine ⟨[item], [], ⟨by simp, nil_sublist _, by simp [Ne.symm heq]⟩, ?_⟩
    rcases hmode with hmode | hmode
    · simp [heq, hmode]
    · rw [hmode, eq_self, true_and] at hold
      simp [heq, hmode, hold]

/-- The pass over a slot list. -/
lemma foldlM_retainItem {items : SlotList T} (hnodup : (items.map Prod.fst).Nodup)
    (st : Retain T) (hchange : (uncached items).length < st.refCountChange + 2 ^ 31)
    (hfound : st.foundSlot = true → u.slot ∉ items.map Prod.fst) : ∃ kept gone,
      Splits u items kept gone ∧ items.foldlM (retainItem u) st =
        .ok (st.add kept gone (u.slot ∈ items.map Prod.fst)) := by
  induction items generalizing st with
  | nil => exact ⟨[], [], ⟨.slnil, .slnil, by simp [uncached]⟩, by simp [pure, Except.pure,
      Retain.add]⟩
  | cons item items ih =>
    rw [map_cons, nodup_cons] at hnodup
    rw [← singleton_append, uncached_append, length_append] at hchange
    obtain ⟨kept, gone, hitem, hst⟩ := retainItem_splits hcached h st item (by omega) (by grind)
    have hgone := hitem.reclaimed.length_le
    obtain ⟨kept', gone', hitems, hrest⟩ := ih hnodup.2 (st.add kept gone (item.1 = u.slot))
      (by dsimp only [Retain.add]; omega) (by grind [Retain.add])
    refine ⟨_, _, hitem.cons hitems hnodup.1, foldlM_cons_eq_ok.mpr ⟨_, hst, hrest.trans ?_⟩⟩
    grind [Retain.add]

end

/-- One upsert. -/
theorem upsert_exact (h : Replaces u) {entry : AccountMapEntry T}
    (hexact : ExactEntry entry) (hmax : entry.refCount < 2 ^ 31)
    (reclaims : SlotList T) :
    ∃ entry' gone, upsert (entry, reclaims) u = .ok (entry', reclaims ++ gone) ∧
      ExactEntry entry' ∧ entry'.refCount ≤ entry.refCount + 1 ∧
      (uncached entry'.slotList ++ gone).Perm
        (uncached [u.newValue] ++ uncached entry.slotList) := by
  unfold upsert
  cases hcached : isCached u.accountInfo
  · have hnew : uncached [u.newValue] = [u.newValue] := by simp [hcached]
    obtain ⟨kept, gone, ⟨hslots, -, hcounted⟩, hpass⟩ := foldlM_retainItem hcached h hexact.nodup
      ⟨[], reclaims, 1, false⟩ (by rw [← hexact.refCount]; dsimp only; omega) nofun
    have hkept := hexact.nodup.sublist hslots
    obtain ⟨slotList, hslotList, hperm, hnodup⟩ : ∃ slotList : SlotList T,
        slotList = (if u.slot ∈ entry.slotList.map Prod.fst then kept else kept ++ [u.newValue]) ∧
        (uncached slotList ++ gone).Perm (u.newValue :: uncached entry.slotList) ∧
        (slotList.map Prod.fst).Nodup := by
      refine ⟨_, rfl, ?_⟩
      split_ifs at hcounted ⊢ with hslot
      · exact ⟨hcounted, hkept⟩
      · rw [uncached_append, hnew, append_assoc]
        exact ⟨perm_middle.trans (hcounted.cons _),
          nodup_push hkept fun hmem => hslot (hslots.subset hmem)⟩
    have hupdate : updateSlotList u entry.slotList reclaims =
        .ok ⟨slotList, reclaims ++ gone, 1 - gone.length, u.slot ∈ entry.slotList.map Prod.fst⟩ :=
      (if_neg (by simp [hcached])).trans (bind_eq_ok.mpr
        ⟨_, hpass, by rw [hslotList]; simp [Retain.add, pure, Except.pure]; grind⟩)
    -- the count changes by one less what is reclaimed
    have hlength := hperm.length_eq
    rw [length_append, length_cons, ← hexact.refCount] at hlength
    refine ⟨⟨slotList, (uncached slotList).length⟩, gone, bind_eq_ok.mpr ⟨_, hupdate, ?_⟩,
      ⟨hnodup, rfl⟩, by dsimp only; omega, by rwa [hnew]⟩
    have hlt : entry.refCount ≠ refCountMax := by
      unfold refCountMax
      omega
    dsimp only
    split_ifs <;> first | omega | (congr 3; omega)
  · have hnew : uncached [u.newValue] = [] := by simp [hcached]
    rw [hnew, if_pos rfl, cacheEntryAtSlot]
    split
    · exact ⟨entry, [], by simp, hexact, Nat.le_succ _, by simp⟩
    · next hslot =>
      exact ⟨⟨entry.slotList ++ [u.newValue], entry.refCount⟩, [], by rw [append_nil],
        ⟨nodup_push hexact.nodup hslot, by simp [hcached, hexact.refCount]⟩,
        Nat.le_succ _, by simp [hcached]⟩

/-- From distinct slots and an exact count, no assertion of an upsert fails. The slots stay distinct
and the count exact, and each counted version that was there or is new is in the slot list or
reclaimed afterwards. -/
theorem upserts_exact {st : AccountMapEntry T × SlotList T} {us : List (Upsert T)}
    (hexact : ExactEntry st.1) (hus : ∀ u ∈ us, Replaces u)
    (hmax : st.1.refCount + us.length < 2 ^ 31) : ∃ st',
      us.foldlM upsert st = .ok st' ∧ ExactEntry st'.1 ∧
      (uncached st'.1.slotList ++ st'.2).Perm
        (uncached (us.map Upsert.newValue) ++ (uncached st.1.slotList ++ st.2)) := by
  classical
  induction us generalizing st with
  | nil => exact ⟨st, rfl, hexact, .refl _⟩
  | cons u us ih =>
    obtain ⟨entry, reclaims⟩ := st
    rw [length_cons] at hmax
    obtain ⟨entry₁, gone, hu, hexact₁, hle, hperm₁⟩ :=
      upsert_exact (hus u (.head _)) hexact (by omega) reclaims
    obtain ⟨st', hrest, hexact', hperm⟩ := @ih (entry₁, reclaims ++ gone) hexact₁
      (fun u hu => hus u (.tail _ hu)) (by dsimp only at *; omega)
    refine ⟨st', foldlM_cons_eq_ok.mpr ⟨_, hu, hrest⟩, hexact', perm_iff_count.mpr fun v => ?_⟩
    have hcount₁ := perm_iff_count.mp hperm₁ v
    have hcount := perm_iff_count.mp hperm v
    rw [map_cons, ← singleton_append, uncached_append]
    simp only [count_append] at *
    omega

/-- A cached version, one that is stored over it, and a later one that reclaims both stored ones. -/
def someUpserts : List (Upsert AccountInfo) :=
  [⟨5, ⟨1, 0, false, true⟩, none, .ignoreReclaims⟩,
    ⟨5, ⟨1, 0, false, false⟩, none, .populateReclaims⟩,
    ⟨7, ⟨2, 0, false, false⟩, none, .reclaimOldSlots⟩]

theorem upserts_exact_someUpserts :
    someUpserts.foldlM upsert (⟨[(3, ⟨0, 0, false, false⟩)], 1⟩, []) =
      .ok (⟨[(7, ⟨2, 0, false, false⟩)], 1⟩,
        [(3, ⟨0, 0, false, false⟩), (5, ⟨1, 0, false, false⟩)]) ∧
    ∃ st', someUpserts.foldlM upsert (⟨[(3, ⟨0, 0, false, false⟩)], 1⟩, []) = .ok st' ∧
      ExactEntry st'.1 :=
  ⟨rfl, (upserts_exact ⟨by simp, rfl⟩ (by simp [someUpserts, Replaces, Upsert.oldSlot])
    (by decide)).imp fun _ h => ⟨h.1, h.2.1⟩⟩

end Trezoa.AccountsDb
