import Trezoa.Ledger.SlotMeta

/-!
# The metadata of a slot is exact

Whatever data shreds of a slot arrive, in whatever order, the metadata says what was inserted.

* `arrivals_exact`: after any arrivals these are inserted and the invariant holds.
-/

namespace Trezoa.Ledger

open Lib List Nat DataShred

/-! ## Sets of indices -/

lemma mem_indexRange {s : Finset ℕ} {start stop i : ℕ} :
    i ∈ indexRange s start stop ↔ i ∈ s ∧ start ≤ i ∧ i < stop := by
  rw [indexRange, Finset.mem_sort, Finset.mem_filter]

lemma pairwise_indexRange (s : Finset ℕ) (start stop : ℕ) :
    (indexRange s start stop).Pairwise (· < ·) := (Finset.sortedLT_sort _).pairwise

/-- The sorted indices of a range are all of them exactly if each is there. -/
theorem indexRange_eq_range' {s : Finset ℕ} {start stop : ℕ} :
    indexRange s start stop = List.range' start (stop - start) ↔
      ∀ i, start ≤ i → i < stop → i ∈ s := by
  constructor
  · intro h i hstart hstop
    have : i ∈ indexRange s start stop := by
      rw [h, mem_range'_1]
      omega
    exact (mem_indexRange.mp this).1
  intro h
  refine List.Perm.eq_of_pairwise' ((pairwise_indexRange s start stop).imp le_of_lt)
    (pairwise_le_range' 1) ?_
  rw [perm_ext_iff_of_nodup ((pairwise_indexRange s start stop).imp ne_of_lt)
    (nodup_range' 1 one_pos)]
  intro i
  rw [mem_indexRange, mem_range'_1]
  refine ⟨fun hi => by omega, fun hi => ⟨h i hi.1 (by omega), by omega⟩⟩

/-- The start of the data set an index is in. -/
def dataSetStart (s : Finset ℕ) (index : ℕ) : ℕ := ((lastBelow s index).map (· + 1)).getD 0

lemma dataSetStart_spec (s : Finset ℕ) (index : ℕ) :
    (dataSetStart s index = 0 ∨ dataSetStart s index - 1 ∈ s) ∧ dataSetStart s index ≤ index ∧
      ∀ i, dataSetStart s index ≤ i → i < index → i ∉ s := by
  rw [dataSetStart, lastBelow]
  rcases h : (indexRange s 0 index).getLast? with _ | p
  · refine ⟨.inl rfl, zero_le _, fun i _ hlt hi => ?_⟩
    rw [getLast?_eq_none_iff] at h
    have hi' : i ∈ indexRange s 0 index := mem_indexRange.mpr ⟨hi, zero_le i, hlt⟩
    rw [h] at hi'
    cases hi'
  obtain ⟨l, hl⟩ := getLast?_eq_some_iff.mp h
  have hp : p ∈ indexRange s 0 index := hl ▸ mem_append_right _ (mem_singleton_self p)
  obtain ⟨hmem, -, hlt⟩ := mem_indexRange.mp hp
  refine ⟨.inr hmem, hlt, fun i hge hi hmem' => ?_⟩
  have hi' : i ∈ indexRange s 0 index := mem_indexRange.mpr ⟨hmem', zero_le i, hi⟩
  have hsorted := pairwise_indexRange s 0 index
  rw [hl] at hi' hsorted
  rcases mem_append.mp hi' with hi' | hi'
  · have := (pairwise_append.mp hsorted).2.2 i hi' p (mem_singleton_self p)
    change p + 1 ≤ i at hge
    omega
  · rw [mem_singleton.mp hi'] at hge
    change p + 1 ≤ p at hge
    omega

lemma mem_ite_insert {s : Finset ℕ} {x i : ℕ} {last : Bool} :
    i ∈ (if last then insert x s else s) ↔ last = true ∧ i = x ∨ i ∈ s := by
  cases last <;> simp

/-- The first bound of the windows. -/
theorem lastBelow_or_zero (s : Finset ℕ) (index : ℕ) :
    ((lastBelow s index).map (· + 1)).or (some 0) = some (dataSetStart s index) := by
  rw [dataSetStart]
  cases lastBelow s index <;> rfl

lemma firstAbove_eq_some {s : Finset ℕ} {index n : ℕ} :
    firstAbove s index = some n ↔ n ∈ s ∧ index < n ∧ ∀ i, index < i → i < n → i ∉ s := by
  have hmem (i : ℕ) : i ∈ (s.filter fun i => index + 1 ≤ i).sort (· ≤ ·) ↔ i ∈ s ∧ index < i := by
    rw [Finset.mem_sort, Finset.mem_filter, succ_le_iff]
  have hsorted := (Finset.sortedLT_sort (s.filter fun i => index + 1 ≤ i)).pairwise
  rw [firstAbove]
  rcases h : (s.filter fun i => index + 1 ≤ i).sort (· ≤ ·) with _ | ⟨m, rest⟩
  · rw [h] at hmem
    refine ⟨fun hn => absurd hn (by simp), fun ⟨hn, hlt, _⟩ => ?_⟩
    exact absurd ((hmem n).mpr ⟨hn, hlt⟩) not_mem_nil
  rw [h] at hmem hsorted
  rw [head?_cons, Option.some.injEq]
  have hm := (hmem m).mp (.head _)
  have hleast (i : ℕ) (hi : i ∈ s) (hlt : index < i) : m ≤ i := by
    rcases mem_cons.mp ((hmem i).mpr ⟨hi, hlt⟩) with rfl | hi
    · exact le_rfl
    · exact le_of_lt (rel_of_pairwise_cons hsorted hi)
  refine ⟨?_, fun ⟨hn, hlt, hnone⟩ => ?_⟩
  · rintro rfl
    exact ⟨hm.1, hm.2, fun i hlt hi his => absurd (hleast i his hlt) (by omega)⟩
  · rcases lt_or_ge m n with hmn | hmn
    · exact absurd hm.1 (hnone m hm.2 hmn)
    · exact le_antisymm (hleast n hn hlt) hmn

lemma firstMissing_spec (s : Finset ℕ) (index : ℕ) :
    index ≤ firstMissing s index ∧ firstMissing s index ∉ s ∧
      ∀ i, index ≤ i → i < firstMissing s index → i ∈ s := by
  fun_induction firstMissing s index with
  | case1 index hmem ih =>
    obtain ⟨hle, hnot, hall⟩ := ih
    refine ⟨by omega, hnot, fun i hge hlt => ?_⟩
    rcases eq_or_lt_of_le hge with rfl | hgt
    · exact hmem
    · exact hall i hgt hlt
  | case2 index hmem => exact ⟨le_rfl, hmem, fun i hge hlt => absurd hlt (by omega)⟩

/-! ## Complete ranges -/

/-- A range of received indices that starts at 0 or after the end of a data set, and goes to the
next end of one. -/
structure CompleteRange (received completed : Finset ℕ) (r : ℕ × ℕ) : Prop where
  lt : r.1 < r.2
  start : r.1 = 0 ∨ r.1 - 1 ∈ completed
  stop : r.2 - 1 ∈ completed
  inner : ∀ i, r.1 ≤ i → i < r.2 - 1 → i ∉ completed
  received : ∀ i, r.1 ≤ i → i < r.2 → i ∈ received

variable {received completed : Finset ℕ} {x : ℕ} {r : ℕ × ℕ}

section
variable (h : CompleteRange received completed r)
include h

/-- A range that ends at or after an index, and starts no later, starts where its data set does. -/
theorem CompleteRange.start_eq (hle : r.1 ≤ x)
    (hlt : x < r.2) : r.1 = dataSetStart completed x := by
  obtain ⟨hstart, hstartLe, hnone⟩ := dataSetStart_spec completed x
  rcases lt_trichotomy r.1 (dataSetStart completed x) with hcmp | hcmp | hcmp
  · rcases hstart with h0 | hmem
    · omega
    · exact absurd hmem (h.inner _ (by omega) (by omega))
  · exact hcmp
  · rcases h.start with h0 | hmem
    · omega
    · exact absurd hmem (hnone _ (by omega) (by omega))

/-- A range that goes on after an index, with no end of a data set in it before, ends with the next
one. -/
theorem CompleteRange.stop_eq (hle : r.1 ≤ x + 1)
    (hlt : x < r.2 - 1) : firstAbove completed x = some (r.2 - 1) :=
  firstAbove_eq_some.mpr ⟨h.stop, hlt, fun i hi hi' => h.inner i (by omega) hi'⟩

/-- What was complete stays so with one more shred. -/
theorem CompleteRange.insert (hx : x ∉ received) (last : Bool) :
    CompleteRange (insert x received) (if last then insert x completed else completed) r := by
  refine ⟨h.lt, h.start.imp_right fun hs => mem_ite_insert.mpr (.inr hs),
    mem_ite_insert.mpr (.inr h.stop), fun i hle hlt hi => ?_, fun i hle hlt =>
    Finset.mem_insert_of_mem (h.received i hle hlt)⟩
  rcases mem_ite_insert.mp hi with ⟨-, rfl⟩ | hi
  · exact hx (h.received i hle (by omega))
  · exact h.inner i hle hlt hi

end

/-- A range without the new shred that does not start after it was complete before. -/
theorem CompleteRange.of_insert (last : Bool)
    (h : CompleteRange (Insert.insert x received)
      (if last then Insert.insert x completed else completed) r)
    (hout : x < r.1 ∨ r.2 ≤ x) (hstart : last = true → r.1 ≠ x + 1) :
    CompleteRange received completed r := by
  have hlt := h.lt
  refine ⟨h.lt, ?_, (mem_ite_insert.mp h.stop).resolve_left (by omega),
    fun i hle hi hc => h.inner i hle hi (mem_ite_insert.mpr (.inr hc)), fun i hle hi => ?_⟩
  · by_cases h0 : r.1 = 0
    · exact .inl h0
    · refine .inr ((mem_ite_insert.mp (h.start.resolve_left h0)).resolve_left fun ⟨hl, heq⟩ => ?_)
      exact hstart hl (by omega)
  · exact Finset.mem_of_mem_insert_of_ne (h.received i hle hi) (by omega)

/-! ## The ranges completed by one shred -/

/-- The ranges reported with the last shred of a data set. -/
theorem mem_newlyCompletedRanges_last :
    r ∈ newlyCompletedRanges true x received completed ↔
      (r = (dataSetStart completed x, x + 1) ∨
        ∃ n, firstAbove completed x = some n ∧ r = (x + 1, n + 1)) ∧
      ∀ i, r.1 ≤ i → i < r.2 → i ∈ received := by
  rw [newlyCompletedRanges, mem_filter, decide_eq_true_eq, indexRange_eq_range', lastBelow_or_zero]
  cases firstAbove completed x <;> simp [tupleWindows]

/-- The range reported with another shred. -/
theorem mem_newlyCompletedRanges_inner :
    r ∈ newlyCompletedRanges false x received completed ↔
      (∃ n, firstAbove completed x = some n ∧ r = (dataSetStart completed x, n + 1)) ∧
      ∀ i, r.1 ≤ i → i < r.2 → i ∈ received := by
  rw [newlyCompletedRanges, mem_filter, decide_eq_true_eq, indexRange_eq_range', lastBelow_or_zero]
  cases firstAbove completed x <;> simp [tupleWindows]

/-- No range is reported twice with one shred. -/
theorem nodup_newlyCompletedRanges (last : Bool) :
    (newlyCompletedRanges last x received completed).Nodup := by
  have hle := (dataSetStart_spec completed x).2.1
  rw [newlyCompletedRanges, lastBelow_or_zero]
  refine List.Nodup.filter _ ?_
  cases last <;> cases firstAbove completed x <;> simp [tupleWindows]
  omega

/-- The ranges reported with a new shred are those that are complete with it and were not before. -/
theorem mem_newlyCompletedRanges {last : Bool} (hx : x ∉ received) (hsub : completed ⊆ received) :
    r ∈ newlyCompletedRanges last x (insert x received)
        (if last then insert x completed else completed) ↔
      CompleteRange (insert x received) (if last then insert x completed else completed) r ∧
        ¬CompleteRange received completed r := by
  have hxc : x ∉ completed := fun h => hx (hsub h)
  cases last with
  | true =>
    simp only [if_true]
    obtain ⟨hstart, hle, hnone⟩ := dataSetStart_spec (insert x completed) x
    rw [mem_newlyCompletedRanges_last]
    constructor
    · rintro ⟨rfl | ⟨n, hn, rfl⟩, hall⟩
      · -- the data set that the new shred ends
        exact ⟨⟨by dsimp only; omega, hstart, Finset.mem_insert_self x completed, hnone, hall⟩,
          fun hold => hxc hold.stop⟩
      -- the data set after it
      obtain ⟨hmem, hlt, hbetween⟩ := firstAbove_eq_some.mp hn
      refine ⟨⟨by dsimp only; omega, .inr (Finset.mem_insert_self x completed), hmem,
        fun i hi hi' => hbetween i hi hi', hall⟩, fun hold => ?_⟩
      rcases hold.start with h0 | hc
      · exact absurd h0 (succ_ne_zero x)
      · exact hxc hc
    rintro ⟨hnew, hold⟩
    refine ⟨?_, hnew.received⟩
    by_cases hafter : r.1 = x + 1
    · have hlt := hnew.lt
      refine .inr ⟨r.2 - 1, hnew.stop_eq (by omega) (by omega), ?_⟩
      ext
      · exact hafter
      · dsimp only
        omega
    by_cases hin : r.1 ≤ x ∧ x < r.2
    · -- the new shred is an end, so that it is the last of the range
      have hlast : r.2 = x + 1 := by
        by_contra hne
        exact hnew.inner x hin.1 (by omega) (Finset.mem_insert_self x completed)
      exact .inl (Prod.ext (hnew.start_eq hin.1 hin.2) hlast)
    · exact absurd (CompleteRange.of_insert true hnew (by omega) fun _ => hafter) hold
  | false =>
    simp only [Bool.false_eq_true, if_false]
    obtain ⟨hstart, hle, hnone⟩ := dataSetStart_spec completed x
    rw [mem_newlyCompletedRanges_inner]
    constructor
    · rintro ⟨⟨n, hn, rfl⟩, hall⟩
      obtain ⟨hmem, hlt, hbetween⟩ := firstAbove_eq_some.mp hn
      refine ⟨⟨by dsimp only; omega, hstart, hmem, fun i hi hi' hc => ?_, hall⟩,
        fun hold => hx (hold.received x hle (by dsimp only; omega))⟩
      rcases lt_trichotomy i x with hix | rfl | hix
      · exact hnone i hi hix hc
      · exact hxc hc
      · exact hbetween i hix hi' hc
    rintro ⟨hnew, hold⟩
    refine ⟨?_, hnew.received⟩
    by_cases hin : r.1 ≤ x ∧ x < r.2
    · have hne : r.2 - 1 ≠ x := fun h => hxc (h ▸ hnew.stop)
      refine ⟨r.2 - 1, hnew.stop_eq (by omega) (by omega), Prod.ext (hnew.start_eq hin.1 hin.2) ?_⟩
      omega
    · exact absurd (CompleteRange.of_insert false hnew (by omega)
        fun h => absurd h (by decide)) hold

/-! ## The completed ranges before the first missing shred -/

/-- The scan from the start of a data set over the ends of data sets after it, none of which is
missing, gives the ranges between them, in order. -/
theorem scanRanges_spec {start : ℕ} {ends : List ℕ} (hsorted : ends.Pairwise (· < ·))
    (hge : ∀ e ∈ ends, start ≤ e) :
    (scanRanges start ends).Pairwise (fun a b => a.2 ≤ b.1) ∧
      (∀ r ∈ scanRanges start ends, start ≤ r.1) ∧
      ∀ r, r ∈ scanRanges start ends ↔ r.1 < r.2 ∧ (r.1 = start ∨ start < r.1 ∧ r.1 - 1 ∈ ends) ∧
        r.2 - 1 ∈ ends ∧ ∀ i, r.1 ≤ i → i < r.2 - 1 → i ∉ ends := by
  induction ends generalizing start with
  | nil => simp [scanRanges]
  | cons e rest ih =>
    obtain ⟨hlt, hsorted⟩ := pairwise_cons.mp hsorted
    obtain ⟨hord, hlow, hmem⟩ := ih hsorted fun a ha => succ_le_of_lt (hlt a ha)
    have hse := hge e (.head _)
    refine ⟨pairwise_cons.mpr ⟨fun r hr => hlow r hr, hord⟩, ?_, fun r => ?_⟩
    · intro r hr
      rcases mem_cons.mp hr with rfl | hr
      · exact le_rfl
      · exact (hse.trans (le_succ e)).trans (hlow r hr)
    rw [scanRanges, mem_cons, hmem]
    constructor
    · rintro (rfl | ⟨hr, hstart, hstop, hinner⟩)
      · refine ⟨by dsimp only; omega, .inl rfl, .head _, fun i _ hi hmem => ?_⟩
        rcases mem_cons.mp hmem with rfl | hmem
        · omega
        · have := hlt i hmem
          omega
      have hgt : e + 1 ≤ r.1 := hstart.elim (fun h => h.ge) fun h => h.1.le
      refine ⟨hr, .inr ⟨by omega, ?_⟩, .tail _ hstop, fun i hi hi' hmem => ?_⟩
      · rcases hstart with h | h
        · rw [h]
          exact .head _
        · exact .tail _ h.2
      · rcases mem_cons.mp hmem with rfl | hmem
        · omega
        · exact hinner i hi hi' hmem
    rintro ⟨hr, hstart, hstop, hinner⟩
    rcases mem_cons.mp hstop with hstop | hstop
    · -- the range ends with the first end: it starts at the start
      left
      rcases hstart with h | ⟨hgt, h⟩
      · exact Prod.ext h (by dsimp only; omega)
      rcases mem_cons.mp h with h | h
      · omega
      · have := hlt _ h
        omega
    right
    have hgt := hlt _ hstop
    refine ⟨hr, ?_, hstop, fun i hi hi' hmem => hinner i hi hi' (.tail _ hmem)⟩
    rcases hstart with h | ⟨hs, h⟩
    · exact absurd (.head _) (hinner e (by omega) hgt)
    rcases mem_cons.mp h with h | h
    · exact .inl (by omega)
    · have := hlt _ h
      exact .inr ⟨by omega, h⟩

/-! ## Arrivals -/

/-- A slot with the shreds that were inserted and the ranges that were reported, in order. -/
structure Arrived where
  state : SlotShreds
  inserted : List DataShred
  reported : List (ℕ × ℕ)

namespace Arrived

/-- The indices of the shreds inserted. -/
def insertedIndexes (a : Arrived) : Finset ℕ := (a.inserted.map index).toFinset

/-- The indices of the shreds inserted that end a data set. -/
def completeIndexes (a : Arrived) : Finset ℕ :=
  ((a.inserted.filter dataComplete).map index).toFinset

/-- An arrival with its result. -/
def record (a : Arrived) (shred : DataShred) :
    Except InsertDataShredError (List (ℕ × ℕ)) × SlotShreds → Arrived
  | (.ok ranges, state) => ⟨state, a.inserted ++ [shred], a.reported ++ ranges⟩
  | (.error _, state) => { a with state := state }

end Arrived

open Arrived

/-- A data shred arrives, at some highest root. -/
def arrive (a : Arrived) (arrival : ℕ × DataShred) : Except Panic Arrived :=
  (checkInsertDataShred arrival.1 a.state arrival.2).map (a.record arrival.2)

/-- A slot whose parent is known and that has no shred. -/
def emptySlot (slot parentSlot : ℕ) : Arrived := ⟨⟨SlotMeta.new slot (some parentSlot), ∅⟩, [], []⟩

/-- What the metadata of a slot and the reports say of the shreds inserted. -/
structure Invariant (slot parentSlot : ℕ) (a : Arrived) : Prop where
  slot : a.state.slotMeta.slot = slot
  parent : a.state.slotMeta.parentSlot = some parentSlot
  dataIndex : a.state.dataIndex = a.insertedIndexes
  consumed_notMem : a.state.slotMeta.consumed ∉ a.insertedIndexes
  mem_of_lt_consumed : ∀ i < a.state.slotMeta.consumed, i ∈ a.insertedIndexes
  received : a.state.slotMeta.received = a.insertedIndexes.sup succ
  lastIndex : ∀ ix, a.state.slotMeta.lastIndex = some ix ↔
    ∃ shred ∈ a.inserted, shred.lastInSlot = true ∧ shred.index = ix
  le_lastIndex : ∀ ix, a.state.slotMeta.lastIndex = some ix → ∀ i ∈ a.insertedIndexes, i ≤ ix
  completed : a.state.slotMeta.completedDataIndexes = a.completeIndexes
  reported_nodup : a.reported.Nodup
  reported : ∀ r, r ∈ a.reported ↔ CompleteRange a.insertedIndexes a.completeIndexes r

/-- Also whether the slot is full, and the ranges read back. -/
structure Exact (slot parentSlot : ℕ) (a : Arrived) : Prop extends Invariant slot parentSlot a where
  full : a.state.slotMeta.isFull = true ↔
    ∃ ix, a.state.slotMeta.lastIndex = some ix ∧ ∀ i ≤ ix, i ∈ a.insertedIndexes
  ranges : ∃ ranges, getCompletedDataRanges 0 a.state.slotMeta.completedDataIndexes
      a.state.slotMeta.consumed = .ok ranges ∧
    ranges.Pairwise (fun r r' => r.2 ≤ r'.1) ∧
    ∀ r, r ∈ ranges ↔ CompleteRange a.insertedIndexes a.completeIndexes r ∧
      r.2 ≤ a.state.slotMeta.consumed

/-- What is asked of a shred that arrives at some highest root, in terms of the shreds inserted
before it. -/
structure Insertable (slot parentSlot : ℕ) (inserted : List DataShred) (arrival : ℕ × DataShred) :
    Prop where
  new : ∀ shred ∈ inserted, shred.index ≠ arrival.2.index
  lt_last : ∀ last ∈ inserted, last.lastInSlot = true → arrival.2.index < last.index
  last : arrival.2.lastInSlot = true → ∀ shred ∈ inserted, shred.index < arrival.2.index
  slots : verifyShredSlots slot parentSlot arrival.1 = true
  merkleRoot : arrival.2.merkleRootConsistent = true

instance (slot parentSlot : ℕ) (inserted : List DataShred) (arrival : ℕ × DataShred) :
    Decidable (Insertable slot parentSlot inserted arrival) :=
  decidable_of_iff (_ ∧ _ ∧ _ ∧ _ ∧ _)
    ⟨fun ⟨h₁, h₂, h₃, h₄, h₅⟩ => ⟨h₁, h₂, h₃, h₄, h₅⟩, fun ⟨h₁, h₂, h₃, h₄, h₅⟩ =>
      ⟨h₁, h₂, h₃, h₄, h₅⟩⟩

/-- The shreds inserted with one more arrival. -/
def insertShred (slot parentSlot : ℕ) (inserted : List DataShred) (arrival : ℕ × DataShred) :
    List DataShred :=
  if Insertable slot parentSlot inserted arrival then inserted ++ [arrival.2] else inserted

/-- The shreds that are inserted of some arrivals. -/
def insertedShreds (slot parentSlot : ℕ) (arrivals : List (ℕ × DataShred)) : List DataShred :=
  arrivals.foldl (insertShred slot parentSlot) []

lemma mem_insertedIndexes {a : Arrived} {i : ℕ} :
    i ∈ a.insertedIndexes ↔ ∃ shred ∈ a.inserted, shred.index = i := by
  rw [insertedIndexes, mem_toFinset, mem_map]

lemma completeIndexes_subset (a : Arrived) : a.completeIndexes ⊆ a.insertedIndexes := by
  intro i hi
  rw [completeIndexes, mem_toFinset, mem_map] at hi
  obtain ⟨shred, hmem, rfl⟩ := hi
  exact mem_insertedIndexes.mpr ⟨shred, mem_of_mem_filter hmem, rfl⟩

lemma insertedIndexes_append {s : SlotShreds} {inserted : List DataShred} {shred : DataShred}
    {reported : List (ℕ × ℕ)} :
    (⟨s, inserted ++ [shred], reported⟩ : Arrived).insertedIndexes =
      insert shred.index (inserted.map index).toFinset := by
  ext i
  simp [insertedIndexes]

lemma completeIndexes_append {s : SlotShreds} {inserted : List DataShred} {shred : DataShred}
    {reported : List (ℕ × ℕ)} :
    (⟨s, inserted ++ [shred], reported⟩ : Arrived).completeIndexes =
      if shred.dataComplete then
        insert shred.index ((inserted.filter dataComplete).map index).toFinset
      else ((inserted.filter dataComplete).map index).toFinset := by
  ext i
  rw [completeIndexes, filter_append, map_append]
  cases h : shred.dataComplete <;> simp [h]

/-- The first missing index with one more shred. -/
theorem newConsumed_spec {slotMeta : SlotMeta} {s : Finset ℕ} {index : ℕ}
    (hnot : slotMeta.consumed ∉ s) (hbelow : ∀ i < slotMeta.consumed, i ∈ s) :
    newConsumed slotMeta s index ∉ insert index s ∧
      ∀ i < newConsumed slotMeta s index, i ∈ insert index s := by
  rw [newConsumed]
  split
  · next heq =>
    obtain ⟨hle, hmissing, hall⟩ := firstMissing_spec s (index + 1)
    refine ⟨?_, fun i hi => ?_⟩
    · rw [Finset.mem_insert]
      rintro (h | h)
      · omega
      · exact hmissing h
    · rcases lt_trichotomy i index with h | rfl | h
      · exact Finset.mem_insert_of_mem (hbelow i (heq ▸ h))
      · exact Finset.mem_insert_self i s
      · exact Finset.mem_insert_of_mem (hall i h hi)
  next hne =>
  refine ⟨?_, fun i hi => Finset.mem_insert_of_mem (hbelow i hi)⟩
  rw [Finset.mem_insert]
  rintro (h | h)
  · exact hne h
  · exact hnot h

/-- The checks in terms of the metadata. -/
theorem shouldInsertDataShred_iff {shred : DataShred} {slotMeta : SlotMeta} {maxRoot parentSlot : ℕ}
    (hparent : slotMeta.parentSlot = some parentSlot) :
    shouldInsertDataShred shred slotMeta maxRoot = true ↔
      (∀ ix, slotMeta.lastIndex = some ix → shred.index < ix) ∧
      (shred.lastInSlot = true → slotMeta.received ≤ shred.index) ∧
      verifyShredSlots slotMeta.slot parentSlot maxRoot = true := by
  rw [shouldInsertDataShred, hparent]
  rcases slotMeta.lastIndex with _ | ix <;> simp <;> grind

/-- What inserting a new shred does. -/
theorem insertDataShred_eq {s : SlotShreds} {shred : DataShred}
    (hparent : s.slotMeta.isOrphan = false) :
    let received := insert shred.index s.dataIndex
    let completed := if shred.dataComplete then insert shred.index s.slotMeta.completedDataIndexes
      else s.slotMeta.completedDataIndexes
    insertDataShred s shred =
      .ok (newlyCompletedRanges shred.dataComplete shred.index received completed,
        ⟨{ s.slotMeta with
            received := max (shred.index + 1) s.slotMeta.received
            consumed := newConsumed s.slotMeta s.dataIndex shred.index
            lastIndex := if shred.lastInSlot && s.slotMeta.lastIndex.isNone then some shred.index
              else s.slotMeta.lastIndex
            completedDataIndexes := completed }, received⟩) := by
  intro received completed
  have hlast : (shred.lastInSlot || shred.dataComplete) = shred.dataComplete := by
    cases h : shred.lastInSlot with
    | true => rw [shred.dataComplete_of_last h, Bool.or_true]
    | false => rw [Bool.false_or]
  have hcompleted : updateCompletedDataIndexes shred.dataComplete shred.index received
      s.slotMeta.completedDataIndexes =
        .ok (newlyCompletedRanges shred.dataComplete shred.index received completed,
        completed) := by
    rw [updateCompletedDataIndexes, completedInsert, if_pos shred.index_lt]
    simp only [completed]
    cases shred.dataComplete <;> rfl
  rw [insertDataShred, if_neg (by rw [hparent]; decide), shredIndexInsert, if_pos shred.index_lt]
  simp only [updateSlotMeta]
  rw [hlast, hcompleted]
  rfl

/-- The empty slot. -/
theorem invariant_emptySlot (slot parentSlot : ℕ) :
    Invariant slot parentSlot (emptySlot slot parentSlot) where
  slot := rfl
  parent := rfl
  dataIndex := rfl
  consumed_notMem := Finset.notMem_empty 0
  mem_of_lt_consumed i hi := absurd hi (not_lt_zero i)
  received := rfl
  lastIndex ix := ⟨fun h => absurd h (by simp [emptySlot, SlotMeta.new]), fun ⟨_, h, _⟩ =>
    absurd h not_mem_nil⟩
  le_lastIndex ix _ i hi := absurd hi (Finset.notMem_empty i)
  completed := rfl
  reported_nodup := nodup_nil
  reported r := ⟨fun h => absurd h not_mem_nil, fun h => absurd h.stop (Finset.notMem_empty _)⟩

section
variable {slot parentSlot : ℕ} {a : Arrived} (h : Invariant slot parentSlot a)
include h

/-- The checks in terms of the shreds inserted. -/
lemma Invariant.insertable_iff {shred : DataShred} {maxRoot : ℕ} :
    Insertable slot parentSlot a.inserted (maxRoot, shred) ↔
      isDataShredPresent shred a.state.slotMeta a.state.dataIndex = false ∧
      shouldInsertDataShred shred a.state.slotMeta maxRoot = true ∧
      shred.merkleRootConsistent = true := by
  have hpresent : isDataShredPresent shred a.state.slotMeta a.state.dataIndex = false ↔
      ∀ s ∈ a.inserted, s.index ≠ shred.index := by
    rw [isDataShredPresent, h.dataIndex, decide_eq_false_iff_not,
      or_iff_right_of_imp (h.mem_of_lt_consumed _), mem_insertedIndexes]
    simp
  have hreceived : a.state.slotMeta.received ≤ shred.index ↔
      ∀ s ∈ a.inserted, s.index < shred.index := by
    simp [h.received, mem_insertedIndexes]
  rw [hpresent, shouldInsertDataShred_iff h.parent, hreceived, h.slot]
  simp only [h.lastIndex]
  constructor
  · intro ⟨hnew, hlt, hlast, hslots, hroot⟩
    exact ⟨hnew, ⟨fun ix ⟨last, hmem, hl, heq⟩ => heq ▸ hlt last hmem hl, hlast, hslots⟩, hroot⟩
  · intro ⟨hnew, ⟨hlt, hlast, hslots⟩, hroot⟩
    exact ⟨hnew, fun last hmem hl => hlt _ ⟨last, hmem, hl, rfl⟩, hlast, hslots, hroot⟩

/-- A shred that is not there and passes the checks is inserted. -/
theorem Invariant.insert {shred : DataShred} {maxRoot : ℕ}
    (hnew : shred.index ∉ a.insertedIndexes)
    (hshould : shouldInsertDataShred shred a.state.slotMeta maxRoot = true) :
    ∃ result, insertDataShred a.state shred = .ok result ∧
      Invariant slot parentSlot (a.record shred (.ok result.1, result.2)) := by
  obtain ⟨hbefore, hlast, -⟩ := (shouldInsertDataShred_iff h.parent).mp hshould
  obtain ⟨hnot, hbelow⟩ := @newConsumed_spec a.state.slotMeta a.insertedIndexes shred.index
    h.consumed_notMem h.mem_of_lt_consumed
  have hle (i : ℕ) (hi : i ∈ a.insertedIndexes) : i + 1 ≤ a.state.slotMeta.received :=
    h.received ▸ Finset.le_sup (f := succ) hi
  -- a last shred is accepted only while there is none
  have hnone (hl : shred.lastInSlot = true) : a.state.slotMeta.lastIndex = none := by
    rcases hix : a.state.slotMeta.lastIndex with _ | ix
    · rfl
    obtain ⟨last, hmem, -, rfl⟩ := (h.lastIndex ix).mp hix
    have hrec := hle last.index (mem_insertedIndexes.mpr ⟨last, hmem, rfl⟩)
    have := hbefore last.index hix
    have := hlast hl
    omega
  have hlastIndex : (if shred.lastInSlot && a.state.slotMeta.lastIndex.isNone then some shred.index
      else a.state.slotMeta.lastIndex) =
        if shred.lastInSlot then some shred.index else a.state.slotMeta.lastIndex := by
    cases hl : shred.lastInSlot with
    | true => rw [hnone hl]; rfl
    | false => rfl
  have hinsert := @insertDataShred_eq a.state shred (by rw [SlotMeta.isOrphan, h.parent]; rfl)
  rw [h.dataIndex, h.completed, hlastIndex] at hinsert
  refine ⟨_, hinsert, ?_⟩
  refine ⟨h.slot, h.parent, insertedIndexes_append.symm, ?_, ?_, ?_, fun ix => ?_, fun ix hix => ?_,
    completeIndexes_append.symm, ?_, fun r => ?_⟩
  · rw [record, insertedIndexes_append]
    exact hnot
  · rw [record, insertedIndexes_append]
    exact hbelow
  · rw [record, insertedIndexes_append, Finset.sup_insert]
    exact congrArg (max (shred.index + 1)) h.received
  · change (if shred.lastInSlot then some shred.index else _) = some ix ↔
      ∃ x ∈ a.inserted ++ [shred], _
    simp only [mem_append, mem_singleton]
    cases hl : shred.lastInSlot with
    | true =>
      have hno (x : DataShred) (hx : x ∈ a.inserted) : x.lastInSlot ≠ true := fun hxl => by
        have := (h.lastIndex x.index).mpr ⟨x, hx, hxl, rfl⟩
        rw [hnone hl] at this
        exact absurd this (by simp)
      rw [if_pos rfl, Option.some.injEq]
      constructor
      · rintro rfl
        exact ⟨shred, .inr rfl, hl, rfl⟩
      · rintro ⟨x, hx | rfl, hxl, rfl⟩
        · exact absurd hxl (hno x hx)
        · rfl
    | false =>
      rw [if_neg (by decide), h.lastIndex]
      constructor
      · rintro ⟨x, hx, hxl⟩
        exact ⟨x, .inl hx, hxl⟩
      · rintro ⟨x, hx | rfl, hxl⟩
        · exact ⟨x, hx, hxl⟩
        · exact absurd (hl.symm.trans hxl.1) (by decide)
  · rw [record, insertedIndexes_append]
    change (if shred.lastInSlot then some shred.index else _) = some ix at hix
    intro i hi
    split at hix
    · next hl =>
      cases hix
      rcases Finset.mem_insert.mp hi with rfl | hi
      · exact le_rfl
      · have := hle i hi
        have := hlast hl
        omega
    · rcases Finset.mem_insert.mp hi with rfl | hi
      · exact (hbefore ix hix).le
      · exact h.le_lastIndex ix hix i hi
  · refine nodup_append'.mpr ⟨h.reported_nodup, nodup_newlyCompletedRanges _, ?_⟩
    intro r hr hr'
    exact ((mem_newlyCompletedRanges hnew (completeIndexes_subset a)).mp hr').2
      ((h.reported r).mp hr)
  rw [record, insertedIndexes_append, completeIndexes_append]
  change r ∈ a.reported ++ _ ↔ CompleteRange (Insert.insert shred.index a.insertedIndexes)
    (if shred.dataComplete then Insert.insert shred.index a.completeIndexes
      else a.completeIndexes) r
  rw [mem_append, mem_newlyCompletedRanges hnew (completeIndexes_subset a), h.reported]
  constructor
  · rintro (hr | hr)
    · exact hr.insert hnew shred.dataComplete
    · exact hr.1
  · intro hr
    by_cases hold : CompleteRange a.insertedIndexes a.completeIndexes r
    · exact .inl hold
    · exact .inr ⟨hr, hold⟩

/-- One arrival keeps the invariant, and inserts the shred if it fits. -/
theorem Invariant.arrive (arrival : ℕ × DataShred) :
    ∃ a', arrive a arrival = .ok a' ∧ Invariant slot parentSlot a' ∧
      a'.inserted = insertShred slot parentSlot a.inserted arrival := by
  obtain ⟨maxRoot, shred⟩ := arrival
  rw [Ledger.arrive, checkInsertDataShred, insertShred]
  by_cases hinsertable : Insertable slot parentSlot a.inserted (maxRoot, shred)
  · obtain ⟨hpresent, hshould, hroot⟩ := h.insertable_iff.mp hinsertable
    have hnew : shred.index ∉ a.insertedIndexes := fun hmem =>
      have ⟨s, hs, heq⟩ := mem_insertedIndexes.mp hmem
      hinsertable.new s hs heq
    obtain ⟨result, hresult, hinv⟩ := h.insert hnew hshould
    refine ⟨_, ?_, hinv, (if_pos hinsertable).symm⟩
    simp [hpresent, hshould, hroot, hresult, Except.map]
  · refine ⟨a, ?_, h, (if_neg hinsertable).symm⟩
    rw [h.insertable_iff] at hinsertable
    split_ifs with hpresent hshould hroot
    · rfl
    · rfl
    · rfl
    · simp_all

/-- The invariant gives the rest. -/
theorem Invariant.exact : Exact slot parentSlot a where
  toInvariant := h
  full := by
    rw [SlotMeta.isFull, decide_eq_true_eq]
    rcases hix : a.state.slotMeta.lastIndex with _ | ix
    · simp
    obtain ⟨last, hmem, -, rfl⟩ := (h.lastIndex ix).mp hix
    simp only [Option.map_some, Option.some.injEq, exists_eq_left']
    constructor
    · intro heq i hi
      exact h.mem_of_lt_consumed i (by omega)
    intro hall
    have hgt : last.index < a.state.slotMeta.consumed := by
      by_contra hge
      exact h.consumed_notMem (hall _ (by omega))
    have hle := h.le_lastIndex _ hix
    by_contra hne
    have := hle (last.index + 1) (h.mem_of_lt_consumed _ (by omega))
    omega
  ranges := by
    have hsub := completeIndexes_subset a
    have hnot : a.state.slotMeta.consumed ∉ a.completeIndexes := fun hc =>
      h.consumed_notMem (hsub hc)
    rw [h.completed, getCompletedDataRanges, if_neg hnot]
    obtain ⟨hord, -, hmem⟩ := @scanRanges_spec 0 _
      (pairwise_indexRange a.completeIndexes 0 a.state.slotMeta.consumed) fun e _ => zero_le e
    refine ⟨_, rfl, hord, fun r => ?_⟩
    rw [hmem]
    simp only [mem_indexRange]
    constructor
    · rintro ⟨hlt, hstart, hstop, hinner⟩
      refine ⟨⟨hlt, hstart.imp_right fun hs => hs.2.1, hstop.1, fun i hi hi' hc => ?_,
        fun i hi hi' =>
        h.mem_of_lt_consumed i (by omega)⟩, by omega⟩
      exact hinner i hi hi' ⟨hc, zero_le i, by omega⟩
    rintro ⟨hr, hle⟩
    have hlt := hr.lt
    refine ⟨hr.lt, ?_, ⟨hr.stop, zero_le _, by omega⟩, fun i hi hi' hc => hr.inner i hi hi' hc.1⟩
    by_cases h0 : r.1 = 0
    · exact .inl h0
    · exact .inr ⟨by omega, hr.start.resolve_left h0, zero_le _, by omega⟩

end

/-- Some arrivals. -/
theorem Invariant.arrivals {slot parentSlot : ℕ} {a : Arrived} (h : Invariant slot parentSlot a)
    (arrivals : List (ℕ × DataShred)) :
    ∃ a', arrivals.foldlM Ledger.arrive a = .ok a' ∧ Invariant slot parentSlot a' ∧
      a'.inserted = arrivals.foldl (insertShred slot parentSlot) a.inserted := by
  induction arrivals generalizing a with
  | nil => exact ⟨a, rfl, h, rfl⟩
  | cons arrival arrivals ih =>
    obtain ⟨next, harrive, hinv, hinserted⟩ := h.arrive arrival
    obtain ⟨a', hrun, hinv', hinserted'⟩ := ih hinv
    refine ⟨a', foldlM_cons_eq_ok.mpr ⟨next, harrive, hrun⟩, hinv', ?_⟩
    rw [hinserted', hinserted, foldl_cons]

/-- Whatever untrusted data shreds of an empty slot arrive, and whatever the highest root is then,
the code does not panic, inserts those that fit the ones inserted before them, and the metadata and
the reports say exactly what was inserted. -/
theorem arrivals_exact (slot parentSlot : ℕ) (arrivals : List (ℕ × DataShred)) :
    ∃ a, arrivals.foldlM arrive (emptySlot slot parentSlot) = .ok a ∧
      a.inserted = insertedShreds slot parentSlot arrivals ∧ Exact slot parentSlot a := by
  obtain ⟨a, hrun, hinv, hinserted⟩ := (invariant_emptySlot slot parentSlot).arrivals arrivals
  exact ⟨a, hrun, hinserted, hinv.exact⟩

/-- The last shred arrives first, then one after it and one twice, which are turned away. -/
def someArrivals : List (ℕ × DataShred) :=
  [(0, ⟨2, true, true, true, by decide, by decide⟩),
    (0, ⟨0, false, true, true, by decide, by decide⟩),
    (0, ⟨3, false, false, true, by decide, by decide⟩),
    (0, ⟨0, false, false, true, by decide, by decide⟩),
    (0, ⟨1, false, false, true, by decide, by decide⟩)]

theorem arrivals_exact_someArrivals :
    ∃ a, someArrivals.foldlM arrive (emptySlot 5 4) = .ok a ∧ a.insertedIndexes = {0, 1, 2} ∧
      a.state.slotMeta.isFull = true ∧ (0, 1) ∈ a.reported ∧ (1, 3) ∈ a.reported := by
  obtain ⟨a, hrun, hinserted, hexact⟩ := arrivals_exact 5 4 someArrivals
  have hindexes : a.insertedIndexes = {0, 1, 2} := by
    rw [insertedIndexes, hinserted]
    decide +kernel
  have hcomplete : a.completeIndexes = {0, 2} := by
    rw [completeIndexes, hinserted]
    decide +kernel
  refine ⟨a, hrun, hindexes, hexact.full.mpr ⟨2, (hexact.lastIndex 2).mpr ?_, ?_⟩, ?_, ?_⟩
  · rw [hinserted]
    decide +kernel
  · rw [hindexes]
    decide
  · rw [hexact.reported, hindexes, hcomplete]
    exact ⟨by decide, by decide, by decide, by grind, by grind⟩
  · rw [hexact.reported, hindexes, hcomplete]
    exact ⟨by decide, by decide, by decide, by grind, by grind⟩

end Trezoa.Ledger
