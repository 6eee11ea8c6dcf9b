import Trezoa.Ledger.ShredBatches

/-!
# Shreds and back

What is read from the payloads of the shreds of some data, as long as the indices fit in 32 bits.
Each result says that shredding succeeds.
-/

namespace Trezoa.Ledger

open Lib List ShredType Parts ShredParams

variable {hashv : List (List UInt8) → Hash} {rs : ReedSolomon} {signMessage : Hash → Signature}
  {chained root : Hash}

/-! ## Reading a shred -/

namespace Final

variable {resigned : Bool} {i : ℕ} {q p : Parts}
  (h : Final hashv signMessage resigned chained root i q p)
include h

lemma shredType_eq : p.shredType = q.shredType := congrArg ShredHeader.shredType h.header

lemma fits : p.blocks.Fits q.header.shredType proofEntriesFor3232Batch.toNat resigned :=
  h.header ▸ h.ok.fits

variable (hvariant : q.common.shredVariant =
  q.header.shredType.variant proofEntriesFor3232Batch resigned)
include hvariant

lemma ofByte_variant : ShredVariant.ofByte q.common.shredVariant.toByte =
    .ok (q.header.shredType.variant proofEntriesFor3232Batch resigned) := by
  rw [hvariant]
  cases q.header.shredType <;> cases resigned <;> rfl

lemma getShredType : layout.getShredType p.shred.payload = .ok q.header.shredType := by
  rw [layout.getShredType, shred,
    getShredVariant_bytes h.ok.fits.signature h.headers (h.ofByte_variant hvariant)]
  cases q.header.shredType <;> rfl

/-- The root is computed from the payload alone if the position is read from it. -/
theorem authentic (hposition : (match q.header.shredType with
      | .data => layout.dataPosition p.blocks.bytes
      | .code => layout.codePosition p.blocks.bytes) = some i) :
    layout.getMerkleRoot hashv p.shred.payload = some root ∧
      layout.getSignature p.shred.payload = some (signMessage root).bytes ∧
      layout.getChainedMerkleRoot p.shred.payload = some chained.bytes := by
  obtain ⟨entries, hproof, hroot⟩ := h.proof
  have hbyte := h.ofByte_variant hvariant
  refine ⟨getMerkleRoot_bytes h.headers hbyte h.fits hashv hproof hposition hroot, ?_, ?_⟩
  · exact h.signature ▸ getSignature_bytes h.ok.fits.signature
  · exact h.chained ▸ getChainedMerkleRoot_bytes h.headers hbyte h.fits

end Final

/-- The index, the data and the flags of a payload. -/
structure Carries (payload : List UInt8) (index : ℕ) (chunk : List UInt8) (flags : UInt8) :
    Prop where
  index : layout.getIndex payload = some index
  data : layout.getData payload = .ok chunk
  flags : layout.getFlags payload = .ok flags

namespace ShredParams

variable {P : ShredParams} {k : ℕ} {plan : BatchPlan} {batch : List Shred}

variable (P) in
/-- The flags of the data shred at a position of a batch. -/
def flagsAt (plan : BatchPlan) (i : ℕ) : UInt8 :=
  if i + 1 = dataShredsPerFecBlock then P.dataHeader.flags ||| plan.extra else P.dataHeader.flags

lemma carries_of_final {i : ℕ} {chunk : List UInt8} {p : Parts}
    (h : Final hashv signMessage plan.resigned chained root i (P.blankData k plan (chunk, i)) p)
    (hindex : P.fecSetIndex k + i < 2 ^ 32) (hchunk : chunk.length ≤ dataCapacity plan.resigned) :
    Carries p.shred.payload (P.fecSetIndex k + i) chunk (P.flagsAt plan i) := by
  have hsignature := h.ok.fits.signature
  have hcapacity : dataCapacity plan.resigned ≤ 963 := by cases plan.resigned <;> decide
  have hsize : data.sizeOfHeaders + chunk.length < 2 ^ 16 := by
    rw [show data.sizeOfHeaders = 88 from rfl]
    omega
  refine ⟨getIndex_bytes hsignature h.headers hindex, ?_, ?_⟩
  · exact getData_bytes hsignature h.headers (h.ofByte_variant rfl) h.fits (h.buffer rfl)
      (Nat.mod_eq_of_lt hsize) (Nat.mod_lt _ (by decide))
  · exact getFlags_bytes hsignature h.headers (h.ofByte_variant rfl)

namespace Finished

variable (h : P.Finished hashv signMessage k plan chained root batch)
include h

/-- The data shreds of a batch are its first half. -/
theorem filter_data : batch.filter (·.shredType = .data) = batch.take dataShredsPerFecBlock := by
  have htype {i : ℕ} {s : Shred} (hs : batch[i]? = some s) :
      s.shredType = .data ↔ i < dataShredsPerFecBlock := by
    obtain ⟨p, rfl, ⟨chunk, hchunk, hfinal⟩ | ⟨j, -, rfl, hfinal⟩⟩ := h.cases hs
    · exact iff_of_true hfinal.shredType_eq (h.fits.length ▸ lt_length hchunk)
    · refine iff_of_false (fun hdata => ?_) (Nat.not_lt.mpr (Nat.le_add_right _ _))
      cases hfinal.shredType_eq.symm.trans hdata
  conv_lhs => rw [← take_append_drop dataShredsPerFecBlock batch]
  rw [filter_append, filter_eq_self.mpr, filter_eq_nil_iff.mpr, append_nil]
  · intro s hs
    obtain ⟨i, hi⟩ := mem_iff_getElem?.mp hs
    rw [getElem?_drop] at hi
    rw [decide_eq_true_eq, htype hi]
    omega
  · intro s hs
    obtain ⟨i, hi⟩ := mem_iff_getElem?.mp hs
    rw [getElem?_take] at hi
    split at hi
    · rwa [decide_eq_true_eq, htype hi]
    · cases hi

variable (hbound : P.fecSetIndex k + dataShredsPerFecBlock ≤ 2 ^ 32)
include hbound

/-- The root of a batch is computed from each of its shreds. -/
theorem authentic {i : ℕ} {s : Shred} (hs : batch[i]? = some s) :
    layout.getMerkleRoot hashv s.payload = some root ∧
      layout.getSignature s.payload = some (signMessage root).bytes ∧
      layout.getChainedMerkleRoot s.payload = some chained.bytes := by
  obtain ⟨p, rfl, ⟨chunk, hchunk, hfinal⟩ | ⟨j, hj, rfl, hfinal⟩⟩ := h.cases hs
  · have hlt := lt_length hchunk
    rw [h.fits.length] at hlt
    refine hfinal.authentic rfl
      ((dataPosition_bytes hfinal.ok.fits.signature hfinal.headers ?_ ?_).trans
      (congrArg some (Nat.add_sub_cancel_left ..)))
    · exact lt_of_lt_of_le (Nat.add_lt_add_left hlt _) hbound
    · exact Nat.le_add_right _ _
  · exact hfinal.authentic rfl (codePosition_bytes hfinal.ok.fits.signature hfinal.headers
      (show dataShredsPerFecBlock < 2 ^ 16 by decide) (hj.trans (by decide)))

/-- The data shreds of a batch carry its chunks. -/
theorem carries {i : ℕ} (hi : i < dataShredsPerFecBlock) : ∃ s chunk, batch[i]? = some s ∧
    plan.chunks[i]? = some chunk ∧
    Carries s.payload (P.fecSetIndex k + i) chunk (P.flagsAt plan i) := by
  have hlt : i < batch.length := by
    rw [h.length]
    exact Nat.lt_add_right _ hi
  obtain ⟨p, hp, ⟨chunk, hchunk, hfinal⟩ | ⟨j, -, rfl, -⟩⟩ := h.cases (getElem?_eq_getElem hlt)
  · refine ⟨_, chunk, getElem?_eq_getElem hlt, hchunk, ?_⟩
    rw [hp]
    exact carries_of_final hfinal (by omega) (h.fits.size _ (mem_of_getElem? hchunk))
  · omega

end Finished
end ShredParams

/-! ## Deshredding -/

/-- The next shred is the one of an index. -/
structure Deshredding.Ready (st : Deshredding) (index : ℕ) : Prop where
  incomplete : st.dataComplete = false
  prev : ∀ prev, st.prev = some prev → prev + 1 = index

/-- One more shred that is in order. -/
theorem Deshredding.step_eq {st : Deshredding} {payload chunk : List UInt8} {index : ℕ}
    {flags : UInt8}
    (h : st.Ready index) (hcarries : Carries payload index chunk flags) :
    st.step payload = .ok ⟨st.data ++ chunk, some index,
      containsFlags flags dataCompleteShred⟩ := by
  have hprev : (st.prev.map fun prev => decide (prev + 1 ≠ index)).getD false = false := by
    cases hst : st.prev with
    | none => rfl
    | some prev => simp [h.prev prev hst]
  rw [step, h.incomplete, if_neg (by simp)]
  refine bind_eq_ok.mpr ⟨index, by rw [hcarries.index]; rfl, ?_⟩
  rw [hprev, if_neg (by simp)]
  exact bind_eq_ok.mpr ⟨_, hcarries.data, bind_eq_ok.mpr ⟨_, hcarries.flags, rfl⟩⟩

lemma containsFlags_tick (referenceTick : UInt8) :
    containsFlags (fromReferenceTick referenceTick) dataCompleteShred = false := by
  revert referenceTick
  decide +kernel

lemma containsFlags_marked (isLastInSlot : Bool) (referenceTick : UInt8) :
    containsFlags (fromReferenceTick referenceTick |||
      if isLastInSlot then lastShredInSlot else dataCompleteShred) dataCompleteShred = true := by
  revert isLastInSlot referenceTick
  decide +kernel

namespace ShredParams

variable {P : ShredParams} {k : ℕ} {plan : BatchPlan} {batch : List Shred} {st : Deshredding}
  (htick : containsFlags P.dataHeader.flags dataCompleteShred = false)

section batch
variable (h : P.Finished hashv signMessage k plan chained root batch)
  (hbound : P.fecSetIndex k + dataShredsPerFecBlock ≤ 2 ^ 32)
include h hbound

/-- One more data shred of a batch. -/
theorem Finished.foldlM_succ {i : ℕ} (hi : i < dataShredsPerFecBlock) {st' : Deshredding}
    (hfold : ((batch.take i).map Shred.payload).foldlM Deshredding.step st = .ok st')
    (hready : st'.Ready (P.fecSetIndex k + i))
    (hdata : st'.data = st.data ++ (plan.chunks.take i).flatten) :
    ((batch.take (i + 1)).map Shred.payload).foldlM Deshredding.step st =
      .ok ⟨st.data ++ (plan.chunks.take (i + 1)).flatten, some (P.fecSetIndex k + i),
        containsFlags (P.flagsAt plan i) dataCompleteShred⟩ := by
  obtain ⟨s, chunk, hs, hchunk, hcarries⟩ := h.carries hbound hi
  rw [take_add_one, take_add_one, hs, hchunk, map_append, foldlM_append, flatten_append,
    ← append_assoc, ← hdata]
  refine bind_eq_ok.mpr
    ⟨st', hfold, foldlM_cons_eq_ok.mpr ⟨_, Deshredding.step_eq hready hcarries, ?_⟩⟩
  simp
  rfl

include htick

/-- The data shreds of a batch up to the last one. -/
theorem Finished.foldlM_take (hst : st.Ready (P.fecSetIndex k)) {i : ℕ}
    (hi : i < dataShredsPerFecBlock) :
    ∃ st', ((batch.take i).map Shred.payload).foldlM Deshredding.step st = .ok st' ∧
      st'.Ready (P.fecSetIndex k + i) ∧ st'.data = st.data ++ (plan.chunks.take i).flatten := by
  induction i with
  | zero => exact ⟨st, rfl, hst, by simp⟩
  | succ i ih =>
    obtain ⟨st', hfold, hready, hdata⟩ := ih (by omega)
    refine ⟨_, h.foldlM_succ hbound (by omega) hfold hready hdata, ⟨?_, ?_⟩, rfl⟩
    · rw [flagsAt, if_neg (by omega), htick]
    · rintro prev hprev
      cases hprev
      rfl

/-- The data shreds of a batch. -/
theorem Finished.foldlM_data (hst : st.Ready (P.fecSetIndex k)) :
    ((batch.filter (·.shredType = .data)).map Shred.payload).foldlM Deshredding.step st =
      .ok ⟨st.data ++ plan.chunks.flatten, some (P.fecSetIndex k + 31),
        containsFlags (P.dataHeader.flags ||| plan.extra) dataCompleteShred⟩ := by
  obtain ⟨st', hfold, hready, hdata⟩ :=
    h.foldlM_take htick hbound hst (show 31 < dataShredsPerFecBlock by decide)
  have hlast := h.foldlM_succ hbound (by decide) hfold hready hdata
  have hall : plan.chunks.take (31 + 1) = plan.chunks := take_of_length_le h.fits.length.le
  rw [hall] at hlast
  rw [h.filter_data]
  exact hlast

end batch

include htick in
/-- The data shreds of a run. -/
theorem Chained.foldlM_data {init : List BatchPlan} {last : BatchPlan} {roots : List Hash}
    {batches : List (List Shred)}
    (h : P.Chained hashv signMessage k chained (init ++ [last]) roots batches)
    (hbound : P.fecSetIndex k + dataShredsPerFecBlock * (init ++ [last]).length ≤ 2 ^ 32)
    (hinit : ∀ plan ∈ init, plan.extra = 0)
    (hlast : containsFlags (P.dataHeader.flags ||| last.extra) dataCompleteShred = true)
    (hst : st.Ready (P.fecSetIndex k)) :
    ∃ prev, ((batches.flatten.filter (·.shredType = .data)).map Shred.payload).foldlM
      Deshredding.step st = .ok ⟨st.data ++ dataOf (init ++ [last]), prev, true⟩ := by
  induction init generalizing k chained roots batches st with
  | nil =>
    obtain _ | ⟨first, _ | _⟩ := h
    have hfold := first.foldlM_data htick hbound hst
    rw [hlast] at hfold
    exact ⟨_, by simpa [dataOf] using hfold⟩
  | cons plan init ih =>
    obtain _ | ⟨first, rest⟩ := h
    have hnext : P.fecSetIndex (k + 1) = P.fecSetIndex k + dataShredsPerFecBlock := rfl
    rw [cons_append, length_cons, Nat.mul_succ] at hbound
    have hfold := first.foldlM_data htick (by omega) hst
    rw [hinit plan (.head _), UInt8.or_zero, htick] at hfold
    have hready : Deshredding.Ready ⟨st.data ++ plan.chunks.flatten, some (P.fecSetIndex k + 31),
        false⟩ (P.fecSetIndex (k + 1)) := ⟨rfl, fun prev hprev => by cases hprev; rfl⟩
    obtain ⟨prev, hrest⟩ := ih rest (by omega) (fun plan hmem => hinit plan (.tail _ hmem)) hready
    refine ⟨prev, ?_⟩
    rw [flatten_cons, filter_append, map_append, foldlM_append]
    refine bind_eq_ok.mpr ⟨_, hfold, hrest.trans ?_⟩
    rw [append_assoc]
    rfl

end ShredParams

/-! ## The shreds of some data -/

/-- The indices of a batch are below those of all batches. -/
lemma index_le {start size k n bound : ℕ} (hk : k < n) (h : start + size * n < bound) :
    start + size * k + size ≤ bound := by
  have := Nat.mul_le_mul_left size hk
  rw [Nat.mul_succ] at this
  omega

/-- A code for examples: the first shard, again and again. -/
def repetitionCode : ReedSolomon where
  parity _ numParity shards := replicate numParity (shards.headD [])
  length_parity _ _ _ := length_replicate
  size_parity _ _ shards size hne hsize code hcode := by
    obtain ⟨shard, rest, rfl⟩ := exists_cons_of_ne_nil hne
    rw [eq_of_mem_replicate hcode]
    exact hsize shard (.head _)

/-- More data than a batch holds. -/
def someData : List UInt8 := replicate 40000 7

lemma length_someData : someData.length = 40000 := length_replicate

lemma numberOfBatches_someData : numberOfBatches true someData = 2 := by
  simp [numberOfBatches, numberOfFecSets, splitData, length_someData, dataCapacity,
    dataShredsPerFecBlock]

section results
variable {data : List UInt8} {slot parentSlot : ℕ} (hparent : parentSlot ≤ slot)
  (hoffset : slot - parentSlot < 2 ^ 16) {isLastInSlot : Bool} {nextShredIndex nextCodeIndex : ℕ}
  (hindex : nextShredIndex + dataShredsPerFecBlock * numberOfBatches isLastInSlot data < 2 ^ 32)
  (version : ℕ) (referenceTick : UInt8)
include hparent hoffset hindex

/-- The data comes back from its data shreds, and a buffer of zeros if there is none. -/
theorem deshred_makeShredsFromData
    (_hcode :
      nextCodeIndex + codingShredsPerFecBlock * numberOfBatches isLastInSlot data < 2 ^ 32) :
    ∃ shreds, makeShredsFromData hashv rs signMessage chained data slot parentSlot version
        referenceTick isLastInSlot nextShredIndex nextCodeIndex = .ok shreds ∧
      deshred ((shreds.filter (·.shredType = .data)).map Shred.payload) =
        .ok (if data = [] then replicate 1083 0 else data) := by
  obtain ⟨init, last, roots, batches, hmake, hchained, hplans, hlength, hinit, hlast⟩ :=
    makeShredsFromData_chained hashv rs signMessage data hparent hoffset chained version
      referenceTick isLastInSlot nextShredIndex nextCodeIndex
  refine ⟨batches.flatten, hmake, ?_⟩
  obtain ⟨prev, hfold⟩ := @Chained.foldlM_data _ _ _ _ 0 {} (containsFlags_tick referenceTick) _ _
    _ _ hchained (by rw [hlength]; exact hindex.le) hinit
    (hlast ▸ containsFlags_marked isLastInSlot referenceTick) ⟨rfl, nofun⟩
  refine bind_eq_ok.mpr ⟨_, hfold, ?_⟩
  rw [hplans, nil_append, if_neg (by simp)]
  split <;> rfl

omit hparent hoffset hindex in
theorem deshred_someData :
    ∃ shreds, makeShredsFromData digitHash repetitionCode (fun _ => .default)
    (digitHash []) someData
        5 4 1 0 true 96 64 = .ok shreds ∧
      deshred ((shreds.filter (·.shredType = .data)).map Shred.payload) = .ok someData :=
  deshred_makeShredsFromData (by decide) (by decide) (by rw [numberOfBatches_someData]; decide) 1 0
    (by rw [numberOfBatches_someData]; decide)

/-- Every shred leads to the Merkle root of its batch, which the leader signed, and has the root of
the batch before. -/
theorem makeShredsFromData_authentic
    (_hcode :
      nextCodeIndex + codingShredsPerFecBlock * numberOfBatches isLastInSlot data < 2 ^ 32) :
    ∃ (roots : List Hash) (batches : List (List Shred)),
      makeShredsFromData hashv rs signMessage chained data slot parentSlot version referenceTick
        isLastInSlot nextShredIndex nextCodeIndex = .ok batches.flatten ∧
      roots.length = numberOfBatches isLastInSlot data ∧
      batches.length = numberOfBatches isLastInSlot data ∧
      ∀ (k : ℕ) (batch : List Shred), batches[k]? = some batch →
        batch.length = dataShredsPerFecBlock + codingShredsPerFecBlock ∧ ∀ s ∈ batch,
          layout.getMerkleRoot hashv s.payload = roots[k]? ∧
          layout.getSignature s.payload = roots[k]?.map (fun root => (signMessage root).bytes) ∧
          layout.getChainedMerkleRoot s.payload = (chained :: roots)[k]?.map Hash.bytes := by
  obtain ⟨init, last, roots, batches, hmake, hchained, -, hlength, -⟩ :=
    makeShredsFromData_chained hashv rs signMessage data hparent hoffset chained version
      referenceTick isLastInSlot nextShredIndex nextCodeIndex
  obtain ⟨hroots, hbatches⟩ := hchained.lengths
  refine ⟨roots, batches, hmake, hroots.trans hlength, hbatches.trans hlength, fun k batch hk => ?_⟩
  obtain ⟨plan, before, root, -, hbefore, hroot, hfinished⟩ := hchained.get hk
  refine ⟨hfinished.length, fun s hs => ?_⟩
  obtain ⟨i, hi⟩ := mem_iff_getElem?.mp hs
  rw [hbefore, hroot]
  have hlt := lt_length hk
  exact hfinished.authentic (index_le (by omega) hindex) hi

omit hparent hoffset hindex in
theorem authentic_someData : ∃ (roots : List Hash) (batches : List (List Shred)),
    makeShredsFromData digitHash repetitionCode (fun _ => .default) (digitHash []) someData 5
    4 1 0 true
      96 64 = .ok batches.flatten ∧ roots.length = 2 ∧ batches.length = 2 ∧
    ∀ (k : ℕ) (batch : List Shred), batches[k]? = some batch → batch.length = 64 ∧ ∀ s ∈ batch,
      layout.getMerkleRoot digitHash s.payload = roots[k]? ∧
      layout.getSignature s.payload = roots[k]?.map (fun _ => Signature.default.bytes) ∧
      layout.getChainedMerkleRoot s.payload = (digitHash [] :: roots)[k]?.map Hash.bytes := by
  rw [← numberOfBatches_someData]
  exact makeShredsFromData_authentic (by decide) (by decide)
    (by rw [numberOfBatches_someData]; decide)
    1 0 (by rw [numberOfBatches_someData]; decide)

/-- The headers of the shreds: the indices of either type are consecutive, and only the very last
data shred is marked. -/
theorem makeShredsFromData_headers
    (hcode : nextCodeIndex + codingShredsPerFecBlock * numberOfBatches isLastInSlot data < 2 ^ 32)
    (hslot : slot < 2 ^ 64) (hversion : version < 2 ^ 16) :
    ∃ batches : List (List Shred),
      makeShredsFromData hashv rs signMessage chained data slot parentSlot version referenceTick
        isLastInSlot nextShredIndex nextCodeIndex = .ok batches.flatten ∧
      batches.length = numberOfBatches isLastInSlot data ∧
      ∀ (k : ℕ) (batch : List Shred), batches[k]? = some batch →
        batch.length = dataShredsPerFecBlock + codingShredsPerFecBlock ∧
        ∀ (i : ℕ) (s : Shred), batch[i]? = some s →
          layout.getSlot s.payload = some slot ∧ layout.getVersion s.payload = some version ∧
          layout.getFecSetIndex s.payload = some (nextShredIndex + dataShredsPerFecBlock * k) ∧
          if i < dataShredsPerFecBlock then
            layout.getShredType s.payload = .ok .data ∧
            layout.getIndex s.payload = some (nextShredIndex + dataShredsPerFecBlock * k + i) ∧
            layout.getParentOffset s.payload = some (slot - parentSlot) ∧
            layout.getFlags s.payload = .ok (if k + 1 = numberOfBatches isLastInSlot data ∧
                i + 1 = dataShredsPerFecBlock then fromReferenceTick referenceTick |||
                  (if isLastInSlot then lastShredInSlot else dataCompleteShred)
              else fromReferenceTick referenceTick)
          else
            layout.getShredType s.payload = .ok .code ∧
            layout.getIndex s.payload =
              some (nextCodeIndex + codingShredsPerFecBlock * k + (i - dataShredsPerFecBlock)) := by
  obtain ⟨init, last, roots, batches, hmake, hchained, -, hlength, hinit, hlast⟩ :=
    makeShredsFromData_chained hashv rs signMessage data hparent hoffset chained version
      referenceTick isLastInSlot nextShredIndex nextCodeIndex
  have hbatches := hchained.lengths.2
  refine ⟨batches, hmake, hbatches.trans hlength, fun k batch hk => ?_⟩
  obtain ⟨plan, before, root, hplan, -, -, hfinished⟩ := hchained.get hk
  rw [zero_add] at hfinished
  refine ⟨hfinished.length, fun i s hs => ?_⟩
  have hlt : k < numberOfBatches isLastInSlot data := hlength ▸ hbatches ▸ lt_length hk
  have hfec := index_le hlt hindex
  have hfirst : nextShredIndex + dataShredsPerFecBlock * k < 2 ^ 32 :=
    Nat.lt_of_lt_of_le (Nat.lt_add_of_pos_right (by decide)) hfec
  -- only the last plan has more flags
  have hextra : plan.extra = if k + 1 = numberOfBatches isLastInSlot data then
      (if isLastInSlot then lastShredInSlot else dataCompleteShred) else 0 := by
    rw [length_append, length_singleton] at hlength
    by_cases hk : k < init.length
    · rw [getElem?_append_left hk] at hplan
      rw [hinit plan (mem_of_getElem? hplan), if_neg (by omega)]
    · obtain rfl : k = init.length := by omega
      rw [getElem?_concat_length, Option.some.injEq] at hplan
      rw [← hplan, hlast, if_pos hlength]
  obtain ⟨p, rfl, ⟨chunk, hchunk, hfinal⟩ | ⟨j, hj, rfl, hfinal⟩⟩ := hfinished.cases hs
  · have hi : i < dataShredsPerFecBlock := hfinished.fits.length ▸ lt_length hchunk
    have hsignature := hfinal.ok.fits.signature
    have hcarries := carries_of_final hfinal (lt_of_lt_of_le (Nat.add_lt_add_left hi _) hfec)
      (hfinished.fits.size _ (mem_of_getElem? hchunk))
    refine ⟨getSlot_bytes hsignature hfinal.headers hslot,
      getVersion_bytes hsignature hfinal.headers hversion,
      getFecSetIndex_bytes hsignature hfinal.headers hfirst, ?_⟩
    rw [if_pos hi]
    refine ⟨hfinal.getShredType rfl, hcarries.index,
      getParentOffset_bytes hsignature hfinal.headers hoffset, hcarries.flags.trans ?_⟩
    rw [flagsAt, hextra]
    by_cases hk : k + 1 = numberOfBatches isLastInSlot data <;>
      simp [hk, shredParams]
  · have hsignature := hfinal.ok.fits.signature
    refine ⟨getSlot_bytes hsignature hfinal.headers hslot,
      getVersion_bytes hsignature hfinal.headers hversion,
      getFecSetIndex_bytes hsignature hfinal.headers hfirst, ?_⟩
    rw [if_neg (by omega), Nat.add_sub_cancel_left]
    exact ⟨hfinal.getShredType rfl, getIndex_bytes hsignature hfinal.headers
      (lt_of_lt_of_le (Nat.add_lt_add_left hj _) (index_le hlt hcode))⟩

end results

theorem headers_someData : ∃ batches : List (List Shred),
    makeShredsFromData digitHash repetitionCode (fun _ => .default) (digitHash []) someData 5
    4 1 0 true
      96 64 = .ok batches.flatten ∧ batches.length = 2 := by
  obtain ⟨batches, hmake, hlength, -⟩ := @makeShredsFromData_headers digitHash repetitionCode
    (fun _ => .default) (digitHash []) someData 5 4 (by decide) (by decide) true 96 64
    (by rw [numberOfBatches_someData]; decide) 1 0 (by rw [numberOfBatches_someData]; decide)
    (by decide) (by decide)
  exact ⟨batches, hmake, hlength.trans numberOfBatches_someData⟩

end Trezoa.Ledger
