import Trezoa.Ledger.ShredPlan

/-!
# The batches of some data

What `makeShredsFromData` makes of some data: batches that are filled in one after the other, each
with the Merkle root of the one before.
-/

namespace Trezoa.Ledger

open Lib List ShredType Parts ShredParams

/-! ## A batch that is filled in -/

section batch
variable (hashv : List (List UInt8) → Hash) (rs : ReedSolomon) (signMessage : Hash → Signature)

/-- The shred `p` is the blank shred `q` at a position of a batch, filled in. -/
structure Final (resigned : Bool) (chained root : Hash) (i : ℕ) (q p : Parts) : Prop where
  ok : p.Ok proofEntriesFor3232Batch resigned
  header : p.header = q.header
  headers : p.blocks.headers = headersOf q.common q.header
  signature : p.blocks.signature = (signMessage root).bytes
  chained : p.blocks.chained = chained.bytes
  /-- The buffer of a coding shred has a code instead. -/
  buffer : q.shredType = .data → p.blocks.buffer = q.blocks.buffer
  proof : ∃ entries, p.blocks.proof = (entries.map MerkleProofEntry.bytes).flatten ∧
    getMerkleRoot hashv i (p.node hashv) entries = .ok root

/-- An encoded shred has the headers of the blank one at its position, and a data shred its data. -/
theorem IsBatch.getElem?_encodedParts {data code : List Parts} {resigned : Bool}
    (h : IsBatch data code resigned) {i : ℕ} {q : Parts} (hq : (data ++ code)[i]? = some q) :
    ∃ p, (encodedParts rs data code)[i]? = some p ∧ p.header = q.header ∧
      p.blocks.headers = headersOf q.common q.header ∧
      (q.shredType = .data → p.blocks.buffer = q.blocks.buffer) := by
  unfold encodedParts
  by_cases hi : i < data.length
  · rw [getElem?_append_left hi] at hq
    refine ⟨q.withHeaders, ?_, rfl, rfl, fun _ => rfl⟩
    rw [getElem?_append_left (by rwa [length_map]), getElem?_map, hq, Option.map_some]
  · rw [getElem?_append_right (le_of_not_gt hi)] at hq
    obtain ⟨buffer, hbuffer⟩ : ∃ buffer, (rs.parity data.length code.length
        (data.map fun p => p.withHeaders.coded))[i - data.length]? = some buffer :=
      ⟨_, getElem?_eq_getElem (by rw [rs.length_parity]; exact lt_length hq)⟩
    refine ⟨q.withHeaders.withBuffer buffer, ?_, rfl, rfl, fun hdata => ?_⟩
    · rw [getElem?_append_right (by rw [length_map]; omega), length_map, getElem?_zipWith, hq,
        hbuffer]
    · cases (h.code_type (mem_of_getElem? hq)).symm.trans hdata

/-- Filling in a batch fills in each of its shreds. -/
theorem IsBatch.final {data code : List Parts} {resigned : Bool} (h : IsBatch data code resigned)
    (chained : Hash) : ∃ shreds root,
      Ledger.finishErasureBatch hashv rs signMessage chained ((data ++ code).map shred) =
        .ok (shreds, root) ∧ shreds.length = dataShredsPerFecBlock + codingShredsPerFecBlock ∧
      ∀ i q, (data ++ code)[i]? = some q →
        ∃ p, shreds[i]? = some p.shred ∧ Final hashv signMessage resigned chained root i q p := by
  obtain ⟨root, proofs, hfinish, hproofs⟩ := h.finishErasureBatch hashv rs signMessage chained
  refine ⟨_, root, hfinish, by rw [length_map, length_map, length_zipIdx, h.length_encodedParts],
    fun i q hq => ?_⟩
  obtain ⟨p, hp, hheader, hheaders, hbuffer⟩ := h.getElem?_encodedParts rs hq
  obtain ⟨hlength, hroot⟩ := hproofs i p hp
  have hok := ((h.ok_encodedParts rs (mem_of_getElem? hp)).withChained chained).attach
    (signMessage root) hlength
  refine ⟨_, ?_, hok, hheader, hheaders, rfl, rfl, hbuffer, _, rfl, hroot⟩
  rw [getElem?_map, getElem?_map, getElem?_zipIdx, hp, Option.map_some, Option.map_some,
    Option.map_some, zero_add]

end batch

namespace ShredParams

variable (P : ShredParams)

/-! ## Flags and batches of blank shreds -/

/-- The first half of a batch are data shreds, the second one coding shreds. -/
theorem getElem?_blankBatch {k i : ℕ} {plan : BatchPlan} {q : Parts} (h : plan.Fits)
    (hq : (P.blankBatch k plan)[i]? = some q) :
    (∃ chunk, plan.chunks[i]? = some chunk ∧ q = P.blankData k plan (chunk, i)) ∨
      ∃ j < codingShredsPerFecBlock, i = dataShredsPerFecBlock + j ∧ q = P.blankCode k plan j := by
  have hlength := (P.isBatch (k := k) h).length_data
  unfold blankBatch at hq
  by_cases hi : i < dataShredsPerFecBlock
  · rw [getElem?_append_left (by omega), blankDataParts, getElem?_map, getElem?_zipIdx] at hq
    obtain ⟨item, hitem, rfl⟩ := Option.map_eq_some_iff.mp hq
    obtain ⟨chunk, hchunk, rfl⟩ := Option.map_eq_some_iff.mp hitem
    exact .inl ⟨chunk, hchunk, by rw [zero_add]⟩
  · rw [getElem?_append_right (by omega), hlength, blankCodeParts, getElem?_map] at hq
    obtain ⟨j, hj, rfl⟩ := Option.map_eq_some_iff.mp hq
    have hlt := lt_length hj
    rw [length_range] at hlt
    rw [getElem?_range hlt, Option.some.injEq] at hj
    exact .inr ⟨j, hj ▸ hlt, by omega, rfl⟩

lemma modifyFirstData_append {f : Shred → Shred} {codes rest : List Shred} {s : Shred}
    (hcodes : ∀ c ∈ codes, c.shredType = .code) (hs : s.shredType = .data) :
    modifyFirstData f (codes ++ s :: rest) = codes ++ f s :: rest := by
  induction codes with
  | nil => simp [modifyFirstData, hs]
  | cons c codes ih =>
    rw [cons_append, modifyFirstData, if_neg (by simp [hcodes c (.head _)]),
      ih fun c hc => hcodes c (.tail _ hc)]
    rfl

/-- The very last data shred gets its flags as part of the last batch. -/
theorem adjustFlags_eq {isLastInSlot : Bool} {init : List BatchPlan} {last : BatchPlan}
    (h : last.Fits) (hextra : last.extra = 0) :
    adjustFlags isLastInSlot ((P.blankBatches 0 (init ++ [last])).flatten.map shred) =
      (P.blankBatches 0 (init ++ [{ last with
        extra := if isLastInSlot then lastShredInSlot else dataCompleteShred }])).flatten.map
          shred := by
  generalize hflags : (if isLastInSlot then lastShredInSlot else dataCompleteShred) = flags
  obtain ⟨resigned, chunks, extra⟩ := last
  obtain rfl : extra = 0 := hextra
  rcases eq_nil_or_concat chunks with rfl | ⟨front, chunk, rfl⟩
  · cases h.length
  have hfront : front.length + 1 = dataShredsPerFecBlock := by simpa using h.length
  set plan : UInt8 → BatchPlan := fun extra => ⟨resigned, front.concat chunk, extra⟩ with hplan
  -- all but the last data shred are the same with and without the flags
  have hbatch (extra : UInt8) : P.blankBatches init.length [plan extra] =
      [front.zipIdx.map (P.blankData init.length (plan 0)) ++
        (P.blankData init.length (plan extra) (chunk, front.length) ::
          P.blankCodeParts init.length (plan 0))] := by
    have hsame : front.zipIdx.map (P.blankData init.length (plan extra)) =
        front.zipIdx.map (P.blankData init.length (plan 0)) := by
      refine map_congr_left fun item hitem => ?_
      have hlt := lt_length (mk_mem_zipIdx_iff_getElem?.mp hitem)
      have hne : item.2 + 1 ≠ dataShredsPerFecBlock := by omega
      simp only [blankData, if_neg hne, hplan]
    rw [← hsame, show P.blankBatches init.length [plan extra] =
      [P.blankBatch init.length (plan extra)] from rfl, blankBatch, blankDataParts, hplan,
      concat_eq_append, zipIdx_append, map_append, append_assoc, zero_add]
    rfl
  have hflag : (P.blankData init.length (plan 0) (chunk, front.length)).shred.orFlags flags =
      (P.blankData init.length (plan flags) (chunk, front.length)).shred := by
    simp [Shred.orFlags, blankData, shred, hfront, plan]
  change adjustFlags isLastInSlot ((P.blankBatches 0 (init ++ [plan 0])).flatten.map shred) =
    (P.blankBatches 0 (init ++ [plan flags])).flatten.map shred
  simp only [blankBatches_append, flatten_append, zero_add, hbatch, flatten_singleton,
    map_append, map_cons, adjustFlags, hflags]
  simp only [reverse_append, reverse_cons, append_assoc, cons_append, nil_append]
  rw [modifyFirstData_append (fun c hc => ?_) rfl, hflag]
  · simp
  · obtain ⟨p, hp, rfl⟩ := mem_map.mp (mem_reverse.mp hc)
    obtain ⟨j, -, rfl⟩ := mem_map.mp hp
    rfl

/-- All shreds of a batch have its index. -/
lemma fecSetIndex_of_mem {k : ℕ} {plan : BatchPlan} {s : Shred}
    (hs : s ∈ (P.blankBatch k plan).map shred) : s.fecSetIndex = P.fecSetIndex k := by
  obtain ⟨p, hp, rfl⟩ := mem_map.mp hs
  rcases mem_append.mp hp with hp | hp
  · obtain ⟨item, -, rfl⟩ := mem_map.mp hp
    rfl
  · obtain ⟨j, -, rfl⟩ := mem_map.mp hp
    rfl

/-- The shreds are grouped by batches. -/
theorem splitBy_blankBatches {plans : List BatchPlan} (h : ∀ plan ∈ plans, plan.Fits) (k : ℕ) :
    ((P.blankBatches k plans).flatten.map shred).splitBy
      (fun a b => a.fecSetIndex == b.fecSetIndex) = (P.blankBatches k plans).map (map shred) := by
  have hne (k : ℕ) {plan : BatchPlan} (hplan : plan.Fits) :
      (P.blankBatch k plan).map shred ≠ [] := by
    intro hnil
    have := P.length_blankBatch (k := k) hplan
    rw [map_eq_nil_iff.mp hnil] at this
    cases this
  rw [map_flatten]
  refine splitBy_flatten ?_ ?_ ?_
  · intro hmem
    obtain ⟨batch, hbatch, hnil⟩ := mem_map.mp hmem
    obtain ⟨item, hitem, rfl⟩ := mem_map.mp hbatch
    exact hne _ (h _ (fst_mem_of_mem_zipIdx hitem)) hnil
  · intro batch hmem
    obtain ⟨batch, hbatch, rfl⟩ := mem_map.mp hmem
    obtain ⟨item, -, rfl⟩ := mem_map.mp hbatch
    refine (pairwise_of_forall_mem_list fun a ha b hb => ?_).isChain
    rw [P.fecSetIndex_of_mem ha, P.fecSetIndex_of_mem hb]
    exact beq_self_eq_true _
  · -- the index grows from batch to batch
    induction plans generalizing k with
    | nil => exact .nil
    | cons plan plans ih =>
      rcases plans with _ | ⟨plan', plans⟩
      · exact .singleton _
      refine isChain_cons_cons.mpr ⟨⟨hne k (h plan (.head _)),
        hne (k + 1) (h plan' (.tail _ (.head _))), ?_⟩,
        ih (fun plan hplan => h plan (.tail _ hplan)) (k + 1)⟩
      rw [P.fecSetIndex_of_mem (getLast_mem _), P.fecSetIndex_of_mem (head_mem _)]
      refine beq_eq_false_iff_ne.mpr fun heq : P.fecSetIndex k = P.fecSetIndex k + 32 => ?_
      omega

/-! ## The run -/

section run
variable (hashv : List (List UInt8) → Hash) (rs : ReedSolomon) (signMessage : Hash → Signature)

/-- A batch of a run. -/
structure Finished (k : ℕ) (plan : BatchPlan) (chained root : Hash) (batch : List Shred) :
    Prop where
  fits : plan.Fits
  length : batch.length = dataShredsPerFecBlock + codingShredsPerFecBlock
  get : ∀ i q, (P.blankBatch k plan)[i]? = some q →
    ∃ p, batch[i]? = some p.shred ∧ Final hashv signMessage plan.resigned chained root i q p

/-- Batches with their roots, each of which has the root of the one before. -/
inductive Chained : ℕ → Hash → List BatchPlan → List Hash → List (List Shred) → Prop
  | nil (k : ℕ) (chained : Hash) : Chained k chained [] [] []
  | cons {k : ℕ} {chained root : Hash} {plan : BatchPlan} {plans : List BatchPlan}
      {roots : List Hash} {batch : List Shred} {batches : List (List Shred)}
      (first : P.Finished hashv signMessage k plan chained root batch)
      (rest : Chained (k + 1) root plans roots batches) :
      Chained k chained (plan :: plans) (root :: roots) (batch :: batches)

/-- The batches are filled in one after the other. -/
theorem finishErasureBatches_chained {plans : List BatchPlan} (h : ∀ plan ∈ plans, plan.Fits)
    (k : ℕ) (chained : Hash) : ∃ roots batches,
      finishErasureBatches hashv rs signMessage chained ((P.blankBatches k plans).map (map shred)) =
        .ok batches.flatten ∧ P.Chained hashv signMessage k chained plans roots batches := by
  induction plans generalizing k chained with
  | nil => exact ⟨[], [], rfl, .nil k chained⟩
  | cons plan plans ih =>
    have hplan := h plan (.head _)
    obtain ⟨batch, root, hfinish, hlength, hget⟩ :=
      (P.isBatch (k := k) hplan).final hashv rs signMessage chained
    obtain ⟨roots, batches, hrest, hchained⟩ :=
      ih (fun plan hmem => h plan (.tail _ hmem)) (k + 1) root
    exact ⟨root :: roots, batch :: batches, bind_eq_ok.mpr ⟨(batch, root), hfinish,
      bind_eq_ok.mpr ⟨batches.flatten, hrest, rfl⟩⟩, .cons ⟨hplan, hlength, hget⟩ hchained⟩

end run

variable {P} {hashv : List (List UInt8) → Hash} {signMessage : Hash → Signature} {k : ℕ}
  {chained root : Hash} {plan : BatchPlan} {plans : List BatchPlan} {roots : List Hash}
  {batch : List Shred} {batches : List (List Shred)}

/-- A shred of a batch is a data or a coding shred of it, by its position. -/
theorem Finished.cases (h : P.Finished hashv signMessage k plan chained root batch) {i : ℕ}
    {s : Shred} (hs : batch[i]? = some s) : ∃ p, s = p.shred ∧
      ((∃ chunk, plan.chunks[i]? = some chunk ∧ Final hashv signMessage plan.resigned chained root i
        (P.blankData k plan (chunk, i)) p) ∨
      ∃ j < codingShredsPerFecBlock, i = dataShredsPerFecBlock + j ∧
        Final hashv signMessage plan.resigned chained root i (P.blankCode k plan j) p) := by
  have hlt := lt_length hs
  rw [h.length, ← P.length_blankBatch (k := k) h.fits] at hlt
  obtain ⟨p, hp, hfinal⟩ := h.get i _ (getElem?_eq_getElem hlt)
  rw [hs, Option.some.injEq] at hp
  refine ⟨p, hp, ?_⟩
  rcases P.getElem?_blankBatch h.fits (getElem?_eq_getElem hlt) with
    ⟨chunk, hchunk, hq⟩ | ⟨j, hj, hi, hq⟩
  · exact .inl ⟨chunk, hchunk, hq ▸ hfinal⟩
  · exact .inr ⟨j, hj, hi, hq ▸ hfinal⟩

/-- Each batch of a run is filled in, with the root of the one before. -/
theorem Chained.get (h : P.Chained hashv signMessage k chained plans roots batches) {j : ℕ}
    (hbatch : batches[j]? = some batch) : ∃ plan before root, plans[j]? = some plan ∧
      (chained :: roots)[j]? = some before ∧ roots[j]? = some root ∧
      P.Finished hashv signMessage (k + j) plan before root batch := by
  induction h generalizing j with
  | nil => cases hbatch
  | @cons _ chained root plan _ _ _ _ first _ ih =>
    rcases j with _ | j
    · cases hbatch
      exact ⟨plan, chained, root, rfl, rfl, rfl, first⟩
    · rw [← Nat.add_assoc, Nat.add_right_comm]
      exact ih hbatch

lemma Chained.lengths (h : P.Chained hashv signMessage k chained plans roots batches) :
    roots.length = plans.length ∧ batches.length = plans.length := by
  induction h with
  | nil => exact ⟨rfl, rfl⟩
  | cons _ _ ih => exact ⟨congrArg (· + 1) ih.1, congrArg (· + 1) ih.2⟩

end ShredParams

/-- What the shreds of some data have in common. -/
def shredParams (slot parentSlot version : ℕ) (referenceTick : UInt8)
    (nextShredIndex nextCodeIndex : ℕ) : ShredParams :=
  ⟨slot, version, ⟨slot - parentSlot, fromReferenceTick referenceTick, 0⟩, nextShredIndex,
    nextCodeIndex⟩

/-- Shredding makes batches of all the data, and marks the last one. -/
theorem makeShredsFromData_chained (hashv : List (List UInt8) → Hash) (rs : ReedSolomon)
    (signMessage : Hash → Signature) (data : List UInt8) {slot parentSlot : ℕ}
    (hparent : parentSlot ≤ slot) (hoffset : slot - parentSlot < 2 ^ 16) (chained : Hash)
    (version : ℕ) (referenceTick : UInt8) (isLastInSlot : Bool) (nextShredIndex nextCodeIndex : ℕ) :
    ∃ init last roots batches,
      makeShredsFromData hashv rs signMessage chained data slot parentSlot version referenceTick
        isLastInSlot nextShredIndex nextCodeIndex = .ok batches.flatten ∧
      (shredParams slot parentSlot version referenceTick nextShredIndex nextCodeIndex).Chained hashv
        signMessage 0 chained (init ++ [last]) roots batches ∧
      dataOf (init ++ [last]) = data ∧
      (init ++ [last]).length = numberOfBatches isLastInSlot data ∧
      (∀ plan ∈ init, plan.extra = 0) ∧
      last.extra = if isLastInSlot then lastShredInSlot else dataCompleteShred := by
  let P := shredParams slot parentSlot version referenceTick nextShredIndex nextCodeIndex
  obtain ⟨init, last, hblank, hplans, hplain, hfits, -, hextra, hlength⟩ :=
    P.makeBlankShreds_eq data isLastInSlot
  let marked : BatchPlan := { last with
    extra := if isLastInSlot then lastShredInSlot else dataCompleteShred }
  have hmarked : ∀ plan ∈ init ++ [marked], plan.Fits := by
    intro plan hmem
    rcases mem_append.mp hmem with hmem | hmem
    · exact (hplain plan hmem).fits
    · rw [mem_singleton.mp hmem]
      exact ⟨hfits.length, hfits.size⟩
  obtain ⟨roots, batches, hfinish, hchained⟩ :=
    P.finishErasureBatches_chained hashv rs signMessage hmarked 0 chained
  refine ⟨init, marked, roots, batches, bind_eq_ok.mpr ⟨_, if_pos ⟨hparent, hoffset⟩, bind_eq_ok.mpr
    ⟨_, hblank, ?_⟩⟩, hchained, ?_, ?_, fun plan hmem => (hplain plan hmem).extra, rfl⟩
  · rw [P.adjustFlags_eq hfits hextra, P.splitBy_blankBatches hmarked]
    exact hfinish
  · rw [← hplans, dataOf_append, dataOf_append]
    rfl
  · rw [← hlength, length_append, length_append]
    rfl

end Trezoa.Ledger
