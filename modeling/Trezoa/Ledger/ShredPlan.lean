import Trezoa.Ledger.ErasureBatch

/-!
# How data is split into shreds

The blank shreds of some data, batch by batch: which chunks they hold, and with which headers.
-/

namespace Trezoa.Ledger

open Lib List ShredType Nat Parts

/-! ## Blank batches -/

/-- The size of the buffer of a data shred in a batch of 64. -/
def dataCapacity (resigned : Bool) : ℕ := if resigned then 899 else 963

lemma capacity_data (resigned : Bool) :
    capacity .data proofEntriesFor3232Batch.toNat resigned = .ok (dataCapacity resigned) := by
  cases resigned <;> rfl

/-- The size of the buffer of a coding shred in a batch of 64. -/
def codeCapacity (resigned : Bool) : ℕ := if resigned then 923 else 987

lemma capacity_code (resigned : Bool) :
    capacity .code proofEntriesFor3232Batch.toNat resigned = .ok (codeCapacity resigned) := by
  cases resigned <;> rfl

/-- What a batch holds: whether there is room for another signature, the chunks, and flags for the
last data shred. -/
structure BatchPlan where
  resigned : Bool
  chunks : List (List UInt8)
  extra : UInt8

/-- There is a chunk for each data shred, and all of them fit. -/
structure BatchPlan.Fits (plan : BatchPlan) : Prop where
  length : plan.chunks.length = dataShredsPerFecBlock
  size : ∀ chunk ∈ plan.chunks, chunk.length ≤ dataCapacity plan.resigned

/-- What all shreds have in common. -/
structure ShredParams where
  slot : ℕ
  version : ℕ
  dataHeader : DataShredHeader
  nextShredIndex : ℕ
  nextCodeIndex : ℕ

namespace ShredParams

variable (P : ShredParams)

/-- The common header of the first data shred of a batch. -/
def commonData (k : ℕ) (resigned : Bool) (fecSetIndex : ℕ) : ShredCommonHeader :=
  ⟨.default, .merkleData proofEntriesFor3232Batch resigned, P.slot,
    P.nextShredIndex + dataShredsPerFecBlock * k, P.version, fecSetIndex⟩

/-- The common header of the first coding shred of a batch. -/
def commonCode (k : ℕ) (resigned : Bool) (fecSetIndex : ℕ) : ShredCommonHeader :=
  ⟨.default, .merkleCode proofEntriesFor3232Batch resigned, P.slot,
    P.nextCodeIndex + codingShredsPerFecBlock * k, P.version, fecSetIndex⟩

/-- The index of the first data shred of a batch. -/
def fecSetIndex (k : ℕ) : ℕ := P.nextShredIndex + dataShredsPerFecBlock * k

/-- A data shred before it is filled in. -/
def blankData (k : ℕ) (plan : BatchPlan) (item : List UInt8 × ℕ) : Parts :=
  ⟨{ P.commonData k plan.resigned (P.fecSetIndex k) with index := P.fecSetIndex k + item.2 },
    .data { P.dataHeader with
      flags := if item.2 + 1 = dataShredsPerFecBlock then P.dataHeader.flags ||| plan.extra
        else P.dataHeader.flags
      size := (data.sizeOfHeaders + item.1.length) % 2 ^ 16 },
    ⟨replicate 64 0, replicate 24 0,
      item.1 ++ replicate (dataCapacity plan.resigned - item.1.length) 0,
      replicate 32 0, replicate 120 0,
      replicate (if plan.resigned then 64 else 0) 0⟩⟩

/-- A coding shred before it is filled in. -/
def blankCode (k : ℕ) (plan : BatchPlan) (j : ℕ) : Parts :=
  ⟨{ P.commonCode k plan.resigned (P.fecSetIndex k) with
      index := P.nextCodeIndex + codingShredsPerFecBlock * k + j },
    .code ⟨dataShredsPerFecBlock, codingShredsPerFecBlock, j⟩,
    ⟨replicate 64 0, replicate 25 0, replicate (codeCapacity plan.resigned) 0,
      replicate 32 0, replicate 120 0,
      replicate (if plan.resigned then 64 else 0) 0⟩⟩

/-- The data shreds of a batch. -/
def blankDataParts (k : ℕ) (plan : BatchPlan) : List Parts :=
  plan.chunks.zipIdx.map (P.blankData k plan)

/-- The coding shreds of a batch. -/
def blankCodeParts (k : ℕ) (plan : BatchPlan) : List Parts :=
  (range codingShredsPerFecBlock).map (P.blankCode k plan)

/-- The shreds of a batch before they are filled in. -/
def blankBatch (k : ℕ) (plan : BatchPlan) : List Parts :=
  P.blankDataParts k plan ++ P.blankCodeParts k plan

/-- The batches from a number on. -/
def blankBatches (k : ℕ) (plans : List BatchPlan) : List (List Parts) :=
  (plans.zipIdx k).map fun item => P.blankBatch item.2 item.1

lemma ok_blankData {k : ℕ} {plan : BatchPlan} {item : List UInt8 × ℕ}
    (h : item.1.length ≤ dataCapacity plan.resigned) :
    (P.blankData k plan item).Ok proofEntriesFor3232Batch plan.resigned where
  variant := rfl
  fits := {
    signature := length_replicate
    headers := by
      rw [blankData, length_replicate]
      rfl
    buffer := by
      rw [blankData, length_append, length_replicate, Nat.add_sub_cancel' h]
      exact capacity_data _
    chained := length_replicate
    proof := length_replicate
    tail := length_replicate }

lemma ok_blankCode (k : ℕ) (plan : BatchPlan) (j : ℕ) :
    (P.blankCode k plan j).Ok proofEntriesFor3232Batch plan.resigned where
  variant := rfl
  fits := {
    signature := length_replicate
    headers := by
      rw [blankCode, length_replicate]
      rfl
    buffer := by
      rw [blankCode, length_replicate]
      exact capacity_code _
    chained := length_replicate
    proof := length_replicate
    tail := length_replicate }

lemma length_blankBatch {k : ℕ} {plan : BatchPlan} (h : plan.Fits) :
    (P.blankBatch k plan).length = dataShredsPerFecBlock + codingShredsPerFecBlock := by
  rw [blankBatch, blankDataParts, blankCodeParts, length_append, length_map,
    length_zipIdx, length_map, length_range, h.length]

/-- A blank batch can be filled in. -/
theorem isBatch {k : ℕ} {plan : BatchPlan} (h : plan.Fits) :
    IsBatch (P.blankDataParts k plan) (P.blankCodeParts k plan) plan.resigned where
  length_data := by rw [blankDataParts, length_map, length_zipIdx, h.length]
  length_code := by rw [blankCodeParts, length_map, length_range]
  ok p hp := by
    rcases mem_append.mp hp with hp | hp
    · obtain ⟨item, hitem, rfl⟩ := mem_map.mp hp
      exact P.ok_blankData (h.size _ (mem_of_getElem? (mk_mem_zipIdx_iff_getElem?.mp hitem)))
    · obtain ⟨j, -, rfl⟩ := mem_map.mp hp
      exact P.ok_blankCode k plan j
  data p hp := by
    obtain ⟨item, -, rfl⟩ := mem_map.mp hp
    rfl
  code p hp := by
    obtain ⟨j, -, rfl⟩ := mem_map.mp hp
    exact ⟨j, rfl⟩

/-! ## The loop -/

/-- The payload of a blank data shred. -/
theorem copyAt?_chunk {chunk : List UInt8} {resigned : Bool}
    (h : chunk.length ≤ dataCapacity resigned) :
    copyAt? (replicate data.sizeOfPayload 0) data.sizeOfHeaders chunk =
      some (Blocks.bytes ⟨replicate 64 0, replicate 24 0,
        chunk ++ replicate (dataCapacity resigned - chunk.length) 0, replicate 32 0,
        replicate 120 0, replicate (if resigned then 64 else 0) 0⟩) := by
  have hpayload : data.sizeOfPayload = 1203 := rfl
  have hheaders : data.sizeOfHeaders = 88 := rfl
  have hcapacity : dataCapacity resigned + (if resigned then 64 else 0) = 963 := by
    cases resigned <;> rfl
  have hlength : (replicate 1203 (0 : UInt8)).length = 1203 := length_replicate
  rw [hpayload, hheaders, copyAt?, if_pos (by omega), take_replicate, drop_replicate]
  simp only [Blocks.bytes, append_assoc, replicate_append_replicate]
  rw [show 1203 - (88 + chunk.length) = dataCapacity resigned - chunk.length + 32 + 120 +
    (if resigned then 64 else 0) by omega]
  rfl

lemma makeShredsData_eq {k : ℕ} {plan : BatchPlan} (hextra : plan.extra = 0)
    (h : ∀ chunk ∈ plan.chunks, chunk.length ≤ dataCapacity plan.resigned) :
    makeShredsData (P.commonData k plan.resigned (P.fecSetIndex k)) P.dataHeader plan.chunks =
      .ok ((P.blankDataParts k plan).map shred) := by
  rw [makeShredsData, blankDataParts, map_map]
  refine mapM_eq_map fun item hitem => ?_
  have hmem := mem_of_getElem? (mk_mem_zipIdx_iff_getElem?.mp hitem)
  refine bind_eq_ok.mpr ⟨_, by rw [copyAt?_chunk (h item.1 hmem)]; rfl, ?_⟩
  rw [Function.comp_apply, blankData, hextra, UInt8.or_zero, ite_self]
  rfl

lemma makeShredsCodeHeaderOnly_eq (k : ℕ) (plan : BatchPlan) :
    makeShredsCodeHeaderOnly (P.commonCode k plan.resigned (P.fecSetIndex k)) =
      (P.blankCodeParts k plan).map shred := by
  have hbytes : replicate code.sizeOfPayload (0 : UInt8) =
      Blocks.bytes ⟨replicate 64 0, replicate 25 0,
        replicate (codeCapacity plan.resigned) 0, replicate 32 0, replicate 120 0,
        replicate (if plan.resigned then 64 else 0) 0⟩ := by
    simp only [Blocks.bytes, replicate_append_replicate]
    congr 1
    cases plan.resigned <;> rfl
  rw [makeShredsCodeHeaderOnly, blankCodeParts, map_map]
  refine map_congr_left fun j _ => ?_
  rw [Function.comp_apply, shred, hbytes]
  rfl

/-- The headers are those of a batch, but for the index of the batch. -/
structure At (k : ℕ) (resigned : Bool) (st : Shredding) : Prop where
  data : ∃ f, st.commonHeaderData = P.commonData k resigned f
  code : ∃ f, st.commonHeaderCode = P.commonCode k resigned f

lemma pushBatch_eq {k : ℕ} {plan : BatchPlan} {st : Shredding} (h : P.At k plan.resigned st)
    (hplan : plan.Fits) (hextra : plan.extra = 0) :
    ∃ st', st.pushBatch P.dataHeader plan.chunks = .ok st' ∧ P.At (k + 1) plan.resigned st' ∧
      st'.shreds = st.shreds ++ (P.blankBatch k plan).map shred := by
  obtain ⟨commonHeaderData, commonHeaderCode, shreds⟩ := st
  obtain ⟨f, rfl : commonHeaderData = _⟩ := h.data
  obtain ⟨f', rfl : commonHeaderCode = _⟩ := h.code
  have hbatch := P.isBatch (k := k) hplan
  have hcode := P.makeShredsCodeHeaderOnly_eq k plan
  have hnumCode := congrArg length hcode
  rw [length_map, hbatch.length_code] at hnumCode
  have hnumData : ((P.blankDataParts k plan).map shred).length = dataShredsPerFecBlock := by
    rw [length_map, hbatch.length_data]
  -- the indices move by the numbers of shreds
  refine ⟨_, bind_eq_ok.mpr ⟨_, P.makeShredsData_eq (k := k) hextra hplan.size, rfl⟩,
    ⟨⟨P.fecSetIndex k, congrArg (fun n => { P.commonData k plan.resigned (P.fecSetIndex k) with
      index := P.fecSetIndex k + n }) hnumData⟩, ⟨P.fecSetIndex k, congrArg (fun n =>
        { P.commonCode k plan.resigned (P.fecSetIndex k) with
          index := P.nextCodeIndex + codingShredsPerFecBlock * k + n }) hnumCode⟩⟩, ?_⟩
  rw [blankBatch, map_append, ← hcode]
  rfl

lemma blankBatches_append (k : ℕ) (plans plans' : List BatchPlan) :
    P.blankBatches k (plans ++ plans') =
      P.blankBatches k plans ++ P.blankBatches (k + plans.length) plans' := by
  rw [blankBatches, zipIdx_append, map_append]
  rfl

lemma blankBatches_cons (k : ℕ) (plan : BatchPlan) (plans : List BatchPlan) :
    P.blankBatches k (plan :: plans) = P.blankBatch k plan :: P.blankBatches (k + 1) plans := rfl

/-- The data of some batches. -/
def dataOf (plans : List BatchPlan) : List UInt8 :=
  (plans.map fun plan => plan.chunks.flatten).flatten

lemma dataOf_append (plans plans' : List BatchPlan) :
    dataOf (plans ++ plans') = dataOf plans ++ dataOf plans' := by
  rw [dataOf, map_append, flatten_append]
  rfl

/-- A plan without room for another signature and without flags. -/
structure Plain (plan : BatchPlan) : Prop where
  fits : plan.Fits
  resigned : plan.resigned = false
  extra : plan.extra = 0

/-- The full batches hold the data up to a rest that does not fill one. -/
theorem pushFullBatches_eq {k : ℕ} {st : Shredding} (h : P.At k false st) (data : List UInt8) :
    ∃ st' rest plans,
      st.pushFullBatches P.dataHeader (dataCapacity false) data = .ok (st', rest) ∧
      P.At (k + plans.length) false st' ∧
      st'.shreds = st.shreds ++ (P.blankBatches k plans).flatten.map shred ∧
      data = dataOf plans ++ rest ∧ rest.length < dataShredsPerFecBlock * dataCapacity false ∧
      data.length = plans.length * (dataShredsPerFecBlock * dataCapacity false) + rest.length ∧
      ∀ plan ∈ plans, Plain plan := by
  induction hn : data.length using Nat.strong_induction_on generalizing data k st with
  | _ n ih =>
    subst hn
    have htotal : dataShredsPerFecBlock * dataCapacity false = 30816 := rfl
    rw [Shredding.pushFullBatches]
    by_cases hle : dataShredsPerFecBlock * dataCapacity false ≤ data.length
    · have htake : (data.take (dataShredsPerFecBlock * dataCapacity false)).length =
          dataShredsPerFecBlock * dataCapacity false := by
        rw [length_take, min_eq_left hle]
      obtain ⟨hlength, hsize⟩ := chunks_of_length_eq (by decide) htake
      set plan : BatchPlan := ⟨false, chunks (dataCapacity false)
        (data.take (dataShredsPerFecBlock * dataCapacity false)), 0⟩ with hplan
      have hfits : plan.Fits := ⟨hlength, fun chunk hchunk => (hsize chunk hchunk).le⟩
      obtain ⟨st₁, hpush, hat, hshreds⟩ := @pushBatch_eq P k plan st h hfits rfl
      obtain ⟨st', rest, plans, hrest, hat', hshreds', hdata, hlt, hlen, hplain⟩ :=
        ih (data.drop (dataShredsPerFecBlock * dataCapacity false)).length
          (by rw [length_drop]; omega) hat _ rfl
      rw [dif_pos ⟨by omega, hle⟩]
      refine ⟨st', rest, plan :: plans, bind_eq_ok.mpr ⟨st₁, hpush, hrest⟩, ?_, ?_, ?_, hlt, ?_, ?_⟩
      · rw [length_cons, add_comm plans.length, ← add_assoc]
        exact hat'
      · rw [hshreds', hshreds, blankBatches_cons, flatten_cons, map_append, append_assoc]
      · rw [dataOf, map_cons, flatten_cons, append_assoc,
          flatten_chunks (by decide)]
        rw [dataOf] at hdata
        rw [← hdata, take_append_drop]
      · rw [length_drop] at hlen
        rw [length_cons, succ_mul]
        omega
      · intro plan' hmem
        rcases mem_cons.mp hmem with rfl | hmem
        · exact ⟨hfits, rfl, rfl⟩
        · exact hplain plan' hmem
    · rw [dif_neg fun hboth => hle hboth.2]
      exact ⟨st, data, [], rfl, h, by simp [blankBatches], rfl, by omega, by simp, nofun⟩

/-- Data for less than a batch as chunks, with empty ones at the end. -/
theorem leftover_fits {resigned : Bool} {data : List UInt8}
    (h : data.length ≤ dataShredsPerFecBlock * dataCapacity resigned) :
    let left := (chunks (dataCapacity resigned) data
      ++ replicate dataShredsPerFecBlock []).take dataShredsPerFecBlock
    left.length = dataShredsPerFecBlock ∧ (∀ chunk ∈ left, chunk.length ≤ dataCapacity resigned) ∧
      left.flatten = data := by
  have hpos : 0 < dataCapacity resigned := by cases resigned <;> decide
  have hle : (chunks (dataCapacity resigned) data).length ≤ dataShredsPerFecBlock :=
    length_chunks_le h
  intro left
  refine ⟨?_, fun chunk hchunk => ?_, ?_⟩
  · rw [length_take, length_append, length_replicate]
    omega
  · rcases mem_append.mp (mem_of_mem_take hchunk) with hmem | hmem
    · exact length_le_of_mem_chunks hmem
    · rw [eq_of_mem_replicate hmem]
      exact zero_le _
  rw [show left.flatten = _ from congrArg flatten (take_append ..), take_of_length_le hle,
    take_replicate, flatten_append, flatten_chunks hpos, flatten_replicate_nil, append_nil]

/-- The last batch of its kind. -/
theorem shredLeftoverData_eq {k : ℕ} {old resigned : Bool} {st : Shredding} (h : P.At k old st)
    {data : List UInt8} (hdata : data.length ≤ dataShredsPerFecBlock * dataCapacity resigned) :
    ∃ st' plan, st.shredLeftoverData proofEntriesFor3232Batch resigned data (dataCapacity resigned)
        P.dataHeader = .ok st' ∧ P.At (k + 1) resigned st' ∧
      st'.shreds = st.shreds ++ (P.blankBatch k plan).map shred ∧
      plan.chunks.flatten = data ∧ plan.Fits ∧ plan.resigned = resigned ∧ plan.extra = 0 := by
  obtain ⟨hlength, hsize, hflatten⟩ := leftover_fits hdata
  obtain ⟨f, hf⟩ := h.data
  obtain ⟨f', hf'⟩ := h.code
  obtain ⟨st', hpush, hat, hshreds⟩ := @pushBatch_eq P k ⟨resigned, _, 0⟩
    { st with
      commonHeaderData.shredVariant := .merkleData proofEntriesFor3232Batch resigned
      commonHeaderCode.shredVariant := .merkleCode proofEntriesFor3232Batch resigned }
    ⟨⟨f, by rw [hf]; rfl⟩, ⟨f', by rw [hf']; rfl⟩⟩ ⟨hlength, hsize⟩ rfl
  exact ⟨st', ⟨resigned, _, 0⟩, hpush, hat, hshreds, hflatten, ⟨hlength, hsize⟩, rfl, rfl⟩

/-- The number of batches of some data. -/
def numberOfFecSets (isLastInSlot : Bool) (data : List UInt8) : ℕ :=
  let unsignedData :=
    (splitData isLastInSlot (dataShredsPerFecBlock * dataCapacity isLastInSlot) data).1
  let unsignedSets := (unsignedData.length + (dataShredsPerFecBlock * dataCapacity false - 1))
    / (dataShredsPerFecBlock * dataCapacity false)
  if isLastInSlot then unsignedSets + 1 else unsignedSets

/-- Without data there is a batch as well. -/
def numberOfBatches (isLastInSlot : Bool) (data : List UInt8) : ℕ :=
  max 1 (numberOfFecSets isLastInSlot data)

/-- The data is split in two, and the second part fits in one batch. It has data if the first one
has. -/
theorem splitData_eq (data : List UInt8) {total : ℕ} (htotal : 0 < total) :
    (splitData true total data).1 ++ (splitData true total data).2 = data ∧
      (splitData true total data).2.length ≤ total ∧
      ((splitData true total data).2 = [] → (splitData true total data).1 = []) := by
  rw [splitData, if_pos rfl]
  split
  · next hlt =>
    rw [splitAt_eq]
    refine ⟨take_append_drop _ _, by rw [length_drop]; omega, fun hnil => ?_⟩
    have := congrArg length hnil
    rw [length_drop, length_nil] at this
    omega
  · next hle => exact ⟨rfl, le_of_not_gt hle, fun _ => rfl⟩

/-- The batches of the data without room for another signature. Without data there is none if there
is to be one with room. -/
theorem unsignedBatches_eq {st : Shredding} (h : P.At 0 false st) (hst : st.shreds = [])
    (data : List UInt8) (isLastInSlot : Bool) :
    ∃ st₁ rest st₂ plans,
      st.pushFullBatches P.dataHeader (dataCapacity false) data = .ok (st₁, rest) ∧
      st₁.pushUnsigned isLastInSlot rest (dataCapacity false) P.dataHeader = .ok st₂ ∧
      P.At plans.length false st₂ ∧ st₂.shreds = (P.blankBatches 0 plans).flatten.map shred ∧
      dataOf plans = data ∧ (∀ plan ∈ plans, Plain plan) ∧
      plans.length = max (if isLastInSlot then 0 else 1)
        ((data.length + (dataShredsPerFecBlock * dataCapacity false - 1))
          / (dataShredsPerFecBlock * dataCapacity false)) := by
  have htotal : dataShredsPerFecBlock * dataCapacity false = 30816 := rfl
  obtain ⟨st₁, rest, plans, hfull, hat, hshreds, hdata, hlt, hlength, hplain⟩ :=
    P.pushFullBatches_eq h data
  rw [zero_add] at hat
  rw [hst, nil_append] at hshreds
  rw [htotal] at hlt hlength ⊢
  refine ⟨st₁, rest, ?_⟩
  -- there are no shreds exactly if there are no batches
  have hnil : st₁.shreds = [] ↔ plans = [] := by
    rw [hshreds, map_eq_nil_iff]
    rcases plans with _ | ⟨plan, plans⟩
    · exact iff_of_true rfl rfl
    refine iff_of_false (fun hnil => ?_) (by simp)
    have hpos := P.length_blankBatch (k := 0) (hplain plan (.head _)).fits
    rw [blankBatches_cons, flatten_cons, append_eq_nil_iff] at hnil
    rw [hnil.1] at hpos
    cases hpos
  by_cases hcond : rest ≠ [] ∨ st₁.shreds = [] ∧ !isLastInSlot
  · obtain ⟨st₂, plan, hleft, hat', hshreds', hchunks, hfits, hresigned, hextra⟩ :=
      @shredLeftoverData_eq P plans.length false false st₁ hat rest (by rw [htotal]; omega)
    refine ⟨st₂, plans ++ [plan], hfull, ?_, ?_, ?_, ?_, ?_, ?_⟩
    · rw [Shredding.pushUnsigned, if_pos hcond, hleft]
    · rw [length_append]
      exact hat'
    · rw [hshreds', hshreds, blankBatches_append, flatten_append, map_append, zero_add]
      simp [blankBatches]
    · rw [dataOf_append, hdata]
      simp [dataOf, hchunks]
    · intro plan' hmem
      rcases mem_append.mp hmem with hmem | hmem
      · exact hplain plan' hmem
      · rw [mem_singleton.mp hmem]
        exact ⟨hfits, hresigned, hextra⟩
    · rw [length_append, length_singleton]
      rcases hcond with hrest | ⟨hshreds, hlast⟩
      · have := length_pos_iff.mpr hrest
        split <;> omega
      · rw [hnil] at hshreds
        rw [hshreds, length_nil] at hlength ⊢
        rw [if_neg (by simpa using hlast)]
        omega
  · obtain ⟨hrest, hlast⟩ := not_or.mp hcond
    obtain rfl : rest = [] := not_not.mp hrest
    rw [append_nil] at hdata
    refine ⟨st₁, plans, hfull, if_neg hcond, hat, hshreds, hdata.symm, hplain, ?_⟩
    rw [length_nil] at hlength
    rw [hnil] at hlast
    split
    · omega
    · next hfalse =>
      have := length_pos_iff.mpr fun hplans => hlast ⟨hplans, by simpa using hfalse⟩
      omega

/-- The blank shreds of some data are those of its batches. -/
theorem makeBlankShreds_eq (data : List UInt8) (isLastInSlot : Bool) :
    ∃ init last, makeBlankShreds data P.slot P.version P.dataHeader isLastInSlot P.nextShredIndex
        P.nextCodeIndex = .ok ((P.blankBatches 0 (init ++ [last])).flatten.map shred) ∧
      dataOf (init ++ [last]) = data ∧ (∀ plan ∈ init, Plain plan) ∧ last.Fits ∧
      last.resigned = isLastInSlot ∧ last.extra = 0 ∧
      (init ++ [last]).length = numberOfBatches isLastInSlot data := by
  have hat : P.At 0 false ⟨P.commonData 0 false P.nextShredIndex,
    P.commonCode 0 false P.nextShredIndex, []⟩ := ⟨⟨_, rfl⟩, ⟨_, rfl⟩⟩
  cases isLastInSlot with
  | false =>
    obtain ⟨st₁, rest, st₂, plans, hfull, hleft, -, hshreds, hplans, hplain, hlength⟩ :=
      P.unsignedBatches_eq hat rfl data false
    obtain ⟨init, last, rfl⟩ : ∃ init last, plans = init ++ [last] := by
      rcases eq_nil_or_concat plans with rfl | ⟨init, last, rfl⟩
      · exact absurd ((le_max_left 1 _).trans_eq hlength.symm) (by decide)
      · exact ⟨init, last, concat_eq_append⟩
    have hlast := hplain last (mem_append_right _ (.head _))
    refine ⟨init, last, ?_, hplans, fun plan hmem => hplain plan (mem_append_left _ hmem),
      hlast.fits, hlast.resigned, hlast.extra, ?_⟩
    · refine bind_eq_ok.mpr ⟨_, capacity_data false, bind_eq_ok.mpr ⟨0, rfl, bind_eq_ok.mpr
        ⟨(st₁, rest), hfull, bind_eq_ok.mpr ⟨st₂, hleft, bind_eq_ok.mpr ⟨st₂, ?_, ?_⟩⟩⟩⟩⟩
      · exact if_neg (by rintro (habsurd | ⟨-, habsurd⟩) <;> simp [splitData] at habsurd)
      · rw [hshreds]
        rfl
    · rw [hlength, numberOfBatches, numberOfFecSets, splitData]
      simp
  | true =>
    obtain ⟨hsplit, hsigned, hne⟩ := splitData_eq data
      (show 0 < dataShredsPerFecBlock * dataCapacity true by decide)
    obtain ⟨st₁, rest, st₂, plans, hfull, hleft, hat₂, hshreds, hplans, hplain, hlength⟩ :=
      P.unsignedBatches_eq hat rfl
        (splitData true (dataShredsPerFecBlock * dataCapacity true) data).1 true
    obtain ⟨st₃, last, hlast, -, hshreds', hchunks, hfits, hresigned, hextra⟩ :=
      P.shredLeftoverData_eq hat₂ hsigned
    refine ⟨plans, last, ?_, ?_, hplain, hfits, hresigned, hextra, ?_⟩
    · refine bind_eq_ok.mpr ⟨_, capacity_data false, bind_eq_ok.mpr ⟨_, capacity_data true,
        bind_eq_ok.mpr ⟨(st₁, rest), hfull, bind_eq_ok.mpr ⟨st₂, hleft, bind_eq_ok.mpr
          ⟨st₃, ?_, ?_⟩⟩⟩⟩⟩
      · rw [Shredding.pushSigned]
        refine (if_pos (or_iff_not_imp_left.mpr fun hnil => ⟨?_, rfl⟩)).trans hlast
        -- no data at all, and so no batch before
        rw [hne (not_not.mp hnil)] at hlength
        rw [hshreds, length_eq_zero_iff.mp hlength]
        rfl
      · rw [hshreds', hshreds, blankBatches_append, flatten_append, map_append, zero_add]
        simp [blankBatches]
        rfl
    · rw [dataOf_append, hplans]
      simpa [dataOf, hchunks] using hsplit
    · rw [length_append, hlength, numberOfBatches, numberOfFecSets]
      simp

end ShredParams
end Trezoa.Ledger
