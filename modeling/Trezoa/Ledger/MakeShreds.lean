import Trezoa.Ledger.Shred

/-!
# Making shreds from data

Models `make_shreds_from_data` of `ledger/src/shred/merkle.rs`, and `Shredder::deshred` of
`ledger/src/shredder.rs`.

The hash function, the signature of the leader and the erasure code are parameters; of the code it
is assumed that there are as many codes as asked for, of the size of the data. Indices are those of
the code as long as they fit. The sizes are checked as the crate `reed-solomon-erasure` 6.0
documents: `checkReedSolomon` for `ReedSolomon::new` over a field of 256 elements, `checkShards` for
`encode`.
-/

namespace Trezoa.Ledger

open Lib

/-! ## Erasure codes -/

/-- The erasure code: the codes of some shards. -/
structure ReedSolomon where
  parity : ℕ → ℕ → List (List UInt8) → List (List UInt8)
  length_parity : ∀ numData numParity shards, (parity numData numParity shards).length = numParity
  size_parity : ∀ numData numParity shards size, shards ≠ [] →
    (∀ shard ∈ shards, shard.length = size) →
    ∀ code ∈ parity numData numParity shards, code.length = size

/-- Whether there is a code of these sizes. -/
def checkReedSolomon (numData numParity : ℕ) : Except Error Unit :=
  if numData = 0 then .error (.erasure .tooFewDataShards)
  else if numParity = 0 then .error (.erasure .tooFewParityShards)
  else if numData + numParity > 256 then .error (.erasure .tooManyShards)
  else .ok ()

/-- Whether there are as many shards as needed, all of one size. -/
def checkShards (count : ℕ) (shards : List (List UInt8)) : Except Error Unit :=
  if shards.length < count then .error (.erasure .tooFewShards)
  else if shards.length > count then .error (.erasure .tooManyShards)
  else if (shards.head?.map List.length).getD 0 = 0 then .error (.erasure .emptyShard)
  else if shards.any fun shard => shard.length ≠ (shards.head?.map List.length).getD 0 then
    .error (.erasure .incorrectShardSize)
  else .ok ()

/-- Overwrites the shards past the data with the codes. -/
def ReedSolomon.encode (rs : ReedSolomon) (numData numParity : ℕ) (shards : List (List UInt8)) :
    Except Error (List (List UInt8)) := do
  checkShards (numData + numParity) shards
  return shards.take numData ++ rs.parity numData numParity (shards.take numData)

/-! ## Blank shreds -/

/-- The data shreds of a batch, without what is written to the payload later. -/
def makeShredsData (commonHeader : ShredCommonHeader) (dataHeader : DataShredHeader)
    (chunks : List (List UInt8)) : Except Error (List Shred) :=
  chunks.zipIdx.mapM fun (chunk, k) => do
    let payload ← okOr .indexOutOfBounds (copyAt?
      (List.replicate ShredType.data.sizeOfPayload 0) ShredType.data.sizeOfHeaders chunk)
    return ⟨{ commonHeader with index := commonHeader.index + k },
      .data { dataHeader with size := (ShredType.data.sizeOfHeaders + chunk.length) % 2 ^ 16 },
      payload⟩

/-- The coding shreds of a batch, with only their headers. -/
def makeShredsCodeHeaderOnly (commonHeader : ShredCommonHeader) : List Shred :=
  (List.range codingShredsPerFecBlock).map fun k =>
    ⟨{ commonHeader with index := commonHeader.index + k },
      .code ⟨dataShredsPerFecBlock, codingShredsPerFecBlock, k⟩,
      List.replicate ShredType.code.sizeOfPayload 0⟩

/-- The headers of the next shreds, and the shreds so far. -/
structure Shredding where
  commonHeaderData : ShredCommonHeader
  commonHeaderCode : ShredCommonHeader
  shreds : List Shred

/-- Adds a batch. -/
def Shredding.pushBatch (dataHeader : DataShredHeader) (chunks : List (List UInt8))
    (st : Shredding) : Except Error Shredding := do
  let commonHeaderData := { st.commonHeaderData with fecSetIndex := st.commonHeaderData.index }
  let commonHeaderCode := { st.commonHeaderCode with fecSetIndex := commonHeaderData.fecSetIndex }
  let data ← makeShredsData commonHeaderData dataHeader chunks
  let code := makeShredsCodeHeaderOnly commonHeaderCode
  return ⟨{ commonHeaderData with index := commonHeaderData.index + data.length },
    { commonHeaderCode with index := commonHeaderCode.index + code.length },
    st.shreds ++ (data ++ code)⟩

/-- Adds full batches as long as there is data for one. -/
def Shredding.pushFullBatches (dataHeader : DataShredHeader) (dataBufferPerShredSize : ℕ)
    (st : Shredding) (data : List UInt8) : Except Error (Shredding × List UInt8) :=
  let dataBufferTotalSize := dataShredsPerFecBlock * dataBufferPerShredSize
  -- the size is a constant
  if _h : 0 < dataBufferTotalSize ∧ dataBufferTotalSize ≤ data.length then
    (st.pushBatch dataHeader
      (chunks dataBufferPerShredSize (data.take dataBufferTotalSize))).bind fun st =>
        st.pushFullBatches dataHeader dataBufferPerShredSize (data.drop dataBufferTotalSize)
  else .ok (st, data)
termination_by data.length
decreasing_by
  rw [List.length_drop]
  omega

/-- Adds a batch that may have empty shreds at its end. -/
def Shredding.shredLeftoverData (proofSize : UInt8) (resigned : Bool) (data : List UInt8)
    (dataBufferPerShredSize : ℕ) (dataHeader : DataShredHeader) (st : Shredding) :
    Except Error Shredding :=
  let chunks := (chunks dataBufferPerShredSize data
    ++ List.replicate dataShredsPerFecBlock []).take dataShredsPerFecBlock
  Shredding.pushBatch dataHeader chunks
    { st with
      commonHeaderData.shredVariant := .merkleData proofSize resigned
      commonHeaderCode.shredVariant := .merkleCode proofSize resigned }

/-- Adds flags to a data shred. -/
def Shred.orFlags (flags : UInt8) (s : Shred) : Shred :=
  match s.header with
  | .data header => { s with header := .data { header with flags := header.flags ||| flags } }
  | .code _ => s

/-- Changes the first data shred. -/
def modifyFirstData (f : Shred → Shred) : List Shred → List Shred
  | [] => []
  | s :: rest => if s.shredType = .data then f s :: rest else s :: modifyFirstData f rest

/-- Marks the very last data shred. -/
def adjustFlags (isLastInSlot : Bool) (shreds : List Shred) : List Shred :=
  (modifyFirstData (Shred.orFlags (if isLastInSlot then lastShredInSlot else dataCompleteShred))
    shreds.reverse).reverse

/-- The number of entries of a proof in a batch of 64 shreds. -/
def proofEntriesFor3232Batch : UInt8 := 6

/-! ## Batches -/

section
variable (hashv : List (List UInt8) → Hash) (rs : ReedSolomon) (signMessage : Hash → Signature)

/-- Writes the headers to the payload. -/
def Shred.writeHeaders (s : Shred) : Except Error Shred := do
  let payload ← okOr .wincodeWrite (copyAt? s.payload 0 (serializeHeaders s.commonHeader s.header))
  return { s with payload := payload }

/-- The coding header of the last shred. -/
def lastCodingHeader (shreds : List Shred) : Except Error CodingShredHeader :=
  match shreds.getLast?.map Shred.header with
  | some (.code header) => .ok header
  | _ => .error (.erasure .tooFewParityShards)

/-- Writes the erasure codes to the coding shreds. -/
def encodeBatch (numDataShreds numCodingShreds : ℕ) (shreds : List Shred) :
    Except Error (List Shred) := do
  checkReedSolomon numDataShreds numCodingShreds
  let shards ← rs.encode numDataShreds numCodingShreds (← shreds.mapM Shred.erasureShard)
  (shreds.zip shards).mapM fun item => item.1.setErasureShard item.2

/-- Writes the proof and the signature of a shred. -/
def attachProof (tree : MerkleTree) (signature : Signature) (batchSize : ℕ) (item : Shred × ℕ) :
    Except Error Shred := do
  let s ← item.1.setMerkleProof (tree.makeMerkleProof item.2 batchSize)
  s.setSignature signature

/-- Fills in the shreds of a batch. Also the root of its Merkle tree. -/
def finishErasureBatch (chainedMerkleRoot : Hash) (shreds : List Shred) :
    Except Error (List Shred × Hash) := do
  let shreds ← shreds.mapM Shred.writeHeaders
  let codingHeader ← lastCodingHeader shreds
  let shreds ← encodeBatch rs codingHeader.numDataShreds codingHeader.numCodingShreds shreds
  let shreds ← shreds.mapM fun s => s.setChainedMerkleRoot chainedMerkleRoot
  let tree ← MerkleTree.tryNew hashv (shreds.map (Shred.merkleNode hashv))
  let root ← okOr .indexOutOfBounds tree.root
  let shreds ← shreds.zipIdx.mapM (attachProof tree (signMessage root)
    (codingHeader.numDataShreds + codingHeader.numCodingShreds))
  return (shreds, root)

/-- Fills in batches, each with the root of the one before. -/
def finishErasureBatches : Hash → List (List Shred) → Except Error (List Shred)
  | _, [] => .ok []
  | chainedMerkleRoot, batch :: rest => do
    let (shreds, root) ← finishErasureBatch hashv rs signMessage chainedMerkleRoot batch
    return shreds ++ (← finishErasureBatches root rest)

/-- The data without and with room for a signature of a retransmitter. -/
def splitData (isLastInSlot : Bool) (dataBufferTotalSizeSigned : ℕ) (data : List UInt8) :
    List UInt8 × List UInt8 :=
  if isLastInSlot then
    if data.length > dataBufferTotalSizeSigned then
      data.splitAt (data.length - dataBufferTotalSizeSigned)
    else ([], data)
  else (data, [])

/-- The data that is left without room for a signature; a batch without data if there is no
other. -/
def Shredding.pushUnsigned (isLastInSlot : Bool) (unsignedData : List UInt8) (perShredSize : ℕ)
    (dataHeader : DataShredHeader) (st : Shredding) : Except Error Shredding :=
  if unsignedData ≠ [] ∨ st.shreds = [] ∧ !isLastInSlot then
    st.shredLeftoverData proofEntriesFor3232Batch false unsignedData perShredSize dataHeader
  else .ok st

/-- The data with room for a signature; a batch without data if there is no other. -/
def Shredding.pushSigned (isLastInSlot : Bool) (signedData : List UInt8) (perShredSizeSigned : ℕ)
    (dataHeader : DataShredHeader) (st : Shredding) : Except Error Shredding :=
  if signedData ≠ [] ∨ st.shreds = [] ∧ isLastInSlot then
    st.shredLeftoverData proofEntriesFor3232Batch true signedData perShredSizeSigned dataHeader
  else .ok st

/-- The size of the buffer in the last batch of a slot. -/
def signedCapacity (isLastInSlot : Bool) : Except Error ℕ :=
  if isLastInSlot then capacity .data proofEntriesFor3232Batch.toNat true else .ok 0

/-- The shreds of all batches, with only their headers and data. -/
def makeBlankShreds (data : List UInt8) (slot shredVersion : ℕ) (dataHeader : DataShredHeader)
    (isLastInSlot : Bool) (nextShredIndex nextCodeIndex : ℕ) : Except Error (List Shred) := do
  let perShredSize ← capacity .data proofEntriesFor3232Batch.toNat false
  let perShredSizeSigned ← signedCapacity isLastInSlot
  let commonHeaderData : ShredCommonHeader := ⟨.default,
    .merkleData proofEntriesFor3232Batch false, slot, nextShredIndex, shredVersion, nextShredIndex⟩
  let commonHeaderCode := { commonHeaderData with
    shredVariant := .merkleCode proofEntriesFor3232Batch false
    index := nextCodeIndex }
  let split := splitData isLastInSlot (dataShredsPerFecBlock * perShredSizeSigned) data
  let (st, unsignedData) ← Shredding.pushFullBatches dataHeader perShredSize
    ⟨commonHeaderData, commonHeaderCode, []⟩ split.1
  let st ← st.pushUnsigned isLastInSlot unsignedData perShredSize dataHeader
  let st ← st.pushSigned isLastInSlot split.2 perShredSizeSigned dataHeader
  return st.shreds

/-- How far the parent is. -/
def parentOffset (slot parentSlot : ℕ) : Except Error ℕ :=
  if parentSlot ≤ slot ∧ slot - parentSlot < 2 ^ 16 then .ok (slot - parentSlot)
  else .error (.invalidParentSlot slot parentSlot)

/-- The shreds of some data. -/
def makeShredsFromData (chainedMerkleRoot : Hash) (data : List UInt8)
    (slot parentSlot shredVersion : ℕ) (referenceTick : UInt8) (isLastInSlot : Bool)
    (nextShredIndex nextCodeIndex : ℕ) : Except Error (List Shred) := do
  let parentOffset ← parentOffset slot parentSlot
  let shreds ← makeBlankShreds data slot shredVersion
    ⟨parentOffset, fromReferenceTick referenceTick, 0⟩ isLastInSlot nextShredIndex nextCodeIndex
  -- the batches are serial, each one needs the root of the one before
  finishErasureBatches hashv rs signMessage chainedMerkleRoot
    ((adjustFlags isLastInSlot shreds).splitBy fun a b => a.fecSetIndex == b.fecSetIndex)

end

/-! ## Data from shreds -/

/-- The data, the index of the shred before, and whether the data is complete. -/
structure Deshredding where
  data : List UInt8 := []
  prev : Option ℕ := none
  dataComplete : Bool := false

/-- Takes one more shred. -/
def Deshredding.step (st : Deshredding) (shred : List UInt8) : Except Error Deshredding :=
  if st.dataComplete then .error .invalidDeshredSet
  else do
    let index ← okOr (.invalidPayloadSize shred.length) (layout.getIndex shred)
    if (st.prev.map fun prev => decide (prev + 1 ≠ index)).getD false then
      .error (.erasure .tooFewDataShards)
    else do
      let data ← layout.getData shred
      let flags ← layout.getFlags shred
      return ⟨st.data ++ data, some index, containsFlags flags dataCompleteShred⟩

/-- The data of the payloads of data shreds. -/
def deshred (shreds : List (List UInt8)) : Except Error (List UInt8) := do
  let st ← shreds.foldlM Deshredding.step {}
  if !st.dataComplete then .error (.erasure .tooFewDataShards)
  else if st.data = [] then
    let dataBufferSize ← capacity .data 0 false
    return List.replicate dataBufferSize 0
  else return st.data

end Trezoa.Ledger
