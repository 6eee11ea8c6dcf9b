import Trezoa.Ledger.MakeShreds

/-!
# The parts of a payload

A payload of the right size is a signature, the rest of the headers, the buffer, the Merkle root of
the previous batch, the proof and room for another signature. What is written to a payload changes
one part, and what is read from it is a part.

* `Shred.HasBlocks.setChainedMerkleRoot`, …: what is written and read.
* `getIndex_bytes`, `getData_bytes`, `getMerkleRoot_bytes`, …: what is read from a payload with the
  headers of a shred.
-/

namespace Trezoa.Ledger

open Lib ShredCommonHeader List MerkleProofEntry ShredHeader

/-- The buffer has the size that the other parts leave. -/
theorem capacity_eq_ok {shredType : ShredType} {proofSize size : ℕ} {resigned : Bool} :
    capacity shredType proofSize resigned = .ok size ↔
      shredType.sizeOfHeaders + sizeOfMerkleRoot + proofSize * sizeOfMerkleProofEntry
        + (if resigned then sizeOfSignature else 0) + size = shredType.sizeOfPayload := by
  unfold capacity
  generalize shredType.sizeOfHeaders + sizeOfMerkleRoot + proofSize * sizeOfMerkleProofEntry
    + (if resigned then sizeOfSignature else 0) = used
  by_cases hle : used ≤ shredType.sizeOfPayload
  · rw [if_pos hle, Except.ok.injEq]
    omega
  · rw [if_neg hle]
    refine ⟨fun h => (nomatch h), fun h => ?_⟩
    omega

/-- The parts of a payload. -/
structure Blocks where
  signature : List UInt8
  headers : List UInt8
  buffer : List UInt8
  chained : List UInt8
  proof : List UInt8
  tail : List UInt8

namespace Blocks

/-- The payload. -/
def bytes (b : Blocks) : List UInt8 :=
  b.signature ++ b.headers ++ b.buffer ++ b.chained ++ b.proof ++ b.tail

/-- The parts have the sizes of a type and a variant. -/
structure Fits (b : Blocks) (shredType : ShredType) (proofSize : ℕ) (resigned : Bool) : Prop where
  signature : b.signature.length = sizeOfSignature
  headers : sizeOfSignature + b.headers.length = shredType.sizeOfHeaders
  buffer : capacity shredType proofSize resigned = .ok b.buffer.length
  chained : b.chained.length = sizeOfMerkleRoot
  proof : b.proof.length = proofSize * sizeOfMerkleProofEntry
  tail : b.tail.length = if resigned then sizeOfSignature else 0

variable {b : Blocks} {shredType : ShredType} {proofSize : ℕ} {resigned : Bool}

/-- The parts fill the payload. -/
theorem Fits.length_bytes (h : b.Fits shredType proofSize resigned) :
    b.bytes.length = shredType.sizeOfPayload := by
  have hbuffer := capacity_eq_ok.mp h.buffer
  have := h.headers
  have := h.signature
  simp only [bytes, length_append, h.chained, h.proof, h.tail]
  omega

/-- Around the signature. -/
lemma bytes_eq_signature (b : Blocks) :
    b.bytes = [] ++ b.signature ++ (b.headers ++ b.buffer ++ b.chained ++ b.proof ++ b.tail) := by
  simp [bytes]

/-- Around the buffer. -/
lemma bytes_eq_buffer (b : Blocks) :
    b.bytes = b.signature ++ b.headers ++ b.buffer ++ (b.chained ++ b.proof ++ b.tail) := by
  simp [bytes]

/-- Around what the erasure code covers. -/
lemma bytes_eq_coded (b : Blocks) :
    b.bytes = b.signature ++ (b.headers ++ b.buffer) ++ (b.chained ++ b.proof ++ b.tail) := by
  simp [bytes]

/-- Around the chained Merkle root. -/
lemma bytes_eq_chained (b : Blocks) : b.bytes =
    (b.signature ++ b.headers ++ b.buffer) ++ b.chained ++ (b.proof ++ b.tail) := by
  simp [bytes]

/-- Around what the leaf of the Merkle tree covers. -/
lemma bytes_eq_hashed (b : Blocks) : b.bytes =
    b.signature ++ (b.headers ++ b.buffer ++ b.chained) ++ (b.proof ++ b.tail) := by
  simp [bytes]

/-- Around the Merkle proof. -/
lemma bytes_eq_proof (b : Blocks) : b.bytes =
    (b.signature ++ b.headers ++ b.buffer ++ b.chained) ++ b.proof ++ b.tail := by
  simp [bytes]

end Blocks

namespace Blocks.Fits

variable {b : Blocks} {shredType : ShredType} {proofSize : ℕ} {resigned : Bool}
  (h : b.Fits shredType proofSize resigned)
include h

/-- The buffer starts behind the headers. -/
lemma length_headers : (b.signature ++ b.headers).length = shredType.sizeOfHeaders := by
  rw [length_append, h.signature, h.headers]

/-- The chained Merkle root follows the buffer. -/
lemma getChainedMerkleRootOffset : getChainedMerkleRootOffset shredType proofSize resigned =
    .ok (b.signature ++ b.headers ++ b.buffer).length := by
  rw [Ledger.getChainedMerkleRootOffset, h.buffer, Except.map, length_append, h.length_headers]

/-- The proof follows the chained Merkle root. -/
lemma getProofOffset : getProofOffset shredType proofSize resigned =
    .ok (b.signature ++ b.headers ++ b.buffer ++ b.chained).length := by
  rw [Ledger.getProofOffset, h.buffer, Except.map, length_append, length_append,
    h.length_headers, h.chained]

/-- The proof that is read is the one that was written. -/
theorem getMerkleProof {entries : List MerkleProofEntry}
    (hproof : b.proof = (entries.map MerkleProofEntry.bytes).flatten) :
    getMerkleProof b.bytes (b.signature ++ b.headers ++ b.buffer ++ b.chained).length proofSize =
      .ok entries := by
  have hchunks : chunks sizeOfMerkleProofEntry b.proof = entries.map MerkleProofEntry.bytes := by
    rw [hproof]
    refine chunks_flatten (by decide) fun part hpart => ?_
    obtain ⟨entry, -, rfl⟩ := mem_map.mp hpart
    exact entry.length
  have hentries : (entries.map MerkleProofEntry.bytes).mapM toMerkleProofEntry = .ok entries := by
    rw [mapM_map_eq (k := id) fun entry _ => ?_, map_id]
    rw [toMerkleProofEntry, dif_pos entry.length]
    rfl
  rw [Ledger.getMerkleProof, readPayload, b.bytes_eq_proof,
    slice?_append rfl (by rw [h.proof]), okOr]
  refine bind_eq_ok.mpr ⟨_, rfl, ?_⟩
  rw [hchunks, hentries]

/-- The root is recomputed from the leaf and the proof. -/
theorem merkleRootOf (hashv : List (List UInt8) → Hash) {entries : List MerkleProofEntry}
    (hproof : b.proof = (entries.map MerkleProofEntry.bytes).flatten) (index : ℕ) :
    layout.merkleRootOf hashv b.bytes shredType proofSize resigned index =
      getMerkleRoot hashv index (hashv [merkleHashPrefixLeaf, b.headers ++ b.buffer ++ b.chained])
        entries := by
  rw [layout.merkleRootOf, h.getProofOffset]
  dsimp only [bind, Except.bind]
  rw [h.getMerkleProof hproof]
  rw [getMerkleNode, readPayload, b.bytes_eq_hashed, slice?_append h.signature.symm
    (by simp only [length_append]; omega)]
  rfl

end Blocks.Fits

/-- Entries of 20 bytes each. -/
theorem length_flatten_entries (entries : List MerkleProofEntry) :
    (entries.map bytes).flatten.length = entries.length * sizeOfMerkleProofEntry := by
  induction entries with
  | nil => rfl
  | cons entry entries ih =>
    rw [map_cons, flatten_cons, length_append, ih, entry.length, length_cons,
      Nat.succ_mul, Nat.add_comm]
    rfl

/-- The shred has the given parts, and a variant of its type. -/
structure Shred.HasBlocks (s : Shred) (b : Blocks) (proofSize : ℕ) (resigned : Bool) : Prop where
  payload : s.payload = b.bytes
  params : s.commonHeader.shredVariant.params s.shredType = .ok (proofSize, resigned)
  fits : b.Fits s.shredType proofSize resigned

namespace Shred.HasBlocks

variable {s : Shred} {b : Blocks} {proofSize : ℕ} {resigned : Bool}
  (h : s.HasBlocks b proofSize resigned)
include h

/-- The offset of the chained Merkle root in a shred. -/
lemma chainedMerkleRootOffset : s.chainedMerkleRootOffset =
    .ok (b.signature ++ b.headers ++ b.buffer).length :=
  bind_eq_ok.mpr ⟨_, h.params, h.fits.getChainedMerkleRootOffset⟩

/-- The offset of the proof in a shred. -/
lemma proofOffset : s.proofOffset =
    .ok (b.signature ++ b.headers ++ b.buffer ++ b.chained).length :=
  bind_eq_ok.mpr ⟨_, h.params, h.fits.getProofOffset⟩

/-- The shard of a shred is its headers and buffer. -/
lemma erasureShardOffsets : s.erasureShardOffsets =
    .ok (s.shredType.erasureShardStartOffset, (b.signature ++ b.headers ++ b.buffer).length) := by
  rw [Shred.erasureShardOffsets, if_neg (by rw [h.payload, h.fits.length_bytes]; simp)]
  refine bind_eq_ok.mpr ⟨_, h.params, bind_eq_ok.mpr ⟨_, h.fits.buffer, ?_⟩⟩
  rw [length_append, h.fits.length_headers]
  rfl

/-- The part that is erasure coded: the buffer, and the headers of a data shred. -/
theorem erasureShard : s.erasureShard =
    .ok (if s.shredType = .data then b.headers ++ b.buffer else b.buffer) := by
  have hheaders := h.fits.length_headers
  refine bind_eq_ok.mpr ⟨_, h.erasureShardOffsets, ?_⟩
  dsimp only
  rw [readPayload, h.payload]
  rcases htype : s.shredType with _ | _ <;> rw [htype] at hheaders
  · rw [if_pos rfl, b.bytes_eq_coded, ShredType.erasureShardStartOffset,
      slice?_append h.fits.signature.symm (by simp)]
    rfl
  · rw [if_neg (by simp), b.bytes_eq_buffer, ShredType.erasureShardStartOffset,
      slice?_append hheaders.symm length_append]
    rfl

/-- Writing the buffer of a coding shred. -/
theorem setErasureShard_code {shard : List UInt8} (htype : s.shredType = .code)
    (hshard : shard.length = b.buffer.length) :
    s.setErasureShard shard = .ok { s with payload := { b with buffer := shard }.bytes } := by
  have hheaders := h.fits.length_headers
  rw [htype] at hheaders
  refine bind_eq_ok.mpr ⟨_, h.erasureShardOffsets, ?_⟩
  dsimp only
  rw [h.payload, b.bytes_eq_buffer, htype, ShredType.erasureShardStartOffset,
    copyAt?_append hheaders.symm hshard, Blocks.bytes_eq_buffer]
  rfl

/-- Writing the headers and the buffer of a data shred. -/
theorem setErasureShard_data {headers buffer : List UInt8} (htype : s.shredType = .data)
    (hheaders : headers.length = b.headers.length) (hbuffer : buffer.length = b.buffer.length) :
    s.setErasureShard (headers ++ buffer) =
      .ok { s with payload := { b with headers := headers, buffer := buffer }.bytes } := by
  refine bind_eq_ok.mpr ⟨_, h.erasureShardOffsets, ?_⟩
  dsimp only
  rw [h.payload, b.bytes_eq_coded, htype, ShredType.erasureShardStartOffset,
    copyAt?_append h.fits.signature.symm (by rw [length_append, length_append, hheaders, hbuffer]),
    Blocks.bytes_eq_coded]
  rfl

/-- Writes the chained Merkle root. -/
lemma setChainedMerkleRoot (root : Hash) : s.setChainedMerkleRoot root =
    .ok { s with payload := { b with chained := root.bytes }.bytes } := by
  refine bind_eq_ok.mpr ⟨_, h.chainedMerkleRootOffset, ?_⟩
  rw [h.payload, b.bytes_eq_chained,
    copyAt?_append rfl (root.length.trans h.fits.chained.symm), Blocks.bytes_eq_chained]
  rfl

/-- The leaf of a shred in the Merkle tree. -/
lemma merkleNode (hashv : List (List UInt8) → Hash) : s.merkleNode hashv =
    .ok (hashv [merkleHashPrefixLeaf, b.headers ++ b.buffer ++ b.chained]) := by
  refine bind_eq_ok.mpr ⟨_, h.proofOffset, ?_⟩
  rw [getMerkleNode, readPayload, h.payload, b.bytes_eq_hashed, slice?_append h.fits.signature.symm
    (by simp only [length_append]; omega)]
  rfl

/-- Writes the Merkle proof. -/
lemma setMerkleProof {entries : List MerkleProofEntry} (hentries : entries.length = proofSize) :
    s.setMerkleProof (.ok entries) = .ok { s with
      payload := { b with proof := (entries.map bytes).flatten }.bytes } := by
  have hlength : (entries.map bytes).flatten.length = b.proof.length := by
    rw [length_flatten_entries, hentries, h.fits.proof]
  have hle : ¬s.payload.length < (b.signature ++ b.headers ++ b.buffer ++ b.chained).length := by
    rw [h.payload, Blocks.bytes]
    simp only [length_append]
    omega
  refine bind_eq_ok.mpr ⟨_, h.params, bind_eq_ok.mpr ⟨_, h.proofOffset, ?_⟩⟩
  rw [if_neg hle]
  refine bind_eq_ok.mpr ⟨_, rfl, ?_⟩
  dsimp only
  rw [take_of_length_le hentries.le, h.payload, b.bytes_eq_proof, copyAt?_append rfl hlength]
  refine bind_eq_ok.mpr ⟨_, rfl, ?_⟩
  rw [if_neg (by simp [hentries]), Blocks.bytes_eq_proof]
  rfl

/-- Writes the signature. -/
lemma setSignature (signature : Signature) : s.setSignature signature = .ok { s with
    payload := { b with signature := signature.bytes }.bytes
    commonHeader.signature := signature } := by
  rw [Shred.setSignature, h.payload, b.bytes_eq_signature, copyAt?_append length_nil.symm
    (signature.length.trans h.fits.signature.symm), Blocks.bytes_eq_signature]
  rfl

end Shred.HasBlocks

/-! ## Headers in a payload -/

/-- The bytes of headers past the signature. -/
def headersOf (common : ShredCommonHeader) (header : ShredHeader) : List UInt8 :=
  common.serializeRest ++ header.serialize

/-- The headers have their size. -/
lemma length_headersOf (common : ShredCommonHeader) (header : ShredHeader) :
    sizeOfSignature + (headersOf common header).length = header.shredType.sizeOfHeaders := by
  cases header with
  | data header =>
    simp [headersOf, serializeRest, serialize, shredType, ShredType.sizeOfHeaders, sizeOfSignature]
  | code header =>
    simp [headersOf, serializeRest, serialize, shredType, ShredType.sizeOfHeaders, sizeOfSignature]

section headers
variable {b : Blocks} (hsignature : b.signature.length = sizeOfSignature)
include hsignature

/-- A part of the headers is read from the payload. -/
theorem slice?_headers {i j : ℕ} {part : List UInt8} (h : slice? b.headers i j = some part) :
    slice? b.bytes (sizeOfSignature + i) (sizeOfSignature + j) = some part := by
  unfold slice? at *
  split at h <;> cases h
  next hle =>
  have hbytes : b.bytes = b.signature ++ (b.headers ++
      (b.buffer ++ b.chained ++ b.proof ++ b.tail)) := by
    simp [Blocks.bytes]
  rw [hbytes, if_pos (by simp only [length_append]; omega), ← hsignature,
    take_length_add_append, drop_length_add_append, take_append_of_le_length hle.2]

/-- A byte of the headers is read from the payload. -/
theorem getElem?_headers {i : ℕ} {byte : UInt8} (h : b.headers[i]? = some byte) :
    b.bytes[sizeOfSignature + i]? = some byte := by
  have hlt := lt_length h
  simp only [Blocks.bytes, List.append_assoc]
  rw [List.getElem?_append_right (by omega), hsignature, Nat.add_sub_cancel_left,
    List.getElem?_append_left hlt, h]

/-- A number of the headers is read from the payload. -/
theorem ofLeBytes_headers {i n value : ℕ}
    (h : slice? b.headers i (i + n) = some (toLeBytes n value))
    (hlt : value < 256 ^ n) : (slice? b.bytes (sizeOfSignature + i) (sizeOfSignature + i + n)).map
      ofLeBytes = some value := by
  rw [Nat.add_assoc, slice?_headers hsignature h, Option.map_some, ofLeBytes_toLeBytes hlt]

/-- The signature is read back. -/
lemma getSignature_bytes : layout.getSignature b.bytes = some b.signature := by
  rw [layout.getSignature, b.bytes_eq_signature, slice?_append length_nil.symm]
  rw [hsignature]
  rfl

variable {common : ShredCommonHeader} {header : ShredHeader}
  (hheaders : b.headers = headersOf common header)
include hheaders

/-- The variant is read back. -/
lemma getShredVariant_bytes {variant : ShredVariant}
    (hvariant : ShredVariant.ofByte common.shredVariant.toByte = .ok variant) :
    layout.getShredVariant b.bytes = .ok variant := by
  have hbyte : b.bytes[64]? = some common.shredVariant.toByte :=
    getElem?_headers hsignature (i := 0) (by rw [hheaders]; rfl)
  rw [layout.getShredVariant, hbyte]
  exact hvariant

lemma getSlot_bytes (hslot : common.slot < 2 ^ 64) : layout.getSlot b.bytes = some common.slot :=
  ofLeBytes_headers hsignature (i := 1) (n := 8) (by rw [hheaders]; cases header <;> rfl) hslot

lemma getVersion_bytes (hversion : common.version < 2 ^ 16) :
    layout.getVersion b.bytes = some common.version :=
  ofLeBytes_headers hsignature (i := 13) (n := 2) (by rw [hheaders]; cases header <;> rfl) hversion

lemma getIndex_bytes (hindex : common.index < 2 ^ 32) :
    layout.getIndex b.bytes = some common.index :=
  ofLeBytes_headers hsignature (i := 9) (n := 4) (by rw [hheaders]; cases header <;> rfl) hindex

lemma getFecSetIndex_bytes (hindex : common.fecSetIndex < 2 ^ 32) :
    layout.getFecSetIndex b.bytes = some common.fecSetIndex :=
  ofLeBytes_headers hsignature (i := 15) (n := 4) (by rw [hheaders]; cases header <;> rfl) hindex

/-- The position of a data shred, from its index and that of the batch. -/
theorem dataPosition_bytes (hindex : common.index < 2 ^ 32)
    (hfec : common.fecSetIndex ≤ common.index) :
    layout.dataPosition b.bytes = some (common.index - common.fecSetIndex) := by
  rw [layout.dataPosition, getFecSetIndex_bytes hsignature hheaders (by omega),
    getIndex_bytes hsignature hheaders hindex]
  simp [if_pos hfec]

end headers

/-! ## Data shreds -/

section data
variable {b : Blocks} {common : ShredCommonHeader} {dataHeader : DataShredHeader}
  (hsignature : b.signature.length = sizeOfSignature)
  (hheaders : b.headers = headersOf common (.data dataHeader))
include hsignature hheaders

/-- The parent offset is read back. -/
lemma getParentOffset_bytes (hoffset : dataHeader.parentOffset < 2 ^ 16) :
    layout.getParentOffset b.bytes = some dataHeader.parentOffset :=
  ofLeBytes_headers hsignature (i := 19) (n := 2) (by rw [hheaders]; rfl) hoffset

/-- The size is read back. -/
lemma getDataSize_bytes (hsize : dataHeader.size < 2 ^ 16) :
    layout.getDataSize b.bytes = .ok dataHeader.size := by
  have hslice : slice? b.bytes 86 (86 + 2) = some (toLeBytes 2 dataHeader.size) :=
    slice?_headers hsignature (i := 22) (j := 24) (by rw [hheaders]; rfl)
  rw [layout.getDataSize, readPayload, hslice, okOr, Except.map,
    ofLeBytes_toLeBytes (by norm_num; omega)]

section
variable {proofSize : UInt8} {resigned : Bool}
  (hvariant : ShredVariant.ofByte common.shredVariant.toByte = .ok (.merkleData proofSize resigned))
include hvariant

/-- The flags are read back. -/
lemma getFlags_bytes : layout.getFlags b.bytes = .ok dataHeader.flags := by
  have hbyte : b.bytes[85]? = some dataHeader.flags :=
    getElem?_headers hsignature (i := 21) (by rw [hheaders]; rfl)
  rw [layout.getFlags, layout.getShredType, getShredVariant_bytes hsignature hheaders
    hvariant, hbyte]
  rfl

/-- The data at the start of the buffer. -/
theorem getData_bytes {data padding : List UInt8} (hfits : b.Fits .data proofSize.toNat resigned)
    (hbuffer : b.buffer = data ++ padding)
    (hsize : dataHeader.size = ShredType.data.sizeOfHeaders + data.length)
    (hlt : dataHeader.size < 2 ^ 16) : layout.getData b.bytes = .ok data := by
  have hbytes : b.bytes = (b.signature ++ b.headers) ++ data ++
      (padding ++ b.chained ++ b.proof ++ b.tail) := by
    simp [Blocks.bytes, hbuffer]
  have hlen := hfits.length_headers
  have hle : data.length ≤ b.buffer.length := by
    rw [hbuffer, length_append]
    exact Nat.le_add_right _ _
  refine bind_eq_ok.mpr ⟨_, getShredVariant_bytes hsignature hheaders hvariant, ?_⟩
  refine bind_eq_ok.mpr ⟨_, getDataSize_bytes hsignature hheaders hlt, ?_⟩
  refine bind_eq_ok.mpr ⟨_, hfits.buffer, ?_⟩
  rw [if_pos (by omega), hbytes, slice?_append hlen.symm (by rw [hlen, hsize])]
  rfl

end
end data

/-! ## Roots -/

/-- The variant of a type. -/
def ShredType.variant (proofSize : UInt8) (resigned : Bool) : ShredType → ShredVariant
  | data => .merkleData proofSize resigned
  | code => .merkleCode proofSize resigned

/-- A variant has its parameters. -/
lemma params_variant (shredType : ShredType) (proofSize : UInt8) (resigned : Bool) :
    (shredType.variant proofSize resigned).params shredType = .ok (proofSize.toNat, resigned) := by
  cases shredType <;> rfl

section roots
variable {b : Blocks} {common : ShredCommonHeader} {header : ShredHeader} {proofSize : UInt8}
  {resigned : Bool} (hheaders : b.headers = headersOf common header)
  (hvariant : ShredVariant.ofByte common.shredVariant.toByte =
    .ok (header.shredType.variant proofSize resigned))
  (hfits : b.Fits header.shredType proofSize.toNat resigned)
include hheaders hvariant hfits

/-- The chained Merkle root is read back. -/
lemma getChainedMerkleRoot_bytes : layout.getChainedMerkleRoot b.bytes = some b.chained := by
  have hslice : slice? b.bytes (b.signature ++ b.headers ++ b.buffer).length
      ((b.signature ++ b.headers ++ b.buffer).length + sizeOfMerkleRoot) = some b.chained := by
    rw [b.bytes_eq_chained, slice?_append rfl (by rw [hfits.chained])]
  have hoffset := hfits.getChainedMerkleRootOffset
  rw [layout.getChainedMerkleRoot, getShredVariant_bytes hfits.signature hheaders hvariant]
  cases htype : header.shredType <;> rw [htype] at hoffset <;>
    simpa only [ShredType.variant, Except.toOption, Option.bind_eq_bind, Option.bind_some, hoffset]

/-- The root that the leaf at the position of a shred and its proof lead to. -/
theorem getMerkleRoot_bytes (hashv : List (List UInt8) → Hash) {entries : List MerkleProofEntry}
    {position : ℕ} {root : Hash} (hproof : b.proof = (entries.map MerkleProofEntry.bytes).flatten)
    (hposition : (match header.shredType with
      | .data => layout.dataPosition b.bytes
      | .code => layout.codePosition b.bytes) = some position)
    (hroot : getMerkleRoot hashv position
      (hashv [merkleHashPrefixLeaf, b.headers ++ b.buffer ++ b.chained]) entries = .ok root) :
    layout.getMerkleRoot hashv b.bytes = some root := by
  have hof := hfits.merkleRootOf hashv hproof position
  rw [hroot] at hof
  rw [layout.getMerkleRoot, getShredVariant_bytes hfits.signature hheaders hvariant]
  cases htype : header.shredType <;> rw [htype] at hof hposition <;>
    simp [ShredType.variant, Except.toOption, hposition, hof]

end roots

/-- The position of a coding shred, from its header. -/
theorem codePosition_bytes {b : Blocks} {common : ShredCommonHeader} {header : CodingShredHeader}
    (hsignature : b.signature.length = sizeOfSignature)
    (hheaders : b.headers = headersOf common (.code header)) (hnum : header.numDataShreds < 2 ^ 16)
    (hposition : header.position < 2 ^ 16) :
    layout.codePosition b.bytes = some (header.numDataShreds + header.position) := by
  have hnumber : (slice? b.bytes 83 (83 + 2)).map ofLeBytes = some header.numDataShreds :=
    ofLeBytes_headers hsignature (i := 19) (n := 2) (by rw [hheaders]; rfl) hnum
  have hplace : (slice? b.bytes 87 (87 + 2)).map ofLeBytes = some header.position :=
    ofLeBytes_headers hsignature (i := 23) (n := 2) (by rw [hheaders]; rfl) hposition
  rw [layout.codePosition, hnumber, hplace]
  rfl

end Trezoa.Ledger
