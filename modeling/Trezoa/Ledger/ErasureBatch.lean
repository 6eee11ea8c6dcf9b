import Trezoa.Ledger.ShredBlocks

/-!
# Filling in an erasure batch

What `finishErasureBatch` makes of a batch of blank shreds, part by part of their payloads.

* `Parts.withHeaders`, `Parts.withChained`, `Parts.attach`: what is written.
-/

namespace Trezoa.Ledger

open Lib List ShredType

/-- The headers of a shred and the parts of its payload. -/
structure Parts where
  common : ShredCommonHeader
  header : ShredHeader
  blocks : Blocks

namespace Parts

def shred (p : Parts) : Shred := ⟨p.common, p.header, p.blocks.bytes⟩

def shredType (p : Parts) : ShredType := p.header.shredType

/-- The variant is one of the type, and the parts have its sizes. -/
structure Ok (p : Parts) (proofSize : UInt8) (resigned : Bool) : Prop where
  variant : p.common.shredVariant = p.shredType.variant proofSize resigned
  fits : p.blocks.Fits p.shredType proofSize.toNat resigned

/-- The part that is erasure coded. -/
def coded (p : Parts) : List UInt8 :=
  if p.shredType = .data then p.blocks.headers ++ p.blocks.buffer else p.blocks.buffer

/-- With the headers in the payload. -/
def withHeaders (p : Parts) : Parts :=
  { p with
    blocks.signature := p.common.signature.bytes
    blocks.headers := headersOf p.common p.header }

lemma shredType_withHeaders (p : Parts) : p.withHeaders.shredType = p.shredType := rfl

def withBuffer (p : Parts) (buffer : List UInt8) : Parts := { p with blocks.buffer := buffer }

def withChained (root : Hash) (p : Parts) : Parts := { p with blocks.chained := root.bytes }

/-- The leaf of the Merkle tree. -/
def node (hashv : List (List UInt8) → Hash) (p : Parts) : Hash :=
  hashv [merkleHashPrefixLeaf, p.blocks.headers ++ p.blocks.buffer ++ p.blocks.chained]

/-- With a proof and a signature. -/
def attach (signature : Signature) (entries : List MerkleProofEntry) (p : Parts) : Parts :=
  { p with
    common.signature := signature
    blocks.signature := signature.bytes
    blocks.proof := (entries.map MerkleProofEntry.bytes).flatten }

variable {p : Parts} {proofSize : UInt8} {resigned : Bool}

section
variable (h : p.Ok proofSize resigned)
include h

lemma Ok.hasBlocks : p.shred.HasBlocks p.blocks proofSize.toNat resigned where
  payload := rfl
  params := by
    rw [shred, h.variant]
    exact params_variant _ _ _
  fits := h.fits

lemma Ok.withHeaders : p.withHeaders.Ok proofSize resigned where
  variant := h.variant
  fits := { h.fits with
    signature := p.common.signature.length
    headers := length_headersOf _ _ }

lemma Ok.withBuffer {buffer : List UInt8} (hbuffer : buffer.length = p.blocks.buffer.length) :
    (p.withBuffer buffer).Ok proofSize resigned where
  variant := h.variant
  fits := { h.fits with buffer := h.fits.buffer.trans (by rw [← hbuffer]; rfl) }

lemma Ok.withChained (root : Hash) : (p.withChained root).Ok proofSize resigned where
  variant := h.variant
  fits := { h.fits with chained := root.length }

end

lemma Ok.attach (h : p.Ok proofSize resigned) (signature : Signature)
    {entries : List MerkleProofEntry} (hentries : entries.length = proofSize.toNat) :
    (p.attach signature entries).Ok proofSize resigned where
  variant := h.variant
  fits := { h.fits with
    signature := signature.length
    proof := (length_flatten_entries entries).trans (by rw [hentries]) }

/-! ## Steps -/

section
variable (h : p.Ok proofSize resigned)
include h

/-- The headers are written over the first two parts. -/
theorem Ok.writeHeaders : p.shred.writeHeaders = .ok p.withHeaders.shred := by
  have hlength : (serializeHeaders p.common p.header).length =
      (p.blocks.signature ++ p.blocks.headers).length := by
    have hheaders : sizeOfSignature + (headersOf p.common p.header).length =
        p.shredType.sizeOfHeaders := length_headersOf p.common p.header
    have := h.fits.headers
    rw [headersOf] at hheaders
    simp only [serializeHeaders, length_append, p.common.signature.length, h.fits.signature,
      sizeOfSignature] at *
    omega
  have hbytes : p.blocks.bytes = [] ++ (p.blocks.signature ++ p.blocks.headers) ++
      (p.blocks.buffer ++ p.blocks.chained ++ p.blocks.proof ++ p.blocks.tail) := by
    simp [Blocks.bytes]
  have hcopy : copyAt? p.shred.payload 0 (serializeHeaders p.common p.header) =
      some p.withHeaders.blocks.bytes := by
    rw [shred, hbytes, copyAt?_append length_nil.symm hlength]
    simp [Parts.withHeaders, Blocks.bytes, serializeHeaders, headersOf]
  rw [Shred.writeHeaders]
  refine bind_eq_ok.mpr ⟨p.withHeaders.blocks.bytes, ?_, rfl⟩
  rw [show serializeHeaders p.shred.commonHeader p.shred.header =
    serializeHeaders p.common p.header from rfl, hcopy]
  rfl

/-- A data shred keeps what is coded of it. -/
theorem Ok.setErasureShard_coded (htype : p.shredType = .data) :
    p.shred.setErasureShard p.coded = .ok p.shred := by
  rw [coded, if_pos htype]
  exact h.hasBlocks.setErasureShard_data htype rfl rfl

lemma Ok.attachProof {tree : MerkleTree} {signature : Signature}
    {batchSize i : ℕ} {entries : List MerkleProofEntry}
    (hproof : tree.makeMerkleProof i batchSize = .ok entries)
    (hentries : entries.length = proofSize.toNat) :
    attachProof tree signature batchSize (p.shred, i) = .ok (p.attach signature entries).shred := by
  rw [Ledger.attachProof, hproof, h.hasBlocks.setMerkleProof hentries]
  have hok : (⟨p.common, p.header, { p.blocks with
      proof := (entries.map MerkleProofEntry.bytes).flatten }⟩ : Parts).Ok proofSize resigned :=
    ⟨h.variant, { h.fits with
      proof := (length_flatten_entries entries).trans (by rw [hentries]) }⟩
  exact hok.hasBlocks.setSignature signature

/-- The part that is coded has one size for both types. -/
theorem Ok.length_coded :
    p.coded.length + sizeOfMerkleRoot + proofSize.toNat * sizeOfMerkleProofEntry
      + (if resigned then sizeOfSignature else 0) + sizeOfSignature = data.sizeOfPayload := by
  have hcapacity := capacity_eq_ok.mp h.fits.buffer
  have hheaders := h.fits.headers
  have hcodeHeaders : code.sizeOfHeaders = 89 := rfl
  have hcodePayload : code.sizeOfPayload = 1228 := rfl
  have hdataPayload : data.sizeOfPayload = 1203 := rfl
  have hsignature : sizeOfSignature = 64 := rfl
  unfold coded
  rcases htype : p.shredType with _ | _ <;> rw [htype] at hcapacity hheaders
  · rw [if_pos rfl, length_append]
    omega
  · rw [if_neg (by simp)]
    omega

end
end Parts

open Parts

/-! ## A batch -/

section batch
variable (hashv : List (List UInt8) → Hash) (rs : ReedSolomon) (signMessage : Hash → Signature)

/-- The shreds with their headers and codes. -/
def encodedParts (data code : List Parts) : List Parts :=
  data.map withHeaders ++ List.zipWith (fun p buffer => p.withHeaders.withBuffer buffer) code
    (rs.parity data.length code.length (data.map fun p => p.withHeaders.coded))

/-- The batch has data shreds, and then coding shreds that know how many there are. -/
structure IsBatch (data code : List Parts) (resigned : Bool) : Prop where
  length_data : data.length = dataShredsPerFecBlock
  length_code : code.length = codingShredsPerFecBlock
  ok : ∀ p ∈ data ++ code, p.Ok proofEntriesFor3232Batch resigned
  data : ∀ p ∈ data, p.shredType = .data
  code : ∀ p ∈ code, ∃ position,
    p.header = .code ⟨dataShredsPerFecBlock, codingShredsPerFecBlock, position⟩

variable {data code : List Parts} {resigned : Bool} (h : IsBatch data code resigned)
include h

lemma IsBatch.code_type {p : Parts} (hp : p ∈ code) : p.shredType = .code := by
  obtain ⟨position, hheader⟩ := h.code p hp
  rw [shredType, hheader]
  rfl

lemma IsBatch.lastCodingHeader :
    ∃ position, lastCodingHeader (((data ++ code).map withHeaders).map shred) =
      .ok ⟨dataShredsPerFecBlock, codingShredsPerFecBlock, position⟩ := by
  have hne : code ≠ [] := length_pos_iff.mp (by rw [h.length_code]; decide)
  obtain ⟨last, hlast⟩ := getLast?_isSome.mpr hne |> Option.isSome_iff_exists.mp
  obtain ⟨position, hheader⟩ := h.code last (mem_of_getLast? hlast)
  refine ⟨position, ?_⟩
  rw [Ledger.lastCodingHeader, map_append, map_append,
    getLast?_append_of_ne_nil _ (by simpa using hne), getLast?_map, getLast?_map, hlast]
  simp [withHeaders, shred, hheader]

/-- All parts that are coded have one size. -/
theorem IsBatch.length_coded {p q : Parts} (hp : p ∈ data ++ code) (hq : q ∈ data ++ code) :
    p.withHeaders.coded.length = q.withHeaders.coded.length := by
  have := (h.ok p hp).withHeaders.length_coded
  have := (h.ok q hq).withHeaders.length_coded
  omega

lemma IsBatch.checkShards : checkShards (dataShredsPerFecBlock + codingShredsPerFecBlock)
    ((data ++ code).map fun p => p.withHeaders.coded) = .ok () := by
  have hlength : ((data ++ code).map fun p => p.withHeaders.coded).length =
      dataShredsPerFecBlock + codingShredsPerFecBlock := by
    rw [length_map, length_append, h.length_data, h.length_code]
  obtain ⟨first, rest, hfirst⟩ := exists_cons_of_length_pos (l := data ++ code)
    (by rw [length_append, h.length_data]; simp [dataShredsPerFecBlock])
  have hmem : first ∈ data ++ code := hfirst ▸ mem_cons_self
  have hhead : (((data ++ code).map fun p => p.withHeaders.coded).head?.map List.length).getD 0 =
      first.withHeaders.coded.length := by rw [hfirst]; rfl
  have hpos : first.withHeaders.coded.length ≠ 0 := by
    have := (h.ok first hmem).withHeaders.length_coded
    have : (if resigned then sizeOfSignature else 0) ≤ 64 := by cases resigned <;> decide
    have hproof : proofEntriesFor3232Batch.toNat * sizeOfMerkleProofEntry = 120 := rfl
    have hpayload : ShredType.data.sizeOfPayload = 1203 := rfl
    have hsignature : sizeOfSignature = 64 := rfl
    have hroot : sizeOfMerkleRoot = 32 := rfl
    omega
  rw [Ledger.checkShards, if_neg (by omega), if_neg (by omega), hhead, if_neg hpos, if_neg]
  simp only [any_eq_true, mem_map, decide_eq_true_eq, not_exists, not_and, not_not]
  rintro shard ⟨p, hp, rfl⟩
  exact h.length_coded hp hmem

/-- The codes of the data shreds. -/
theorem IsBatch.encode : rs.encode dataShredsPerFecBlock codingShredsPerFecBlock
    ((data ++ code).map fun p => p.withHeaders.coded) =
      .ok ((data.map fun p => p.withHeaders.coded)
        ++ rs.parity data.length code.length (data.map fun p => p.withHeaders.coded)) := by
  have htake : ((data ++ code).map fun p => p.withHeaders.coded).take dataShredsPerFecBlock =
      data.map fun p => p.withHeaders.coded := by
    rw [map_append, take_left' (by rw [length_map, h.length_data])]
  refine bind_eq_ok.mpr ⟨(), h.checkShards, ?_⟩
  rw [htake, h.length_data, h.length_code]
  rfl

/-- A code has the size of the buffer of a coding shred. -/
theorem IsBatch.length_parity {p : Parts} (hp : p ∈ code) {buffer : List UInt8}
    (hbuffer : buffer ∈ rs.parity data.length code.length (data.map fun p => p.withHeaders.coded)) :
    buffer.length = p.withHeaders.blocks.buffer.length := by
  have hcoded : p.withHeaders.coded = p.withHeaders.blocks.buffer := by
    rw [coded, if_neg (by rw [shredType_withHeaders, h.code_type hp]; simp)]
  have hne : (data.map fun p => p.withHeaders.coded) ≠ [] :=
    length_pos_iff.mp (by rw [length_map, h.length_data]; decide)
  rw [← hcoded]
  refine rs.size_parity _ _ _ _ hne (fun shard hshard => ?_) buffer hbuffer
  obtain ⟨q, hq, rfl⟩ := mem_map.mp hshard
  exact h.length_coded (mem_append_left _ hq) (mem_append_right _ hp)

/-- The coding shreds get the codes of the data shreds, which keep their own shards. -/
theorem IsBatch.encodeBatch :
    encodeBatch rs dataShredsPerFecBlock codingShredsPerFecBlock
      (((data ++ code).map withHeaders).map shred) =
        .ok ((encodedParts rs data code).map shred) := by
  have hok (p : Parts) (hp : p ∈ data ++ code) := (h.ok p hp).withHeaders
  have hshards : (((data ++ code).map withHeaders).map shred).mapM Shred.erasureShard =
      .ok ((data ++ code).map fun p => p.withHeaders.coded) := by
    rw [map_map]
    exact mapM_map_eq fun p hp => (hok p hp).hasBlocks.erasureShard
  refine bind_eq_ok.mpr ⟨(), rfl, bind_eq_ok.mpr ⟨_, hshards, bind_eq_ok.mpr ⟨_, h.encode rs, ?_⟩⟩⟩
  rw [encodedParts, map_append, map_append, map_append, zip_append (by simp), mapM_append]
  refine bind_eq_ok.mpr ⟨_, ?_, bind_eq_ok.mpr ⟨_, ?_, rfl⟩⟩
  · rw [map_map, zip_map']
    exact mapM_map_eq fun p hp => (hok p (mem_append_left _ hp)).setErasureShard_coded (h.data p hp)
  rw [map_map, zip_map_left, ← map_uncurry_zip_eq_zipWith, map_map]
  refine mapM_map_eq fun item hitem => ?_
  obtain ⟨hp, hbuffer⟩ := of_mem_zip hitem
  exact (hok item.1 (mem_append_right _ hp)).hasBlocks.setErasureShard_code
    (item.1.shredType_withHeaders.trans (h.code_type hp)) (h.length_parity rs hp hbuffer)

/-- The shreds of a batch with their codes are well formed. -/
theorem IsBatch.ok_encodedParts {p : Parts} (hp : p ∈ encodedParts rs data code) :
    p.Ok proofEntriesFor3232Batch resigned := by
  rcases mem_append.mp hp with hp | hp
  · obtain ⟨q, hq, rfl⟩ := mem_map.mp hp
    exact (h.ok q (mem_append_left _ hq)).withHeaders
  rw [← map_uncurry_zip_eq_zipWith] at hp
  obtain ⟨item, hitem, rfl⟩ := mem_map.mp hp
  obtain ⟨hq, hbuffer⟩ := of_mem_zip hitem
  exact (h.ok item.1 (mem_append_right _ hq)).withHeaders.withBuffer (h.length_parity rs hq hbuffer)

lemma IsBatch.length_encodedParts : (encodedParts rs data code).length =
    dataShredsPerFecBlock + codingShredsPerFecBlock := by
  rw [encodedParts, length_append, length_map, length_zipWith, rs.length_parity,
    Nat.min_self, h.length_data, h.length_code]

/-- A batch is filled in: the shreds have their codes and the root of the previous batch, and with
their proofs they lead to one root, which is signed. -/
theorem IsBatch.finishErasureBatch (chained : Hash) :
    ∃ (root : Hash) (proofs : ℕ → List MerkleProofEntry),
      finishErasureBatch hashv rs signMessage chained ((data ++ code).map shred) =
        .ok (((encodedParts rs data code).zipIdx.map fun item =>
          (item.1.withChained chained).attach (signMessage root) (proofs item.2)).map shred,
          root)
      ∧ ∀ (i : ℕ) (p : Parts), (encodedParts rs data code)[i]? = some p →
        (proofs i).length = proofEntriesFor3232Batch.toNat
        ∧ getMerkleRoot hashv i ((p.withChained chained).node hashv) (proofs i) = .ok root := by
  obtain ⟨chainedParts, hchained⟩ : ∃ parts, parts =
      (encodedParts rs data code).map (withChained chained) := ⟨_, rfl⟩
  have hlength : (chainedParts.map (node hashv)).length =
      dataShredsPerFecBlock + codingShredsPerFecBlock := by
    rw [length_map, hchained, length_map, h.length_encodedParts]
  have hok (p : Parts) (hp : p ∈ chainedParts) : p.Ok proofEntriesFor3232Batch resigned := by
    obtain ⟨q, hq, rfl⟩ := mem_map.mp (hchained ▸ hp)
    exact (h.ok_encodedParts rs hq).withChained chained
  obtain ⟨tree, root, htree, hroot, hproof⟩ := @tree_proofs hashv
    (chainedParts.map (node hashv)) (length_pos_iff.mp (by rw [hlength]; decide))
  rw [hlength] at hproof
  have hexists (i : ℕ) : ∃ proof, ∀ p, chainedParts[i]? = some p →
      tree.makeMerkleProof i (dataShredsPerFecBlock + codingShredsPerFecBlock) = .ok proof
      ∧ proof.length = proofEntriesFor3232Batch.toNat
      ∧ getMerkleRoot hashv i (p.node hashv) proof = .ok root := by
    cases hp : chainedParts[i]? with
    | none => exact ⟨[], nofun⟩
    | some p =>
      obtain ⟨proof, hmake, hlen, hget⟩ := hproof i (p.node hashv)
        (by rw [getElem?_map, hp, Option.map_some])
      refine ⟨proof, ?_⟩
      rintro _ ⟨⟩
      exact ⟨hmake, hlen.trans (by decide), hget⟩
  choose proofs hspec using hexists
  refine ⟨root, proofs, ?_, fun i p hp => ?_⟩
  · obtain ⟨position, hlast⟩ := h.lastCodingHeader
    have hheaders : ((data ++ code).map shred).mapM Shred.writeHeaders =
        .ok (((data ++ code).map withHeaders).map shred) := by
      rw [mapM_map_eq fun p hp => (h.ok p hp).writeHeaders, map_map]
      rfl
    have hchain : ((encodedParts rs data code).map shred).mapM
        (fun s => s.setChainedMerkleRoot chained) = .ok (chainedParts.map shred) := by
      rw [mapM_map_eq fun p hp => (h.ok_encodedParts rs hp).hasBlocks.setChainedMerkleRoot chained,
        hchained,
        map_map]
      rfl
    have hnodes : (chainedParts.map shred).map (Shred.merkleNode hashv) =
        (chainedParts.map (node hashv)).map .ok := by
      rw [map_map, map_map]
      exact map_congr_left fun p hp => (hok p hp).hasBlocks.merkleNode hashv
    have hattach : (chainedParts.map shred).zipIdx.mapM (attachProof tree (signMessage root)
        (dataShredsPerFecBlock + codingShredsPerFecBlock)) =
        .ok (chainedParts.zipIdx.map fun item =>
          (item.1.attach (signMessage root) (proofs item.2)).shred) := by
      rw [zipIdx_map]
      refine mapM_map_eq fun item hitem => ?_
      have hget := mk_mem_zipIdx_iff_getElem?.mp hitem
      obtain ⟨hmake, hlen, -⟩ := hspec item.2 item.1 hget
      exact (hok item.1 (mem_of_getElem? hget)).attachProof hmake hlen
    refine bind_eq_ok.mpr ⟨_, hheaders, bind_eq_ok.mpr ⟨_, hlast, bind_eq_ok.mpr
      ⟨_, h.encodeBatch rs, bind_eq_ok.mpr ⟨_, hchain, ?_⟩⟩⟩⟩
    rw [hnodes]
    refine bind_eq_ok.mpr ⟨tree, htree, bind_eq_ok.mpr ⟨root, by rw [hroot]; rfl, bind_eq_ok.mpr
      ⟨_, hattach, ?_⟩⟩⟩
    rw [hchained, zipIdx_map, map_map, map_map]
    rfl
  · have hget : chainedParts[i]? = some (p.withChained chained) := by
      rw [hchained, getElem?_map, hp, Option.map_some]
    exact (hspec i _ hget).2

end batch
end Trezoa.Ledger
