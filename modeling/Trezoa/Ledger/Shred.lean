import Trezoa.Ledger.MerkleTree
import Trezoa.Lib.Bytes

/-!
# Merkle shreds

Models the shreds of `ledger/src/shred.rs` and `ledger/src/shred/merkle.rs`, and what is read from
their payloads without their headers (`ledger/src/shred/wire.rs`).

* `Shred`: headers and payload. A payload has the headers, the buffer, the Merkle root of the
  previous erasure batch, the Merkle proof, and room for the signature of a retransmitter.

The two types of shreds share their code: data and coding shreds are one type here, with the header
of either. Numbers of a fixed width are natural numbers, which are cut to the width where they are
written.
-/

namespace Trezoa.Ledger

open Lib

/-! ## Sizes -/

def sizeOfSignature : ℕ := 64

def sizeOfMerkleRoot : ℕ := 32

def sizeOfMerkleProofEntry : ℕ := 20

def dataShredsPerFecBlock : ℕ := 32

def codingShredsPerFecBlock : ℕ := 32

namespace ShredType

/-- The size of the common header and the one of the type. -/
def sizeOfHeaders : ShredType → ℕ
  | data => 88
  | code => 89

/-- Coding shreds fill a packet, less a nonce; what is coded of a data shred fits in one. -/
def sizeOfPayload : ShredType → ℕ
  | code => 1232 - 4
  | data => 1232 - 4 - sizeOfHeaders code + sizeOfSignature

/-- Where the part that is erasure coded begins. -/
def erasureShardStartOffset : ShredType → ℕ
  | data => sizeOfSignature
  | code => sizeOfHeaders code

end ShredType

/-! ## Headers -/

/-- 64 bytes. -/
structure Signature where
  bytes : List UInt8
  length : bytes.length = 64
deriving DecidableEq

/-- The signature of zeros. -/
def Signature.default : Signature := ⟨List.replicate 64 0, List.length_replicate⟩

inductive ShredVariant where
  | merkleCode (proofSize : UInt8) (resigned : Bool)
  | merkleData (proofSize : UInt8) (resigned : Bool)
deriving DecidableEq

namespace ShredVariant

def toByte : ShredVariant → UInt8
  | merkleCode proofSize false => proofSize ||| 0x60
  | merkleCode proofSize true => proofSize ||| 0x70
  | merkleData proofSize false => proofSize ||| 0x90
  | merkleData proofSize true => proofSize ||| 0xb0

/-- The variant of a byte; the bytes of the types without a Merkle tree are none. -/
def ofByte (byte : UInt8) : Except Error ShredVariant :=
  if byte = 0b0101_1010 ∨ byte = 0b1010_0101 then .error .invalidShredVariant
  else
    let proofSize := byte &&& 0x0F
    if byte &&& 0xF0 = 0x60 then .ok (merkleCode proofSize false)
    else if byte &&& 0xF0 = 0x70 then .ok (merkleCode proofSize true)
    else if byte &&& 0xF0 = 0x90 then .ok (merkleData proofSize false)
    else if byte &&& 0xF0 = 0xb0 then .ok (merkleData proofSize true)
    else .error .invalidShredVariant

/-- The number of entries of the proof, and whether there is room for another signature, if the
variant is one of the type. -/
def params (shredType : ShredType) : ShredVariant → Except Error (ℕ × Bool)
  | merkleCode proofSize resigned =>
    if shredType = .code then .ok (proofSize.toNat, resigned) else .error .invalidShredVariant
  | merkleData proofSize resigned =>
    if shredType = .data then .ok (proofSize.toNat, resigned) else .error .invalidShredVariant

end ShredVariant

structure ShredCommonHeader where
  signature : Signature
  shredVariant : ShredVariant
  slot : ℕ
  index : ℕ
  version : ℕ
  fecSetIndex : ℕ
deriving DecidableEq

structure DataShredHeader where
  parentOffset : ℕ
  flags : UInt8
  /-- The size of the headers and the data. -/
  size : ℕ
deriving DecidableEq

structure CodingShredHeader where
  numDataShreds : ℕ
  numCodingShreds : ℕ
  position : ℕ
deriving DecidableEq

/-- The header that comes after the common one. -/
inductive ShredHeader where
  | data (header : DataShredHeader)
  | code (header : CodingShredHeader)
deriving DecidableEq

def ShredHeader.shredType : ShredHeader → ShredType
  | data _ => .data
  | code _ => .code

/-- The common header past the signature. -/
def ShredCommonHeader.serializeRest (h : ShredCommonHeader) : List UInt8 :=
  [h.shredVariant.toByte] ++ toLeBytes 8 h.slot ++ toLeBytes 4 h.index ++ toLeBytes 2 h.version
    ++ toLeBytes 4 h.fecSetIndex

def ShredHeader.serialize : ShredHeader → List UInt8
  | data h => toLeBytes 2 h.parentOffset ++ [h.flags] ++ toLeBytes 2 h.size
  | code h => toLeBytes 2 h.numDataShreds ++ toLeBytes 2 h.numCodingShreds ++ toLeBytes 2 h.position

/-- The bytes of both headers. -/
def serializeHeaders (common : ShredCommonHeader) (header : ShredHeader) : List UInt8 :=
  common.signature.bytes ++ (common.serializeRest ++ header.serialize)

/-! ## Flags -/

def shredTickReferenceMask : UInt8 := 0b0011_1111

def dataCompleteShred : UInt8 := 0b0100_0000

/-- Also says that the data is complete. -/
def lastShredInSlot : UInt8 := 0b1100_0000

/-- Whether all bits of the second are set in the first. -/
def containsFlags (flags other : UInt8) : Bool := flags &&& other = other

/-- The flags of a tick, the greatest one for those that do not fit. -/
def fromReferenceTick (referenceTick : UInt8) : UInt8 := min shredTickReferenceMask referenceTick

/-! ## Offsets -/

/-- The size of the buffer. -/
def capacity (shredType : ShredType) (proofSize : ℕ) (resigned : Bool) : Except Error ℕ :=
  let used := shredType.sizeOfHeaders + sizeOfMerkleRoot + proofSize * sizeOfMerkleProofEntry
    + if resigned then sizeOfSignature else 0
  if used ≤ shredType.sizeOfPayload then .ok (shredType.sizeOfPayload - used)
  else .error (.invalidProofSize proofSize)

def getChainedMerkleRootOffset (shredType : ShredType) (proofSize : ℕ) (resigned : Bool) :
    Except Error ℕ :=
  (capacity shredType proofSize resigned).map (shredType.sizeOfHeaders + ·)

def getProofOffset (shredType : ShredType) (proofSize : ℕ) (resigned : Bool) : Except Error ℕ :=
  (capacity shredType proofSize resigned).map (shredType.sizeOfHeaders + · + sizeOfMerkleRoot)

/-- An option as a result. -/
def okOr {α : Type} (e : Error) : Option α → Except Error α
  | none => .error e
  | some a => .ok a

/-- Reads a part of a payload. -/
def readPayload (payload : List UInt8) (start stop : ℕ) : Except Error (List UInt8) :=
  okOr (.invalidPayloadSize payload.length) (slice? payload start stop)

/-- An entry of 20 bytes; the code unwraps. -/
def toMerkleProofEntry (bytes : List UInt8) : Except Error MerkleProofEntry :=
  if h : bytes.length = 20 then .ok ⟨bytes, h⟩ else .error .indexOutOfBounds

/-- The proof of a payload. -/
def getMerkleProof (payload : List UInt8) (proofOffset proofSize : ℕ) :
    Except Error (List MerkleProofEntry) := do
  let bytes ← readPayload payload proofOffset (proofOffset + proofSize * sizeOfMerkleProofEntry)
  (chunks sizeOfMerkleProofEntry bytes).mapM toMerkleProofEntry

/-- The leaf of a payload: the hash of a part of it. -/
def getMerkleNode (hashv : List (List UInt8) → Hash) (payload : List UInt8) (start stop : ℕ) :
    Except Error Hash :=
  (readPayload payload start stop).map fun node => hashv [merkleHashPrefixLeaf, node]

/-! ## Shreds -/

structure Shred where
  commonHeader : ShredCommonHeader
  header : ShredHeader
  payload : List UInt8
deriving DecidableEq

namespace Shred

variable (hashv : List (List UInt8) → Hash) (s : Shred)

def shredType : ShredType := s.header.shredType

def fecSetIndex : ℕ := s.commonHeader.fecSetIndex

def chainedMerkleRootOffset : Except Error ℕ := do
  let (proofSize, resigned) ← s.commonHeader.shredVariant.params s.shredType
  getChainedMerkleRootOffset s.shredType proofSize resigned

def proofOffset : Except Error ℕ := do
  let (proofSize, resigned) ← s.commonHeader.shredVariant.params s.shredType
  getProofOffset s.shredType proofSize resigned

def merkleNode : Except Error Hash := do
  getMerkleNode hashv s.payload sizeOfSignature (← s.proofOffset)

/-- Writes the Merkle root of the previous erasure batch. -/
def setChainedMerkleRoot (chainedMerkleRoot : Hash) : Except Error Shred := do
  let offset ← s.chainedMerkleRootOffset
  let payload ← okOr (.invalidPayloadSize s.payload.length)
    (copyAt? s.payload offset chainedMerkleRoot.bytes)
  return { s with payload := payload }

/-- Writes a proof, which must have as many entries as the variant says. -/
def setMerkleProof (proof : Except Error (List MerkleProofEntry)) : Except Error Shred := do
  let (proofSize, _) ← s.commonHeader.shredVariant.params s.shredType
  let offset ← s.proofOffset
  let entries ← if s.payload.length < offset then .error (.invalidProofSize proofSize) else proof
  let payload ← okOr .io
    (copyAt? s.payload offset ((entries.take proofSize).map MerkleProofEntry.bytes).flatten)
  if entries.length ≠ proofSize then .error .invalidMerkleProof
  else return { s with payload := payload }

/-- Writes a signature to the header and the payload. -/
def setSignature (signature : Signature) : Except Error Shred := do
  let payload ← okOr .indexOutOfBounds (copyAt? s.payload 0 signature.bytes)
  return { s with payload := payload, commonHeader.signature := signature }

/-- Where the part that is erasure coded is. -/
def erasureShardOffsets : Except Error (ℕ × ℕ) :=
  if s.payload.length ≠ s.shredType.sizeOfPayload then .error (.invalidPayloadSize s.payload.length)
  else do
    let (proofSize, resigned) ← s.commonHeader.shredVariant.params s.shredType
    let capacity ← capacity s.shredType proofSize resigned
    return (s.shredType.erasureShardStartOffset, s.shredType.sizeOfHeaders + capacity)

/-- The part that is erasure coded. -/
def erasureShard : Except Error (List UInt8) := do
  let (start, stop) ← s.erasureShardOffsets
  readPayload s.payload start stop

/-- Overwrites the part that is erasure coded. -/
def setErasureShard (shard : List UInt8) : Except Error Shred := do
  let (start, _) ← s.erasureShardOffsets
  let payload ← okOr (.invalidPayloadSize s.payload.length) (copyAt? s.payload start shard)
  return { s with payload := payload }

end Shred

/-! ## Payloads -/

namespace layout

variable (hashv : List (List UInt8) → Hash) (shred : List UInt8)

def getSignature : Option (List UInt8) := slice? shred 0 64

def getShredVariant : Except Error ShredVariant := do
  let byte ← okOr (.invalidPayloadSize shred.length) shred[64]?
  ShredVariant.ofByte byte

def getShredType : Except Error ShredType :=
  (getShredVariant shred).map fun
    | .merkleCode .. => .code
    | .merkleData .. => .data

def getSlot : Option ℕ := (slice? shred 65 (65 + 8)).map ofLeBytes

def getIndex : Option ℕ := (slice? shred 73 (73 + 4)).map ofLeBytes

def getVersion : Option ℕ := (slice? shred 77 (77 + 2)).map ofLeBytes

def getFecSetIndex : Option ℕ := (slice? shred 79 (79 + 4)).map ofLeBytes

def getParentOffset : Option ℕ := (slice? shred 83 (83 + 2)).map ofLeBytes

/-- All bits have a name, so that there is no invalid byte. -/
def getFlags : Except Error UInt8 := do
  match ← getShredType shred with
  | .code => .error .invalidShredType
  | .data => okOr (.invalidPayloadSize shred.length) shred[85]?

def getDataSize : Except Error ℕ :=
  (readPayload shred 86 (86 + 2)).map ofLeBytes

/-- The data of a payload of a variant, by the size of its header. -/
def dataOf (proofSize : ℕ) (resigned : Bool) (size : ℕ) : Except Error (List UInt8) := do
  let dataBufferSize ← capacity .data proofSize resigned
  if ShredType.data.sizeOfHeaders ≤ size ∧ size ≤ ShredType.data.sizeOfHeaders + dataBufferSize then
    okOr (.invalidDataSize size shred.length) (slice? shred ShredType.data.sizeOfHeaders size)
  else .error (.invalidDataSize size shred.length)

def getData : Except Error (List UInt8) := do
  match ← getShredVariant shred with
  | .merkleCode .. => .error .invalidShredType
  | .merkleData proofSize resigned => dataOf shred proofSize.toNat resigned (← getDataSize shred)

/-- The root from the leaf at a position and the proof. -/
def merkleRootOf (shredType : ShredType) (proofSize : ℕ) (resigned : Bool) (index : ℕ) :
    Except Error Hash := do
  let proofOffset ← getProofOffset shredType proofSize resigned
  let proof ← getMerkleProof shred proofOffset proofSize
  let node ← getMerkleNode hashv shred sizeOfSignature proofOffset
  Ledger.getMerkleRoot hashv index node proof

/-- The position of a data shred in its erasure batch. -/
def dataPosition : Option ℕ := do
  let fecSetIndex ← getFecSetIndex shred
  let index ← getIndex shred
  if fecSetIndex ≤ index then some (index - fecSetIndex) else none

/-- The position of a coding shred in its erasure batch. -/
def codePosition : Option ℕ := do
  let numDataShreds ← (slice? shred 83 85).map ofLeBytes
  let position ← (slice? shred 87 89).map ofLeBytes
  return numDataShreds + position

def getMerkleRoot : Option Hash := do
  match ← (getShredVariant shred).toOption with
  | .merkleCode proofSize resigned =>
    (merkleRootOf hashv shred .code proofSize.toNat resigned (← codePosition shred)).toOption
  | .merkleData proofSize resigned =>
    (merkleRootOf hashv shred .data proofSize.toNat resigned (← dataPosition shred)).toOption

def getChainedMerkleRoot : Option (List UInt8) := do
  match ← (getShredVariant shred).toOption with
  | .merkleCode proofSize resigned =>
    let offset ← (getChainedMerkleRootOffset .code proofSize.toNat resigned).toOption
    slice? shred offset (offset + sizeOfMerkleRoot)
  | .merkleData proofSize resigned =>
    let offset ← (getChainedMerkleRootOffset .data proofSize.toNat resigned).toOption
    slice? shred offset (offset + sizeOfMerkleRoot)

end layout
end Trezoa.Ledger
