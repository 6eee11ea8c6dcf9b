import Trezoa.Ledger.EntryVerification
import Trezoa.Lib.Bytes

/-!
# Verification of entries in lanes

`verify_cpu_x86_simd` hands the start hashes of the entries to a vector routine, a chunk of lanes at
a time, and does the last hash of each entry itself. The lanes behind the last entry are padding.

* `checkLane_eq_verify`: in a lane an entry is checked as in the scalar code, unless that panics: an
  entry with transactions and `u64::MAX` hashes leaves no hash to record them.
-/

namespace Trezoa.Ledger

open Lib List

variable {Hash Tx : Type} [DecidableEq Hash]

/-- The vector routines of `api()`: a chunk of start hashes, and how often to hash each. -/
structure SimdApi (Hash : Type) where
  pohVerifyManySimdAvx2 : List Hash → List ℕ → List Hash
  pohVerifyManySimdAvx512skx : List Hash → List ℕ → List Hash

/-- The routine for a lane count; there is a panic for other counts. -/
def SimdApi.routine (api : SimdApi Hash) : ℕ → Option (List Hash → List ℕ → List Hash)
  | 8 => some api.pohVerifyManySimdAvx2
  | 16 => some api.pohVerifyManySimdAvx512skx
  | _ => none

section lanes
variable (hasher : EntryHasher Hash Tx)

/-- `compare_hashes`; a panic is not a pass. -/
def compareHashes (computedHash : Hash) (refEntry : Entry Hash Tx) : Bool :=
  let actual :=
    if !refEntry.transactions.isEmpty then
      ((Poh.new computedHash).record hasher (hasher.hashTransactions refEntry.transactions)).map
        Poh.hash
    else if 0 < refEntry.numHashes then ((Poh.new computedHash).tick hasher).map Poh.hash
    else some computedHash
  actual = some refEntry.hash

/-- One chunk of `verify_cpu_x86_simd`: the entries of its lanes against what the routine
returns. -/
def verifyChunk (routine : List Hash → List ℕ → List Hash) (simdLen : ℕ)
    (entries : List (Entry Hash Tx)) (i : ℕ) (chunk : List Hash) (numHashes : List ℕ) : Bool :=
  let chunk := routine chunk numHashes
  let entryStart := i * simdLen
  let entryEnd := min (entryStart + simdLen) entries.length
  ((entries.take entryEnd).drop entryStart).zipIdx.all fun x =>
    chunk[x.2]?.any fun hash => compareHashes hasher hash x.1

/-- `verify_cpu_x86_simd`; the buffer of start hashes is filled up with `zero`. -/
def verifyCpuX86Simd (api : SimdApi Hash) (zero startHash : Hash) (simdLen : ℕ)
    (entries : List (Entry Hash Tx)) : Bool :=
  let alignedLen := (entries.length + simdLen - 1) / simdLen * simdLen
  let padding := alignedLen - entries.length
  let hashes := (startHash :: entries.map (·.hash)).take entries.length ++ replicate padding zero
  let numHashes := entries.map (·.numHashes - 1) ++ replicate padding 0
  ((chunks simdLen hashes).zip (chunks simdLen numHashes)).zipIdx.all fun x =>
    (api.routine simdLen).any fun routine =>
      verifyChunk hasher routine simdLen entries x.2 x.1.1 x.1.2

/-- The hash of each lane, hashed the given number of times. -/
def hashLanes : List Hash → List ℕ → List Hash := zipWith fun hash n => hasher.hash^[n] hash

/-- The routines hash each lane the given number of times. -/
def SimdApi.HashesLanes (api : SimdApi Hash) : Prop :=
  ∀ simdLen, ∀ routine ∈ api.routine simdLen, ∀ chunk numHashes, chunk.length = simdLen →
    numHashes.length = simdLen → routine chunk numHashes = hashLanes hasher chunk numHashes

/-- The check of one entry in its lane. -/
def checkLane (x : Hash × Entry Hash Tx) : Bool :=
  compareHashes hasher (hasher.hash^[x.2.numHashes - 1] x.1) x.2

end lanes

variable {hasher : EntryHasher Hash Tx} {api : SimdApi Hash} {entries : List (Entry Hash Tx)}

/-- The lanes of a chunk that have an entry. -/
lemma all_lanes {chunk : List Hash} {numHashes : List ℕ} (hlen : entries.length ≤ chunk.length)
    (hnum : entries.map (·.numHashes - 1) <+: numHashes) :
    (entries.zipIdx.all fun x => (hashLanes hasher chunk numHashes)[x.2]?.any fun hash =>
      compareHashes hasher hash x.1) = (chunk.zip entries).all (checkLane hasher) := by
  induction entries generalizing chunk numHashes with
  | nil => simp
  | cons entry entries ih =>
    obtain ⟨numHashes, rfl, hrest⟩ := cons_prefix_iff.mp hnum
    obtain _ | ⟨hash, chunk⟩ := chunk
    · simp at hlen
    rw [zipIdx_cons', all_cons, all_map, zip_cons_cons, all_cons, ← ih (by simpa using hlen) hrest]
    rfl

section chunks
variable {simdLen : ℕ} (hapi : api.HashesLanes hasher)
include hapi

/-- The chunks from the one at `i` on, whose first entry is the first one of `rest`. -/
lemma all_chunks {routine : List Hash → List ℕ → List Hash}
    (hroutine : api.routine simdLen = some routine) (hlen : 0 < simdLen) {count i : ℕ}
    {hashes : List Hash} {numHashes : List ℕ} {rest : List (Entry Hash Tx)}
    (hrest : entries.drop (i * simdLen) = rest) (hhashes : hashes.length = count * simdLen)
    (hnumLen : numHashes.length = count * simdLen)
    (hnum : rest.map (·.numHashes - 1) <+: numHashes) :
    (((chunks simdLen hashes).zip (chunks simdLen numHashes)).zipIdx i).all (fun x =>
        verifyChunk hasher routine simdLen entries x.2 x.1.1 x.1.2) =
      (hashes.zip rest).all (checkLane hasher) := by
  induction count generalizing i hashes numHashes rest with
  | zero =>
    obtain rfl : hashes = [] := eq_nil_of_length_eq_zero (by omega)
    simp
  | succ count ih =>
    rw [Nat.succ_mul] at hhashes hnumLen
    have hslice : (entries.take (min (i * simdLen + simdLen) entries.length)).drop (i * simdLen) =
        rest.take simdLen := by
      rw [take_eq_take_iff.mpr (min_eq_left (min_le_right _ _)), drop_take, hrest,
        Nat.add_sub_cancel_left]
    rw [@chunks_cons _ _ hashes hlen (length_pos_iff.mp (by omega)),
      @chunks_cons _ _ numHashes hlen (length_pos_iff.mp (by omega)), zip_cons_cons, zipIdx_cons,
      all_cons, ← take_append_drop simdLen (hashes.zip rest), all_append, zip_eq_zipWith,
      zip_eq_zipWith, take_zipWith, drop_zipWith]
    congr 1
    · dsimp only [verifyChunk]
      rw [hslice, hapi simdLen routine hroutine _ _ (length_take_of_le (by omega))
        (length_take_of_le (by omega))]
      refine all_lanes ?_ ?_
      · simp only [length_take]
        omega
      · rw [map_take]
        exact hnum.take simdLen
    · refine ih ?_ (by rw [length_drop]; omega) (by rw [length_drop]; omega) ?_
      · rw [← hrest, drop_drop, Nat.succ_mul]
      · rw [map_drop]
        exact hnum.drop simdLen

/-- The check in lanes is a check of every entry. -/
theorem verifyCpuX86Simd_eq_all (hlanes : simdLen = 8 ∨ simdLen = 16) (zero startHash : Hash)
    (entries : List (Entry Hash Tx)) :
    verifyCpuX86Simd hasher api zero startHash simdLen entries =
      ((startHash :: entries.map (·.hash)).zip entries).all (checkLane hasher) := by
  obtain ⟨routine, hroutine⟩ : ∃ routine, api.routine simdLen = some routine := by
    rcases hlanes with rfl | rfl <;> exact ⟨_, rfl⟩
  have hpos : 0 < simdLen := by omega
  have hpad : entries.length ≤ (entries.length + simdLen - 1) / simdLen * simdLen := by
    have := @Nat.lt_div_mul_add (entries.length + simdLen - 1) _ hpos
    omega
  set hashes := startHash :: entries.map (·.hash) with hdef
  have hstarts : (hashes.take entries.length).length = entries.length := by simp [hdef]
  -- only the first hashes have an entry behind them
  have hzip : ∀ tail, (hashes.take entries.length ++ tail).zip entries =
      (hashes.take entries.length).zip entries := by
    intro tail
    simpa using @zip_append _ _ _ tail _ [] hstarts
  unfold verifyCpuX86Simd
  simp only [hroutine, Option.any_some]
  rw [all_chunks hapi hroutine hpos (by rw [Nat.zero_mul, drop_zero])
    (by rw [length_append, hstarts, length_replicate, Nat.add_sub_cancel' hpad])
    (by rw [length_append, length_map, length_replicate, Nat.add_sub_cancel' hpad])
    (prefix_append _ _), hzip, ← hzip (hashes.drop _), take_append_drop]

end chunks

/-- In a lane an entry is checked as `Entry::verify` does, unless that panics. -/
lemma checkLane_eq_verify {entry : Entry Hash Tx} (hmax : entry.numHashes ≤ u64Max)
    (hrecord : entry.transactions ≠ [] → entry.numHashes ≠ u64Max) {startHash : Hash} :
    checkLane hasher (startHash, entry) = entry.verify hasher startHash := by
  have hpos : 1 < u64Max := by decide
  have hiter : min (u64Max - 1) (entry.numHashes - 1) = entry.numHashes - 1 := by omega
  unfold checkLane compareHashes Entry.verify nextHash
  by_cases htick : entry.transactions = []
  · by_cases hzero : entry.numHashes = 0
    · simp [htick, hzero]
    · simp [htick, hzero, Poh.tick, Poh.new, Poh.hashUpTo, hiter, Nat.pos_of_ne_zero hzero]
  · have hleft : u64Max - (entry.numHashes - 1) ≠ 1 := by
      have := hrecord htick
      omega
    simp [htick, Poh.record, Poh.new, Poh.hashUpTo, hiter, hleft, hpos.ne']

/-- The check in lanes passes exactly when the scalar one does, unless that one panics. -/
theorem verifyCpuX86Simd_eq_generic (hapi : api.HashesLanes hasher) {simdLen : ℕ}
    (hlanes : simdLen = 8 ∨ simdLen = 16) (zero startHash : Hash) {entries : List (Entry Hash Tx)}
    (hmax : ∀ entry ∈ entries, entry.numHashes ≤ u64Max)
    (hrecord : ∀ entry ∈ entries, entry.transactions ≠ [] → entry.numHashes ≠ u64Max) :
    verifyCpuX86Simd hasher api zero startHash simdLen entries =
      verifyCpuGeneric hasher startHash entries ∧
    (verifyCpuGeneric hasher startHash entries = true ↔ ChainsFrom hasher startHash entries) := by
  refine ⟨?_, verifyCpuGeneric_iff⟩
  rw [verifyCpuX86Simd_eq_all hapi hlanes, verifyCpuGeneric, Bool.eq_iff_iff, all_eq_true,
    all_eq_true]
  refine forall₂_congr fun x hx => ?_
  have hmem := (of_mem_zip hx).2
  rw [checkLane_eq_verify (hmax _ hmem) (hrecord _ hmem)]

/-- Routines as they should be. -/
def laneApi (hasher : EntryHasher Hash Tx) : SimdApi Hash := ⟨hashLanes hasher, hashLanes hasher⟩

omit [DecidableEq Hash] in
lemma laneApi_hashesLanes : (laneApi hasher).HashesLanes hasher := by
  intro simdLen routine hroutine chunk numHashes _ _
  unfold SimdApi.routine at hroutine
  split at hroutine <;> cases hroutine <;> rfl

/-- After `u64::MAX - 1` hashes `Poh::record` returns `None`. -/
theorem verifyCpuX86Simd_accepts_unrecorded :
    (laneApi mixHasher).HashesLanes mixHasher ∧
    verifyCpuX86Simd mixHasher (laneApi mixHasher) 0 0 8 [⟨u64Max, 7, [7]⟩] = true ∧
    verifyCpuGeneric mixHasher 0 [⟨u64Max, 7, [7]⟩] = false := by
  refine ⟨laneApi_hashesLanes, ?_, rfl⟩
  rw [verifyCpuX86Simd_eq_all laneApi_hashesLanes (.inl rfl)]
  have hid : mixHasher.hash^[u64Max - 1] 0 = 0 := congrFun (Function.iterate_id _) 0
  simp only [zip_cons_cons, zip_nil_right, all_cons, all_nil, checkLane, hid]
  rfl

theorem verifyCpuX86Simd_eq_generic_twoEntries :
    verifyCpuX86Simd someHasher (laneApi someHasher) 0 0 8 [⟨2, 107, [7]⟩, ⟨0, 107, []⟩] = true :=
  (verifyCpuX86Simd_eq_generic laneApi_hashesLanes (.inl rfl) 0 0 (by decide) (by decide)).1

end Trezoa.Ledger
