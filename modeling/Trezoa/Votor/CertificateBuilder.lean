import Trezoa.Lib.Fallible
import Trezoa.Votor.Certificate

/-!
# The certificate builder

`votor/src/consensus_pool/certificate_builder.rs`: from the vote messages that support a certificate
to the certificate, with an aggregate signature and a bitmap of the ranks.

* `BuilderType.aggregate`, `BuilderType.build`: the builder.

A bitmap of the source has `MAXIMUM_VALIDATORS` bits and is cut after the last set bit before it is
encoded.
-/

namespace Trezoa.Votor

open Lib List Except

variable {σ π β : Type}

def maximumValidators : ℕ := 4096

/-- `BitVec<u8, Lsb0>`, with the length of `default_bitvec`. -/
abbrev Bitmap := BitVec maximumValidators

inductive AggregateError where
  | bls
  | invalidRank (rank : ℕ)
  | validatorAlreadyIncluded
  | invalidVoteTypes
  deriving DecidableEq

inductive BuildError where
  | bls
  | encode
  | invalidRank (rank : ℕ)
  deriving DecidableEq

/-- `last_one().map_or(0, |i| i.saturating_add(1))`. -/
def newLen {n : ℕ} (bitmap : BitVec n) : ℕ :=
  if bitmap = 0 then 0 else bitmap.toNat.log2 + 1

def buildCertFromBitmap (backend : Backend σ π β) (certType : CertificateType) (signature : π)
    (bitmap : Bitmap) : Except BuildError (Certificate σ β) :=
  let newLen := newLen bitmap
  if maximumValidators < newLen then .error (.invalidRank newLen)
  else
    match backend.encodeBase2 (bitmap.setWidth newLen) with
    | none => .error .encode
    | some bitmap => .ok ⟨certType, backend.into signature, bitmap⟩

def buildCertFromBitmaps (backend : Backend σ π β) (certType : CertificateType) (signature : π)
    (bitmap0 bitmap1 : Bitmap) : Except BuildError (Certificate σ β) :=
  let newLen := max (newLen bitmap0) (newLen bitmap1)
  if maximumValidators < newLen then .error (.invalidRank newLen)
  else
    match backend.encodeBase3 (bitmap0.setWidth newLen) (bitmap1.setWidth newLen) with
    | none => .error .encode
    | some bitmap => .ok ⟨certType, backend.into signature, bitmap⟩

def trySetBitmap (bitmap : Bitmap) (rank : ℕ) : Except AggregateError Bitmap :=
  if maximumValidators ≤ rank then .error (.invalidRank rank)
  else if bitmap.getLsbD rank then .error .validatorAlreadyIncluded
  else .ok (bitmap ||| BitVec.twoPow _ rank)

inductive BuilderType (π : Type) where
  | singleVote (signature : π) (bitmap : Bitmap)
  | doubleVote (signature : π) (bitmap0 : Bitmap) (bitmap1 : Option Bitmap)

namespace BuilderType

def new (backend : Backend σ π β) : CertificateType → BuilderType π
  | .notarizeFallback _ _ | .skip _ => .doubleVote backend.identity 0 none
  | .finalize _ | .finalizeFast _ _ | .notarize _ _ | .genesis _ _ => .singleVote backend.identity 0

/-- The body of the loop of `aggregate` for a builder of one kind of votes. -/
def addSingle (vote : Vote) (bitmap : Bitmap) (msg : VoteMessage σ) :
    Except AggregateError Bitmap :=
  if msg.vote ≠ vote then .error .invalidVoteTypes else trySetBitmap bitmap msg.rank

/-- The body of the loop of `aggregate` for a builder of two kinds of votes. -/
def addDouble (vote fallbackVote : Vote) (bitmaps : Bitmap × Option Bitmap)
    (msg : VoteMessage σ) : Except AggregateError (Bitmap × Option Bitmap) := do
  if msg.vote = vote then
    return (← trySetBitmap bitmaps.1 msg.rank, bitmaps.2)
  else if msg.vote ≠ fallbackVote then
    throw .invalidVoteTypes
  else
    match bitmaps.2 with
    | some bitmap => return (bitmaps.1, some (← trySetBitmap bitmap msg.rank))
    | none => return (bitmaps.1, some (← trySetBitmap 0 msg.rank))

/-- `signature.aggregate_with(msgs.iter().map(|m| &m.signature))?`. -/
def aggregateSignatures (backend : Backend σ π β) (signature : π) (msgs : List (VoteMessage σ)) :
    Except AggregateError π :=
  match backend.aggregateWith signature (msgs.map (·.signature)) with
  | none => .error .bls
  | some signature => .ok signature

def aggregate (backend : Backend σ π β) (certType : CertificateType) (msgs : List (VoteMessage σ)) :
    BuilderType π → Except AggregateError (BuilderType π)
  | .doubleVote signature bitmap0 bitmap1 => do
    match certType.fallbackVote with
    | none => throw .invalidVoteTypes
    | some fallbackVote =>
      let (bitmap0, bitmap1) ←
        msgs.foldlM (addDouble certType.mainVote fallbackVote) (bitmap0, bitmap1)
      let signature ← aggregateSignatures backend signature msgs
      return .doubleVote signature bitmap0 bitmap1
  | .singleVote signature bitmap => do
    if certType.fallbackVote.isSome then
      throw .invalidVoteTypes
    else
      let bitmap ← msgs.foldlM (addSingle certType.mainVote) bitmap
      let signature ← aggregateSignatures backend signature msgs
      return .singleVote signature bitmap

def build (backend : Backend σ π β) (certType : CertificateType) :
    BuilderType π → Except BuildError (Certificate σ β)
  | .singleVote signature bitmap => buildCertFromBitmap backend certType signature bitmap
  | .doubleVote signature bitmap0 none => buildCertFromBitmap backend certType signature bitmap0
  | .doubleVote signature bitmap0 (some bitmap1) =>
    buildCertFromBitmaps backend certType signature bitmap0 bitmap1

end BuilderType

/-- The use of the builder in `build_certs`: the errors of `aggregate` are unwrapped, the one of
`build` is returned. `fallbackMsgs` is only aggregated where the certificate has a fallback vote. -/
def buildCertificate (backend : Backend σ π β) (certType : CertificateType)
    (msgs fallbackMsgs : List (VoteMessage σ)) :
    Except Panic (Except BuildError (Certificate σ β)) := do
  let builder ← unwrap ((BuilderType.new backend certType).aggregate backend certType msgs)
  let builder ←
    if certType.fallbackVote.isSome then
      unwrap (builder.aggregate backend certType fallbackMsgs)
    else
      pure builder
  return builder.build backend certType

/-! ## The ranks in a bitmap -/

section ranks
variable {bitmap bitmap' : Bitmap} {rank r : ℕ} {ranks : List ℕ}

lemma trySetBitmap_eq_ok : trySetBitmap bitmap rank = .ok bitmap' ↔
    rank < maximumValidators ∧ bitmap.getLsbD rank = false ∧
      bitmap' = bitmap ||| BitVec.twoPow _ rank := by
  unfold trySetBitmap
  split_ifs with hlt hset
  · simp [hlt]
  · simp [hset]
  rw [ok.injEq]
  constructor
  · rintro rfl
    exact ⟨not_le.mp hlt, Bool.eq_false_of_not_eq_true hset, rfl⟩
  · rintro ⟨-, -, rfl⟩
    rfl

/-- Set the bits of a list of ranks. -/
def setRanks (bitmap : Bitmap) (ranks : List ℕ) : Except AggregateError Bitmap :=
  ranks.foldlM trySetBitmap bitmap

/-- The ranks of the list are added. -/
lemma getLsbD_setRanks (h : setRanks bitmap ranks = .ok bitmap') :
    bitmap'.getLsbD r = true ↔ bitmap.getLsbD r = true ∨ r ∈ ranks := by
  induction ranks generalizing bitmap with
  | nil =>
    cases h
    simp
  | cons rank ranks ih =>
    obtain ⟨bitmap₁, hset, h⟩ := foldlM_cons_eq_ok.mp h
    obtain ⟨hlt, -, rfl⟩ := trySetBitmap_eq_ok.mp hset
    rw [ih h, BitVec.getLsbD_or, BitVec.getLsbD_twoPow, mem_cons, ← or_assoc,
      Bool.or_eq_true, Bool.and_eq_true, decide_eq_true_iff, decide_eq_true_iff,
      and_iff_right hlt, eq_comm (a := rank)]

/-- New distinct ranks can be added. -/
lemma setRanks_of_nodup (hnodup : ranks.Nodup) (hlt : ∀ rank ∈ ranks, rank < maximumValidators)
    (hnew : ∀ rank ∈ ranks, bitmap.getLsbD rank = false) :
    ∃ bitmap', setRanks bitmap ranks = .ok bitmap' := by
  induction ranks generalizing bitmap with
  | nil => exact ⟨bitmap, rfl⟩
  | cons rank ranks ih =>
    obtain ⟨hmem, hnodup⟩ := nodup_cons.mp hnodup
    have hset := trySetBitmap_eq_ok.mpr ⟨hlt rank (.head _), hnew rank (.head _), rfl⟩
    have hnew' : ∀ r ∈ ranks, (bitmap ||| BitVec.twoPow _ rank).getLsbD r = false := by
      intro r hr
      have hne : rank ≠ r := by
        rintro rfl
        exact hmem hr
      simp [hnew r (.tail _ hr), BitVec.getLsbD_twoPow, hne]
    obtain ⟨bitmap', h⟩ := ih hnodup (fun r hr => hlt r (.tail _ hr)) hnew'
    exact ⟨bitmap', foldlM_cons_eq_ok.mpr ⟨_, hset, h⟩⟩

/-- Every set bit is below the new length. -/
lemma lt_newLen {n : ℕ} {bitmap : BitVec n} (h : bitmap.getLsbD r = true) : r < newLen bitmap := by
  unfold newLen
  split
  · next hzero => simp [hzero] at h
  by_contra! hle
  have hlt : bitmap.toNat < 2 ^ r :=
    Nat.lt_log2_self.trans_le (Nat.pow_le_pow_right (by decide) hle)
  rw [BitVec.getLsbD, Nat.testBit_lt_two_pow hlt] at h
  cases h

lemma newLen_le {n : ℕ} (bitmap : BitVec n) : newLen bitmap ≤ n := by
  unfold newLen
  split
  · exact n.zero_le
  · next hzero =>
    have hpos : bitmap.toNat ≠ 0 := fun h => hzero (BitVec.eq_of_toNat_eq (by simpa using h))
    exact (Nat.log2_lt hpos).mpr bitmap.isLt

/-- Cutting a bitmap after its last bit keeps its ranks. -/
lemma getLsbD_setWidth_of_newLen_le {n m : ℕ} {bitmap : BitVec n} (h : newLen bitmap ≤ m) :
    (bitmap.setWidth m).getLsbD r = bitmap.getLsbD r := by
  rw [BitVec.getLsbD_setWidth]
  by_cases hr : bitmap.getLsbD r = true
  · simp [(lt_newLen hr).trans_le h]
  · simp [hr]

end ranks

/-! ## What is aggregated -/

namespace BuilderType

variable {backend : Backend σ π β} {certType : CertificateType} {msgs : List (VoteMessage σ)}
  {vote fallbackVote : Vote} {signature : π} {bitmap bitmap0 : Bitmap} {bitmap1 : Option Bitmap}

lemma new_of_fallbackVote_eq_none (h : certType.fallbackVote = none) :
    new backend certType = .singleVote backend.identity 0 := by
  cases certType <;> first | rfl | cases h

lemma new_of_fallbackVote_eq_some (h : certType.fallbackVote = some vote) :
    new backend certType = .doubleVote backend.identity 0 none := by
  cases certType <;> first | rfl | cases h

lemma foldlM_addSingle (hvotes : ∀ msg ∈ msgs, msg.vote = vote) :
    msgs.foldlM (addSingle vote) bitmap = setRanks bitmap (msgs.map (·.rank)) := by
  induction msgs generalizing bitmap with
  | nil => rfl
  | cons msg msgs ih =>
    obtain ⟨hvote, hvotes⟩ := forall_mem_cons.mp hvotes
    have hadd : addSingle vote bitmap msg = trySetBitmap bitmap msg.rank :=
      if_neg (not_not.mpr hvote)
    rw [foldlM_cons, hadd]
    exact congrArg _ (funext fun bitmap => ih hvotes)

/-- The votes set bits in the first bitmap. -/
lemma foldlM_addDouble (hvotes : ∀ msg ∈ msgs, msg.vote = vote) :
    msgs.foldlM (addDouble vote fallbackVote) (bitmap0, bitmap1) =
      (setRanks bitmap0 (msgs.map (·.rank))).map (·, bitmap1) := by
  induction msgs generalizing bitmap0 with
  | nil => rfl
  | cons msg msgs ih =>
    obtain ⟨hvote, hvotes⟩ := forall_mem_cons.mp hvotes
    have hadd : addDouble vote fallbackVote (bitmap0, bitmap1) msg =
        (trySetBitmap bitmap0 msg.rank).map (·, bitmap1) := by
      unfold addDouble
      rw [if_pos hvote]
      cases trySetBitmap bitmap0 msg.rank <;> rfl
    rw [foldlM_cons, hadd, map_cons, setRanks, foldlM_cons]
    cases trySetBitmap bitmap0 msg.rank with
    | error e => rfl
    | ok bitmap => exact ih hvotes

/-- A fallback vote sets a bit in the second bitmap, which is made for the first one. -/
lemma addDouble_fallback {msg : VoteMessage σ} (hne : fallbackVote ≠ vote)
    (hvote : msg.vote = fallbackVote) :
    addDouble vote fallbackVote (bitmap0, bitmap1) msg =
      (trySetBitmap (bitmap1.getD 0) msg.rank).map fun bitmap => (bitmap0, some bitmap) := by
  unfold addDouble
  rw [if_neg (hvote ▸ hne), if_neg (not_not.mpr hvote)]
  cases bitmap1 with
  | none =>
    show (trySetBitmap 0 msg.rank >>= _) = Except.map _ (trySetBitmap 0 msg.rank)
    cases trySetBitmap 0 msg.rank <;> rfl
  | some bitmap => cases trySetBitmap bitmap msg.rank <;> rfl

/-- The fallback votes set bits in the second bitmap. -/
lemma foldlM_addDouble_fallback (hne : fallbackVote ≠ vote) (hmsgs : msgs ≠ [])
    (hvotes : ∀ msg ∈ msgs, msg.vote = fallbackVote) :
    msgs.foldlM (addDouble vote fallbackVote) (bitmap0, bitmap1) =
      (setRanks (bitmap1.getD 0) (msgs.map (·.rank))).map fun bitmap => (bitmap0, some bitmap) := by
  induction msgs generalizing bitmap1 with
  | nil => exact absurd rfl hmsgs
  | cons msg msgs ih =>
    obtain ⟨hvote, hvotes⟩ := forall_mem_cons.mp hvotes
    rw [foldlM_cons, addDouble_fallback hne hvote, map_cons, setRanks, foldlM_cons]
    cases trySetBitmap (bitmap1.getD 0) msg.rank with
    | error e => rfl
    | ok bitmap =>
      rcases eq_or_ne msgs [] with rfl | hmsgs
      · rfl
      · exact ih hmsgs hvotes

/-- The bitmap of the fallback votes: there is none without such a vote. -/
def fallbackBitmap (ranks : List ℕ) : Except AggregateError (Option Bitmap) :=
  if ranks = [] then .ok none else some <$> setRanks 0 ranks

lemma aggregate_singleVote (hnone : certType.fallbackVote = none)
    (hvotes : ∀ msg ∈ msgs, msg.vote = certType.mainVote) :
    aggregate backend certType msgs (.singleVote signature bitmap) = do
      let bitmap ← setRanks bitmap (msgs.map (·.rank))
      let signature ← aggregateSignatures backend signature msgs
      return .singleVote signature bitmap := by
  simp only [aggregate, hnone, foldlM_addSingle hvotes]
  rfl

lemma aggregate_doubleVote (hsome : certType.fallbackVote = some fallbackVote)
    (hvotes : ∀ msg ∈ msgs, msg.vote = certType.mainVote) :
    aggregate backend certType msgs (.doubleVote signature bitmap0 bitmap1) = do
      let bitmap0 ← setRanks bitmap0 (msgs.map (·.rank))
      let signature ← aggregateSignatures backend signature msgs
      return .doubleVote signature bitmap0 bitmap1 := by
  simp only [aggregate, hsome, foldlM_addDouble hvotes]
  cases setRanks bitmap0 (msgs.map (·.rank)) <;> rfl

lemma aggregate_doubleVote_fallback (hsome : certType.fallbackVote = some fallbackVote)
    (hvotes : ∀ msg ∈ msgs, msg.vote = fallbackVote) :
    aggregate backend certType msgs (.doubleVote signature bitmap0 none) = do
      let bitmap1 ← fallbackBitmap (msgs.map (·.rank))
      let signature ← aggregateSignatures backend signature msgs
      return .doubleVote signature bitmap0 bitmap1 := by
  rcases eq_or_ne msgs [] with rfl | hmsgs
  · simp only [aggregate, hsome]
    rfl
  have hne := CertificateType.fallbackVote_ne_mainVote hsome
  simp only [aggregate, hsome, foldlM_addDouble_fallback hne hmsgs hvotes, fallbackBitmap,
    map_eq_nil_iff, if_neg hmsgs, Option.getD_none]
  cases setRanks 0 (msgs.map (·.rank)) <;> rfl

end BuilderType

/-! ## What is built -/

section build
variable {backend : Backend σ π β} {certType : CertificateType} {fallbackVote : Vote}
  {msgs fallbackMsgs : List (VoteMessage σ)} {cert : Certificate σ β}

open BuilderType

lemma unwrap_bind {ε α γ : Type} (x : Except ε α) (f : α → Except ε γ) :
    unwrap (x >>= f) = unwrap x >>= fun a => unwrap (f a) := by
  cases x <;> rfl

lemma unwrap_eq_ok {ε α : Type} {x : Except ε α} {a : α} : unwrap x = .ok a ↔ x = .ok a := by
  cases x <;> simp [unwrap]

/-- A certificate of one kind of votes. -/
lemma buildCertificate_single (hnone : certType.fallbackVote = none)
    (hvotes : ∀ msg ∈ msgs, msg.vote = certType.mainVote) :
    buildCertificate backend certType msgs fallbackMsgs = do
      let bitmap ← unwrap (setRanks 0 (msgs.map (·.rank)))
      let signature ← unwrap (aggregateSignatures backend backend.identity msgs)
      return buildCertFromBitmap backend certType signature bitmap := by
  unfold buildCertificate
  rw [new_of_fallbackVote_eq_none hnone, aggregate_singleVote hnone hvotes, hnone, unwrap_bind]
  cases setRanks 0 (msgs.map (·.rank)) with
  | error e => rfl
  | ok bitmap => cases aggregateSignatures backend backend.identity msgs <;> rfl

/-- A certificate of two kinds of votes. -/
lemma buildCertificate_double (hsome : certType.fallbackVote = some fallbackVote)
    (hvotes : ∀ msg ∈ msgs, msg.vote = certType.mainVote)
    (hfallback : ∀ msg ∈ fallbackMsgs, msg.vote = fallbackVote) :
    buildCertificate backend certType msgs fallbackMsgs = do
      let bitmap0 ← unwrap (setRanks 0 (msgs.map (·.rank)))
      let signature ← unwrap (aggregateSignatures backend backend.identity msgs)
      let bitmap1 ← unwrap (fallbackBitmap (fallbackMsgs.map (·.rank)))
      let signature ← unwrap (aggregateSignatures backend signature fallbackMsgs)
      return (BuilderType.doubleVote signature bitmap0 bitmap1).build backend certType := by
  unfold buildCertificate
  rw [new_of_fallbackVote_eq_some hsome, aggregate_doubleVote hsome hvotes]
  cases setRanks 0 (msgs.map (·.rank)) with
  | error e => rfl
  | ok bitmap0 =>
    cases aggregateSignatures backend backend.identity msgs with
    | error e => rfl
    | ok signature =>
      rw [hsome]
      show (unwrap (aggregate backend certType fallbackMsgs
        (.doubleVote signature bitmap0 none)) >>= _) = _
      rw [aggregate_doubleVote_fallback hsome hfallback]
      cases fallbackBitmap (fallbackMsgs.map (·.rank)) with
      | error e => rfl
      | ok bitmap1 =>
        show _ = unwrap (aggregateSignatures backend signature fallbackMsgs) >>= _
        cases aggregateSignatures backend signature fallbackMsgs <;> rfl

/-- `bytes` encodes two bitmaps of ranks: with `encode_base2` if there is no fallback vote, with
`encode_base3` otherwise. -/
def Backend.Encodes (backend : Backend σ π β) (bytes : β) (bitmap0 bitmap1 : Bitmap) : Prop :=
  (bitmap1 = 0 ∧ ∃ n, newLen bitmap0 ≤ n ∧ backend.encodeBase2 (bitmap0.setWidth n) = some bytes) ∨
    ∃ n, newLen bitmap0 ≤ n ∧ newLen bitmap1 ≤ n ∧
      backend.encodeBase3 (bitmap0.setWidth n) (bitmap1.setWidth n) = some bytes

lemma buildCertFromBitmap_eq_ok {signature : π} {bitmap : Bitmap}
    (h : buildCertFromBitmap backend certType signature bitmap = .ok cert) :
    cert.certType = certType ∧ backend.Encodes cert.bitmap bitmap 0 := by
  unfold buildCertFromBitmap at h
  simp only at h
  split_ifs at h
  split at h
  · cases h
  · next hencode =>
    cases h
    exact ⟨rfl, .inl ⟨rfl, _, le_rfl, hencode⟩⟩

lemma buildCertFromBitmaps_eq_ok {signature : π} {bitmap0 bitmap1 : Bitmap}
    (h : buildCertFromBitmaps backend certType signature bitmap0 bitmap1 = .ok cert) :
    cert.certType = certType ∧ backend.Encodes cert.bitmap bitmap0 bitmap1 := by
  unfold buildCertFromBitmaps at h
  simp only at h
  split_ifs at h
  split at h
  · cases h
  · next hencode =>
    cases h
    exact ⟨rfl, .inr ⟨_, le_max_left _ _, le_max_right _ _, hencode⟩⟩

/-- A certificate that is built encodes the ranks of the votes and of the fallback votes. -/
theorem buildCertificate_ok (hvotes : ∀ msg ∈ msgs, msg.vote = certType.mainVote)
    (hfallback : ∀ msg ∈ fallbackMsgs, certType.fallbackVote = some msg.vote)
    (h : buildCertificate backend certType msgs fallbackMsgs = .ok (.ok cert)) :
    cert.certType = certType ∧ ∃ bitmap0 bitmap1, backend.Encodes cert.bitmap bitmap0 bitmap1 ∧
      (∀ r, bitmap0.getLsbD r = true ↔ r ∈ msgs.map (·.rank)) ∧
      ∀ r, bitmap1.getLsbD r = true ↔ r ∈ fallbackMsgs.map (·.rank) := by
  cases hkind : certType.fallbackVote with
  | none =>
    rw [buildCertificate_single hkind hvotes] at h
    obtain ⟨bitmap, hset, h⟩ := bind_eq_ok.mp h
    obtain ⟨signature, -, h⟩ := bind_eq_ok.mp h
    obtain ⟨hcert, hencodes⟩ := buildCertFromBitmap_eq_ok (ok.inj h)
    have hempty : fallbackMsgs = [] := by
      refine eq_nil_iff_forall_not_mem.mpr fun msg hmsg => ?_
      simpa [hkind] using hfallback msg hmsg
    refine ⟨hcert, bitmap, 0, hencodes, fun r => ?_, fun r => by simp [hempty]⟩
    simpa using getLsbD_setRanks (unwrap_eq_ok.mp hset)
  | some fallbackVote =>
    have hfallback : ∀ msg ∈ fallbackMsgs, msg.vote = fallbackVote := fun msg hmsg =>
      Option.some.inj ((hfallback msg hmsg).symm.trans hkind)
    rw [buildCertificate_double hkind hvotes hfallback] at h
    obtain ⟨bitmap0, hset0, h⟩ := bind_eq_ok.mp h
    obtain ⟨_, -, h⟩ := bind_eq_ok.mp h
    obtain ⟨bitmap1, hset1, h⟩ := bind_eq_ok.mp h
    obtain ⟨signature, -, h⟩ := bind_eq_ok.mp h
    have hranks0 : ∀ r, bitmap0.getLsbD r = true ↔ r ∈ msgs.map (·.rank) := fun r => by
      simpa using getLsbD_setRanks (unwrap_eq_ok.mp hset0)
    have hset1 := unwrap_eq_ok.mp hset1
    unfold fallbackBitmap at hset1
    split_ifs at hset1 with hempty
    · cases hset1
      obtain ⟨hcert, hencodes⟩ := buildCertFromBitmap_eq_ok (ok.inj h)
      exact ⟨hcert, bitmap0, 0, hencodes, hranks0, fun r => by simp [hempty]⟩
    obtain ⟨bitmap, hset, hsome⟩ := bind_eq_ok.mp hset1
    cases hsome
    obtain ⟨hcert, hencodes⟩ := buildCertFromBitmaps_eq_ok (ok.inj h)
    refine ⟨hcert, bitmap0, bitmap, hencodes, hranks0, fun r => ?_⟩
    simpa using getLsbD_setRanks hset

/-! ## When a certificate is built -/

/-- What `encode_base3` is documented to reject. -/
def Backend.RejectsDoubles (backend : Backend σ π β) : Prop :=
  ∀ {n : ℕ} (bitmap0 bitmap1 : BitVec n) (r : ℕ), bitmap0.getLsbD r = true →
    bitmap1.getLsbD r = true → backend.encodeBase3 bitmap0 bitmap1 = none

/-- So bitmaps that were encoded have no rank in common. -/
lemma Backend.Encodes.disjoint {bytes : β} {bitmap0 bitmap1 : Bitmap}
    (h : backend.Encodes bytes bitmap0 bitmap1) (hrejects : backend.RejectsDoubles) {r : ℕ}
    (h0 : bitmap0.getLsbD r = true) : bitmap1.getLsbD r ≠ true := by
  intro h1
  rcases h with ⟨rfl, -⟩ | ⟨n, hlen0, hlen1, hsome⟩
  · simp at h1
  have hnone := hrejects (bitmap0.setWidth n) (bitmap1.setWidth n) r
    (by rwa [getLsbD_setWidth_of_newLen_le hlen0])
    (by rwa [getLsbD_setWidth_of_newLen_le hlen1])
  cases hnone.symm.trans hsome

/-- Bitmaps of at most `MAXIMUM_VALIDATORS` ranks can be encoded, two of them if they are
disjoint. -/
structure Backend.EncodesRanks (backend : Backend σ π β) : Prop where
  base2 : ∀ {n : ℕ} (bitmap : BitVec n), n ≤ maximumValidators → (backend.encodeBase2 bitmap).isSome
  base3 : ∀ {n : ℕ} (bitmap0 bitmap1 : BitVec n), n ≤ maximumValidators →
    (∀ r, bitmap0.getLsbD r = true → bitmap1.getLsbD r ≠ true) →
    (backend.encodeBase3 bitmap0 bitmap1).isSome

/-- `aggregate_with` only fails on signatures that are not valid. -/
def Backend.Aggregates (backend : Backend σ π β) (valid : σ → Prop) : Prop :=
  ∀ (signature : π) (signatures : List σ), (∀ s ∈ signatures, valid s) →
    (backend.aggregateWith signature signatures).isSome

/-- A backend that encodes bitmaps as numbers and takes every signature. -/
def numberBackend : Backend Unit Unit (ℕ × ℕ) where
  identity := ()
  aggregateWith _ _ := some ()
  into _ := ()
  encodeBase2 bitmap := some (bitmap.toNat, 0)
  encodeBase3 bitmap0 bitmap1 :=
    if bitmap0 &&& bitmap1 = 0 then some (bitmap0.toNat, bitmap1.toNat) else none

lemma numberBackend_rejectsDoubles : numberBackend.RejectsDoubles := by
  intro n bitmap0 bitmap1 r h0 h1
  refine if_neg fun hzero => ?_
  have hbit := congrArg (BitVec.getLsbD · r) hzero
  simp [h0, h1] at hbit

lemma numberBackend_encodesRanks : numberBackend.EncodesRanks where
  base2 _ _ := rfl
  base3 bitmap0 bitmap1 _ hdisjoint := by
    have hzero : bitmap0 &&& bitmap1 = 0 := by
      refine BitVec.eq_of_getLsbD_eq fun r _ => ?_
      have hr := hdisjoint r
      cases h0 : bitmap0.getLsbD r <;> simp_all
    simp [numberBackend, hzero]

/-- Votes that can be aggregated: distinct ranks of a bitmap, and signatures that `aggregate_with`
accepts. -/
structure Aggregable (backend : Backend σ π β) (msgs : List (VoteMessage σ)) : Prop where
  nodup : (msgs.map (·.rank)).Nodup
  rank_lt : ∀ msg ∈ msgs, msg.rank < maximumValidators
  signatures : ∀ signature, (backend.aggregateWith signature (msgs.map (·.signature))).isSome

lemma Aggregable.setRanks (h : Aggregable backend msgs) :
    ∃ bitmap, setRanks 0 (msgs.map (·.rank)) = .ok bitmap := by
  refine setRanks_of_nodup h.nodup (fun rank hrank => ?_) fun rank _ => by simp
  obtain ⟨msg, hmsg, rfl⟩ := mem_map.mp hrank
  exact h.rank_lt msg hmsg

lemma Aggregable.aggregateSignatures (h : Aggregable backend msgs) (signature : π) :
    ∃ signature', aggregateSignatures backend signature msgs = .ok signature' := by
  obtain ⟨signature', hsome⟩ := Option.isSome_iff_exists.mp (h.signatures signature)
  exact ⟨signature', by rw [BuilderType.aggregateSignatures, hsome]⟩

lemma buildCertFromBitmap_of_encodes (h : backend.EncodesRanks) (signature : π) (bitmap : Bitmap) :
    ∃ cert, buildCertFromBitmap backend certType signature bitmap = .ok cert := by
  have hlen := newLen_le bitmap
  obtain ⟨bytes, hbytes⟩ :=
    Option.isSome_iff_exists.mp (h.base2 (bitmap.setWidth (newLen bitmap)) hlen)
  refine ⟨⟨certType, backend.into signature, bytes⟩, ?_⟩
  unfold buildCertFromBitmap
  simp only [if_neg hlen.not_gt, hbytes]

lemma buildCertFromBitmaps_of_encodes (h : backend.EncodesRanks) (signature : π)
    {bitmap0 bitmap1 : Bitmap}
    (hdisjoint : ∀ r, bitmap0.getLsbD r = true → bitmap1.getLsbD r ≠ true) :
    ∃ cert, buildCertFromBitmaps backend certType signature bitmap0 bitmap1 = .ok cert := by
  have hlen := max_le (newLen_le bitmap0) (newLen_le bitmap1)
  obtain ⟨bytes, hbytes⟩ := Option.isSome_iff_exists.mp
    (h.base3 (bitmap0.setWidth (max (newLen bitmap0) (newLen bitmap1)))
      (bitmap1.setWidth (max (newLen bitmap0) (newLen bitmap1))) hlen fun r hr => by
        rw [getLsbD_setWidth_of_newLen_le (le_max_left _ _)] at hr
        rw [getLsbD_setWidth_of_newLen_le (le_max_right _ _)]
        exact hdisjoint r hr)
  refine ⟨⟨certType, backend.into signature, bytes⟩, ?_⟩
  unfold buildCertFromBitmaps
  simp only [if_neg hlen.not_gt, hbytes]

/-- Building with votes that can be aggregated does not panic. It gives a certificate unless a rank
comes among the votes and among the fallback votes. -/
theorem buildCertificate_of_aggregable (hencodes : backend.EncodesRanks)
    (hvotes : ∀ msg ∈ msgs, msg.vote = certType.mainVote)
    (hfallback : ∀ msg ∈ fallbackMsgs, certType.fallbackVote = some msg.vote)
    (hmsgs : Aggregable backend msgs) (hfallbackMsgs : Aggregable backend fallbackMsgs) :
    ∃ result, buildCertificate backend certType msgs fallbackMsgs = .ok result ∧
      ((∀ r ∈ msgs.map (·.rank), r ∉ fallbackMsgs.map (·.rank)) → ∃ cert, result = .ok cert) := by
  obtain ⟨bitmap0, hset0⟩ := hmsgs.setRanks
  obtain ⟨signature, hsignature⟩ := hmsgs.aggregateSignatures backend.identity
  have hranks0 : ∀ r, bitmap0.getLsbD r = true ↔ r ∈ msgs.map (·.rank) := fun r => by
    simpa using getLsbD_setRanks hset0
  cases hkind : certType.fallbackVote with
  | none =>
    rw [buildCertificate_single hkind hvotes, hset0, hsignature]
    exact ⟨_, rfl, fun _ => buildCertFromBitmap_of_encodes hencodes signature bitmap0⟩
  | some fallbackVote =>
    have hfallback : ∀ msg ∈ fallbackMsgs, msg.vote = fallbackVote := fun msg hmsg =>
      Option.some.inj ((hfallback msg hmsg).symm.trans hkind)
    obtain ⟨signature', hsignature'⟩ := hfallbackMsgs.aggregateSignatures signature
    obtain ⟨bitmap1, hset1⟩ := hfallbackMsgs.setRanks
    rw [buildCertificate_double hkind hvotes hfallback, hset0, hsignature]
    rcases eq_or_ne fallbackMsgs [] with rfl | hne
    · refine ⟨buildCertFromBitmap backend certType signature' bitmap0, ?_, fun _ =>
        buildCertFromBitmap_of_encodes hencodes signature' bitmap0⟩
      show (unwrap (BuilderType.aggregateSignatures backend signature []) >>= _) = _
      rw [hsignature']
      rfl
    have hbitmap1 : fallbackBitmap (fallbackMsgs.map (·.rank)) = .ok (some bitmap1) := by
      rw [fallbackBitmap, if_neg (by simpa using hne), hset1]
      rfl
    refine ⟨buildCertFromBitmaps backend certType signature' bitmap0 bitmap1, ?_, fun h => ?_⟩
    · show (unwrap (fallbackBitmap (fallbackMsgs.map (·.rank))) >>= fun bitmap1 =>
        unwrap (BuilderType.aggregateSignatures backend signature fallbackMsgs) >>= _) = _
      rw [hbitmap1, hsignature']
      rfl
    · refine buildCertFromBitmaps_of_encodes hencodes signature' fun r hr hr' => ?_
      refine h r ((hranks0 r).mp hr) ?_
      simpa using (getLsbD_setRanks hset1).mp hr'

end build
end Trezoa.Votor
