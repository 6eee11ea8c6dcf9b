import Trezoa.Votor.PoolSteps

/-!
# The certificates for a standstill

When the cluster stands still, a validator sends the certificates that prove the latest finalization
and all later ones. `highest_finalized_with_notarize` says which certificates these are, and it is
set in three branches of `insert_certificate`.

* `certsForStandstill_prove`: the certificates that are sent, over any sequence of calls.
-/

namespace Trezoa.Votor

open Lib Std.TreeMap Option CertificateType

variable {σ π β : Type}

namespace ConsensusPool

variable {backend : Backend σ π β} {epochs : Epochs} {rootBlock : Block}
  {pool pool' : ConsensusPool σ β} {session session' : Session σ β} {calls : List (Call σ β)}
  {c : Call σ β} {cert : Certificate σ β} {certs : List (Certificate σ β)} {root : ℕ}
  {highest highest' slot : ℕ} {fast : Bool} {certType : CertificateType}

/-- Certificates that prove a finalization: a fast one, or a finalization with a notarization. -/
def Proves (held : CertificateType → Prop) (slot : ℕ) : Bool → Prop
  | true => ∃ blockId, held (.finalizeFast slot blockId)
  | false => held (.finalize slot) ∧ ∃ blockId, held (.notarize slot blockId)

lemma Proves.mono {held held' : CertificateType → Prop} (h : Proves held slot fast)
    (hheld : ∀ certType : CertificateType, certType.slot = slot → held certType →
      held' certType) : Proves held' slot fast := by
  cases fast with
  | true => exact h.imp fun blockId hfast => hheld _ rfl hfast
  | false => exact ⟨hheld _ rfl h.1, h.2.imp fun blockId hnotarize => hheld _ rfl hnotarize⟩

/-- A fast finalization of a slot is covered by the highest finalization. -/
def Covers (highest : Option (ℕ × Bool)) (slot : ℕ) : Prop :=
  ∃ h fast, highest = some (h, fast) ∧ (slot < h ∨ slot = h ∧ fast = true)

/-- The invariant, for a pool that was pruned up to `root`. -/
structure Standing (root : ℕ) (pool : ConsensusPool σ β) : Prop where
  filed : ∀ (certType : CertificateType) (cert : Certificate σ β),
    pool.completedCertificates[certType]? = some cert → cert.certType = certType
  covers : ∀ slot blockId, .finalizeFast slot blockId ∈ pool.completedCertificates →
    Covers pool.highestFinalizedWithNotarize slot
  proves : ∀ highest fast, pool.highestFinalizedWithNotarize = some (highest, fast) →
    root ≤ highest → Proves (· ∈ pool.completedCertificates) highest fast

/-! ## The highest finalization -/

/-- The highest finalization does not decrease. -/
def Rises (highest highest' : Option (ℕ × Bool)) : Prop :=
  ∀ h fast, highest = some (h, fast) → ∃ h' fast', highest' = some (h', fast') ∧
    (h < h' ∨ h = h' ∧ (fast = true → fast' = true))

lemma Rises.refl (highest : Option (ℕ × Bool)) : Rises highest highest :=
  fun h fast heq => ⟨h, fast, heq, .inr ⟨rfl, id⟩⟩

lemma Rises.trans {highest highest' highest'' : Option (ℕ × Bool)} (h : Rises highest highest')
    (h' : Rises highest' highest'') : Rises highest highest'' := by
  intro a fast heq
  obtain ⟨b, fast', heq', hle⟩ := h a fast heq
  obtain ⟨c, fast'', heq'', hle'⟩ := h' b fast' heq'
  refine ⟨c, fast'', heq'', ?_⟩
  rcases hle with hlt | ⟨rfl, hfast⟩
  · exact .inl (by omega)
  · rcases hle' with hlt | ⟨rfl, hfast'⟩
    · exact .inl hlt
    · exact .inr ⟨rfl, hfast' ∘ hfast⟩

lemma Covers.rises {highest highest' : Option (ℕ × Bool)} (h : Covers highest slot)
    (hrises : Rises highest highest') : Covers highest' slot := by
  obtain ⟨a, fast, heq, hle⟩ := h
  obtain ⟨b, fast', heq', hle'⟩ := hrises a fast heq
  refine ⟨b, fast', heq', ?_⟩
  rcases hle with hlt | ⟨rfl, hfast⟩
  · exact .inl (by omega)
  · exact hle'.imp_right fun ⟨heq, hfast'⟩ => ⟨heq, hfast' hfast⟩

/-- A covered slot is not raised to. -/
lemma Covers.not_all_lt {highest : Option (ℕ × Bool)} (h : Covers highest slot) :
    ¬ highest.all (·.1 < slot) := by
  obtain ⟨a, fast, rfl, hle⟩ := h
  simp only [all_some, decide_eq_true_eq]
  omega

lemma rises_of_all_lt {highest : Option (ℕ × Bool)} (h : highest.all (·.1 < slot)) :
    Rises highest (some (slot, fast)) := by
  rintro a fast' rfl
  exact ⟨slot, fast, rfl, .inl (by simpa using h)⟩

lemma rises_of_all_le {highest : Option (ℕ × Bool)} (h : highest.all (·.1 ≤ slot)) :
    Rises highest (some (slot, true)) := by
  rintro a fast' rfl
  have hle : a ≤ slot := by simpa using h
  exact ⟨slot, true, rfl, hle.lt_or_eq.imp_right fun heq => ⟨heq, fun _ => rfl⟩⟩

/-- How a certificate that was completed changes the highest finalization. -/
inductive Raises (pool : ConsensusPool σ β) : CertificateType → Option (ℕ × Bool) → Prop where
  | kept {certType : CertificateType} : Raises pool certType pool.highestFinalizedWithNotarize
  | notarized {slot : ℕ} {blockId : Hash} : pool.isFinalized slot →
      pool.highestFinalizedWithNotarize.all (·.1 < slot) →
      Raises pool (.notarize slot blockId) (some (slot, false))
  | finalized {slot : ℕ} : (pool.getNotarizedBlock slot).isSome →
      pool.highestFinalizedWithNotarize.all (·.1 < slot) →
      Raises pool (.finalize slot) (some (slot, false))
  | finalizedFast {slot : ℕ} {blockId : Hash} :
      pool.highestFinalizedWithNotarize.all (·.1 ≤ slot) →
      Raises pool (.finalizeFast slot blockId) (some (slot, true))

lemma raises_finalizedWithNotarize (pool : ConsensusPool σ β) (certType : CertificateType) :
    Raises pool certType (pool.finalizedWithNotarize certType) := by
  cases certType with
  | notarize slot blockId =>
    simp only [finalizedWithNotarize]
    split
    · next h => exact .notarized h.1 h.2
    · exact .kept
  | finalize slot =>
    simp only [finalizedWithNotarize]
    split
    · next h => exact .finalized h.1 h.2
    · exact .kept
  | finalizeFast slot blockId =>
    simp only [finalizedWithNotarize]
    split
    · next h => exact .finalizedFast h
    · exact .kept
  | notarizeFallback slot blockId => exact .kept
  | skip slot => exact .kept
  | genesis slot blockId => exact .kept

lemma Raises.rises {highest : Option (ℕ × Bool)} (h : Raises pool certType highest) :
    Rises pool.highestFinalizedWithNotarize highest := by
  cases h with
  | kept => exact Rises.refl _
  | notarized _ hall => exact rises_of_all_lt hall
  | finalized _ hall => exact rises_of_all_lt hall
  | finalizedFast hall => exact rises_of_all_le hall

/-- A fast finalization that is inserted is covered. -/
lemma covers_finalizeFast (pool : ConsensusPool σ β) (slot : ℕ) (blockId : Hash) :
    Covers (pool.finalizedWithNotarize (.finalizeFast slot blockId)) slot := by
  simp only [finalizedWithNotarize]
  split
  · exact ⟨slot, true, rfl, .inr ⟨rfl, rfl⟩⟩
  next hall =>
  cases hhighest : pool.highestFinalizedWithNotarize with
  | none => simp [hhighest] at hall
  | some entry =>
    refine ⟨entry.1, entry.2, rfl, .inl ?_⟩
    simpa [hhighest] using hall

lemma isFinalized_iff : pool.isFinalized slot ↔ .finalize slot ∈ pool.completedCertificates ∨
    ∃ blockId, .finalizeFast slot blockId ∈ pool.completedCertificates := by
  unfold isFinalized
  rw [List.any_eq_true]
  constructor
  · rintro ⟨certType, hmem, hmatch⟩
    rw [mem_keys] at hmem
    cases certType <;> simp only [decide_eq_true_eq, Bool.false_eq_true] at hmatch
    · exact .inl (hmatch ▸ hmem)
    · exact .inr ⟨_, hmatch ▸ hmem⟩
  · rintro (hmem | ⟨blockId, hmem⟩) <;> exact ⟨_, mem_keys.mpr hmem, by simp⟩

lemma exists_notarize_of_getNotarizedBlock (h : (pool.getNotarizedBlock slot).isSome) :
    ∃ blockId, .notarize slot blockId ∈ pool.completedCertificates := by
  obtain ⟨block, hblock⟩ := isSome_iff_exists.mp h
  obtain ⟨certType, hmem, hmatch⟩ := List.exists_of_findSome?_eq_some hblock
  rw [mem_keys] at hmem
  cases certType with
  | notarize slot' blockId =>
    simp only at hmatch
    split at hmatch
    · next heq => exact ⟨blockId, heq ▸ hmem⟩
    · cases hmatch
  | _ => cases hmatch

/-! ## Steps -/

/-- Inserting a certificate keeps the invariant. -/
theorem Inserts.standing (h : Inserts pool cert pool') (hpool : Standing root pool) :
    Standing root pool' := by
  have hmem : ∀ certType, certType ∈ pool'.completedCertificates ↔
      certType ∈ (pool.complete cert).completedCertificates := fun certType => by
    rw [h.completedCertificates]
    rfl
  have hmem' : ∀ certType, certType ∈ pool'.completedCertificates ↔
      cert.certType = certType ∨ certType ∈ pool.completedCertificates := fun certType => by
    rw [h.completedCertificates, mem_insert, Std.compare_eq_iff_eq]
  have hraises := raises_finalizedWithNotarize (pool.complete cert) cert.certType
  rw [← h.highestFinalizedWithNotarize] at hraises
  have hcovers : ∀ slot blockId, .finalizeFast slot blockId ∈ pool'.completedCertificates →
      Covers pool'.highestFinalizedWithNotarize slot := by
    intro slot blockId hfast
    rcases (hmem' _).mp hfast with heq | hfast
    · rw [h.highestFinalizedWithNotarize, heq]
      exact covers_finalizeFast _ slot blockId
    · exact (hpool.covers slot blockId hfast).rises hraises.rises
  refine ⟨fun certType cert' hcert' => ?_, hcovers, fun highest fast heq hroot => ?_⟩
  · rw [h.completedCertificates, OrdMap.getElem?_insert] at hcert'
    split at hcert'
    · next htype =>
      cases hcert'
      exact htype
    · exact hpool.filed certType cert' hcert'
  rw [heq] at hraises
  generalize htype : cert.certType = certType at hraises
  generalize hhighest : some (highest, fast) = entry at hraises
  cases hraises with
  | kept =>
    exact (hpool.proves highest fast hhighest.symm hroot).mono fun certType _ hold =>
      (hmem' _).mpr (.inr hold)
  | notarized hfinalized hall =>
    cases hhighest
    refine ⟨?_, _, (hmem' _).mpr (.inl htype)⟩
    -- a fast finalization of the slot would have kept the field from being raised to it
    rcases isFinalized_iff.mp hfinalized with hfinalize | ⟨blockId', hfast⟩
    · exact (hmem _).mpr hfinalize
    · rcases (hmem' _).mp ((hmem _).mpr hfast) with heq | hfast
      · cases htype.symm.trans heq
      · exact absurd hall (hpool.covers _ blockId' hfast).not_all_lt
  | finalized hnotarized hall =>
    cases hhighest
    obtain ⟨blockId, hnotarize⟩ := exists_notarize_of_getNotarizedBlock hnotarized
    exact ⟨(hmem' _).mpr (.inl htype), blockId, (hmem _).mpr hnotarize⟩
  | finalizedFast hall =>
    cases hhighest
    exact ⟨_, (hmem' _).mpr (.inl htype)⟩

lemma Inserts.rises (h : Inserts pool cert pool') :
    Rises pool.highestFinalizedWithNotarize pool'.highestFinalizedWithNotarize := by
  rw [h.highestFinalizedWithNotarize]
  exact (raises_finalizedWithNotarize (pool.complete cert) cert.certType).rises

lemma InsertsAll.standing (h : InsertsAll pool certs pool') (hpool : Standing root pool) :
    Standing root pool' ∧
      Rises pool.highestFinalizedWithNotarize pool'.highestFinalizedWithNotarize := by
  induction h with
  | nil => exact ⟨hpool, Rises.refl _⟩
  | cons hinserts _ ih =>
    obtain ⟨hstanding, hrises⟩ := ih (hinserts.standing hpool)
    exact ⟨hstanding, hinserts.rises.trans hrises⟩

lemma Standing.of_eq (hpool : Standing root pool)
    (hcompleted : pool'.completedCertificates = pool.completedCertificates)
    (hhighest : pool'.highestFinalizedWithNotarize = pool.highestFinalizedWithNotarize) :
    Standing root pool' where
  filed := by
    rw [hcompleted]
    exact hpool.filed
  covers := by
    rw [hcompleted, hhighest]
    exact hpool.covers
  proves := by
    rw [hcompleted, hhighest]
    exact hpool.proves

/-- Pruning keeps the invariant. -/
theorem Standing.pruneOldState (hpool : Standing root pool) (rootSlot : ℕ) :
    Standing (max root rootSlot) (pool.pruneOldState rootSlot) where
  filed certType cert hcert := by
    rw [getElem?_completedCertificates_pruneOldState] at hcert
    split at hcert
    · exact hpool.filed certType cert hcert
    · cases hcert
  covers slot blockId hfast := by
    rw [mem_completedCertificates_pruneOldState] at hfast
    exact hpool.covers slot blockId hfast.2
  proves highest fast heq hroot := by
    refine (hpool.proves highest fast heq ((le_max_left _ _).trans hroot)).mono
      fun certType hslot hold => ?_
    exact mem_completedCertificates_pruneOldState.mpr ⟨hslot ▸ (le_max_right _ _).trans hroot, hold⟩

/-- The highest root that a call prunes to. -/
def Call.prunes : Call σ β → ℕ
  | .addMessage _ _ _ => 0
  | .pruneOldState rootSlot => rootSlot

/-- Every step keeps the invariant, and the highest finalization does not decrease. -/
theorem Step.standing (h : Step backend epochs pool c pool' certs) (hpool : Standing root pool) :
    Standing (max root c.prunes) pool' ∧
      Rises pool.highestFinalizedWithNotarize pool'.highestFinalizedWithNotarize := by
  cases h with
  | turnedAway hsame =>
    rw [Call.prunes, max_eq_left (Nat.zero_le _), hsame.highestFinalizedWithNotarize]
    exact ⟨hpool.of_eq hsame.completedCertificates hsame.highestFinalizedWithNotarize, Rises.refl _⟩
  | stored _ hstores =>
    rw [Call.prunes, max_eq_left (Nat.zero_le _), hstores.highestFinalizedWithNotarize]
    exact ⟨hpool.of_eq hstores.completedCertificates hstores.highestFinalizedWithNotarize,
      Rises.refl _⟩
  | built _ hstores _ hinserts =>
    rw [Call.prunes, max_eq_left (Nat.zero_le _), ← hstores.highestFinalizedWithNotarize]
    exact hinserts.standing
      (hpool.of_eq hstores.completedCertificates hstores.highestFinalizedWithNotarize)
  | received _ hinserts =>
    rw [Call.prunes, max_eq_left (Nat.zero_le _)]
    exact ⟨hinserts.standing hpool, hinserts.rises⟩
  | pruned => exact ⟨hpool.pruneOldState _, Rises.refl _⟩

/-! ## Runs -/

/-- No root above `bound` is pruned to. -/
def PrunesUpTo (bound : ℕ) (calls : List (Call σ β)) : Prop :=
  ∀ c ∈ calls, c.prunes ≤ bound

/-- Over a sequence of calls the invariant holds up to the roots that were pruned to, and the
highest finalization does not decrease. -/
theorem standing_foldlM (hpool : Standing root session.pool)
    (hrun : calls.foldlM (call backend epochs) session = .ok session') :
    (∃ root', Standing root' session'.pool ∧
      ∀ bound, root ≤ bound → PrunesUpTo bound calls → root' ≤ bound) ∧
      Rises session.pool.highestFinalizedWithNotarize
        session'.pool.highestFinalizedWithNotarize := by
  induction calls generalizing root session with
  | nil =>
    cases hrun
    exact ⟨⟨root, hpool, fun bound hroot _ => hroot⟩, Rises.refl _⟩
  | cons c calls ih =>
    obtain ⟨session₁, hcall, hrest⟩ := foldlM_cons_eq_ok.mp hrun
    obtain ⟨certs, hstep, -⟩ := call_step hcall
    obtain ⟨hstanding, hrises⟩ := hstep.standing hpool
    obtain ⟨⟨root', hstanding', hroot'⟩, hrises'⟩ := ih hstanding hrest
    refine ⟨⟨root', hstanding', fun bound hroot hprunes => ?_⟩, hrises.trans hrises'⟩
    obtain ⟨hc, hcalls⟩ := List.forall_mem_cons.mp hprunes
    exact hroot' bound (max_le hroot hc) hcalls

lemma standing_newFromRootBank (rootBlock : Block) :
    Standing 0 (newFromRootBank rootBlock : ConsensusPool σ β) := by
  constructor <;> simp [newFromRootBank]

/-! ## The certificates that are sent -/

/-- Selecting certificates returns if no check panics. -/
lemma filterMapM_certToSend {entries : List (CertificateType × Certificate σ β)}
    (h : ∀ e ∈ entries, ∃ sent, certToSend highest fast e.1 = .ok sent) :
    ∃ certs, (entries.filterMapM fun entry => do
        if ← certToSend highest fast entry.1 then return some entry.2 else return none) =
          (.ok certs : Except Panic _) ∧
      ∀ e ∈ entries, certToSend highest fast e.1 = .ok true → e.2 ∈ certs := by
  induction entries with
  | nil => exact ⟨[], rfl, by simp⟩
  | cons e entries ih =>
    obtain ⟨⟨sent, hsent⟩, hentries⟩ := List.forall_mem_cons.mp h
    obtain ⟨certs, hcerts, hmem⟩ := ih hentries
    rw [List.filterMapM_cons, hsent, hcerts]
    cases sent with
    | true =>
      refine ⟨e.2 :: certs, rfl, List.forall_mem_cons.mpr ⟨fun _ => .head _, ?_⟩⟩
      exact fun e' he' hsent' => .tail _ (hmem e' he' hsent')
    | false =>
      refine ⟨certs, rfl, List.forall_mem_cons.mpr ⟨fun hsent' => ?_, hmem⟩⟩
      rw [hsent] at hsent'
      cases hsent'

/-- The check only panics on a fast finalization of the highest slot that the field does not
know. -/
lemma certToSend_ok (h : ∀ blockId, certType = .finalizeFast highest blockId → fast = true) :
    ∃ sent, certToSend highest fast certType = .ok sent := by
  unfold certToSend
  split_ifs with hlt heq
  · exact ⟨_, rfl⟩
  · cases certType with
    | finalizeFast slot blockId =>
      obtain rfl : slot = highest := heq
      obtain rfl := h blockId rfl
      exact ⟨_, rfl⟩
    | _ => cases fast <;> exact ⟨_, rfl⟩
  · exact ⟨_, rfl⟩

/-- The certificates are selected without a panic, and the selected ones are among them. -/
theorem Standing.getCertsForStandstill (hpool : Standing root pool)
    (hhighest : pool.highestFinalizedWithNotarize.getD (0, false) = (highest, fast)) :
    ∃ certs, pool.getCertsForStandstill = .ok certs ∧
      ∀ (certType : CertificateType) (cert : Certificate σ β),
        pool.completedCertificates[certType]? = some cert →
        certToSend highest fast certType = .ok true → cert ∈ certs := by
  have hok : ∀ e ∈ pool.completedCertificates.toList,
      ∃ sent, certToSend highest fast e.1 = .ok sent := by
    refine fun e he => certToSend_ok fun blockId htype => ?_
    have hfast : .finalizeFast highest blockId ∈ pool.completedCertificates :=
      htype ▸ OrdMap.mem_iff_exists_mem_toList.mpr ⟨e.2, he⟩
    obtain ⟨highest', fast', heq, hle⟩ := hpool.covers _ blockId hfast
    rw [heq, getD_some] at hhighest
    cases hhighest
    exact (hle.resolve_left (lt_irrefl _)).2
  obtain ⟨certs, hcerts, hmem⟩ := filterMapM_certToSend hok
  refine ⟨certs, ?_, fun certType cert hcert hsent => ?_⟩
  · unfold ConsensusPool.getCertsForStandstill
    simp only [hhighest]
    rw [hcerts]
  · exact hmem (certType, cert) (mem_toList_iff_getElem?_eq_some.mpr hcert) hsent

/-- Over any sequence of calls, the certificates for a standstill are selected without a panic. They
prove the highest finalization, if nothing above it was pruned, and they contain every certificate
of a later slot. The highest finalization never decreases. -/
theorem certsForStandstill_prove (hrun : run backend epochs rootBlock calls = .ok session) :
    (∃ certs, session.pool.getCertsForStandstill = .ok certs ∧
      ∀ highest fast, session.pool.highestFinalizedWithNotarize = some (highest, fast) →
        PrunesUpTo highest calls →
        Proves (fun certType => ∃ cert ∈ certs, cert.certType = certType) highest fast ∧
        ∀ (certType : CertificateType) (cert : Certificate σ β),
          session.pool.completedCertificates[certType]? = some cert →
          highest < certType.slot → cert ∈ certs) ∧
    ∀ more session' highest fast, run backend epochs rootBlock (calls ++ more) = .ok session' →
      session.pool.highestFinalizedWithNotarize = some (highest, fast) →
      ∃ highest' fast', session'.pool.highestFinalizedWithNotarize = some (highest', fast') ∧
        highest ≤ highest' := by
  obtain ⟨⟨root, hstanding, hroot⟩, -⟩ := standing_foldlM (standing_newFromRootBank rootBlock) hrun
  constructor
  · obtain ⟨⟨highest, fast⟩, hget⟩ : ∃ entry,
        session.pool.highestFinalizedWithNotarize.getD (0, false) = entry := ⟨_, rfl⟩
    obtain ⟨certs, hcerts, hmem⟩ := hstanding.getCertsForStandstill hget
    refine ⟨certs, hcerts, fun highest' fast' hhighest hprunes => ?_⟩
    rw [hhighest, getD_some] at hget
    cases hget
    constructor
    · have hsent : ∀ certType ∈ session.pool.completedCertificates,
          certToSend highest fast certType = .ok true →
          ∃ cert ∈ certs, cert.certType = certType := by
        intro certType hcompleted hsent
        rw [mem_iff_isSome_getElem?] at hcompleted
        obtain ⟨cert, hcert⟩ := isSome_iff_exists.mp hcompleted
        exact ⟨cert, hmem certType cert hcert hsent, hstanding.filed certType cert hcert⟩
      have hproves := hstanding.proves highest fast hhighest (hroot highest (Nat.zero_le _) hprunes)
      cases fast with
      | true =>
        obtain ⟨blockId, hfast⟩ := hproves
        exact ⟨blockId, hsent _ hfast (by simp [certToSend, slot])⟩
      | false =>
        obtain ⟨hfinalize, blockId, hnotarize⟩ := hproves
        exact ⟨hsent _ hfinalize (by simp [certToSend, slot]), blockId,
          hsent _ hnotarize (by simp [certToSend, slot])⟩
    · intro certType cert hcert hlt
      exact hmem certType cert hcert (if_pos hlt)
  intro more session' highest fast hrun' hhighest
  rw [run, List.foldlM_append] at hrun'
  obtain ⟨session₁, hrun₁, hmore⟩ := bind_eq_ok.mp hrun'
  rw [run, hrun₁] at hrun
  cases hrun
  obtain ⟨-, hrises⟩ := standing_foldlM hstanding hmore
  obtain ⟨highest', fast', heq, hle⟩ := hrises highest fast hhighest
  exact ⟨highest', fast', heq, by omega⟩

/-- A finalization and a notarization come after a skip of a later slot, then a fast
finalization. -/
def lateNotarizeCalls : List (Call Unit (ℕ × ℕ)) :=
  [.addMessage 0 0 (.certificate ⟨.skip 4, (), (0, 0)⟩),
    .addMessage 0 0 (.certificate ⟨.finalize 3, (), (0, 0)⟩),
    .addMessage 0 0 (.certificate ⟨.notarize 3 7, (), (0, 0)⟩), .pruneOldState 2,
    .addMessage 2 0 (.certificate ⟨.finalizeFast 3 7, (), (0, 0)⟩)]

theorem certsForStandstill_prove_lateNotarizeCalls :
    ∃ session certs,
      run numberBackend (.single twoValidators) (0, 0) lateNotarizeCalls = .ok session ∧
      session.pool.highestFinalizedWithNotarize = some (3, true) ∧
      session.pool.getCertsForStandstill = .ok certs ∧
      Proves (fun certType => ∃ cert ∈ certs, cert.certType = certType) 3 true := by
  have hhighest : ((run numberBackend (.single twoValidators) (0, 0) lateNotarizeCalls).toOption.map
      fun session => session.pool.highestFinalizedWithNotarize) = some (some (3, true)) := by
    decide +kernel
  cases hrun : run numberBackend (.single twoValidators) (0, 0) lateNotarizeCalls with
  | error panic =>
    rw [hrun] at hhighest
    cases hhighest
  | ok session =>
    rw [hrun] at hhighest
    obtain ⟨⟨certs, hcerts, hproves⟩, -⟩ := certsForStandstill_prove hrun
    have hhighest := some.inj hhighest
    exact ⟨session, certs, rfl, hhighest, hcerts,
      (hproves 3 true hhighest (by simp [lateNotarizeCalls, PrunesUpTo, Call.prunes])).1⟩

end ConsensusPool
end Trezoa.Votor
