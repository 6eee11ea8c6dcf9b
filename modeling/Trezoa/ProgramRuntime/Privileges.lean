import Trezoa.ProgramRuntime.InvokeContext

/-!
# The privileges of a prepared instruction

What the two passes of a cross-program invocation, and the single pass of a top-level instruction,
make of the accounts that are named.
-/

namespace Trezoa.ProgramRuntime

open Lib List Nat InstructionAccount

/-! ## Well formed instructions -/

/-- The deduplication map gives the first position of each account. -/
structure Deduplicated (accounts : List InstructionAccount) (dedupMap : List ℕ) : Prop where
  length : dedupMap.length = maxAccountsPerTransaction
  /-- A position in the map is one of the account. -/
  sound : ∀ i k : ℕ, dedupMap[i]? = some k → k < accounts.length →
    ∃ a, accounts[k]? = some a ∧ a.indexInTransaction = i
  /-- An account has a position in the map, up to its own. -/
  complete : ∀ (j : ℕ) (a : InstructionAccount), accounts[j]? = some a →
    ∃ k, dedupMap[a.indexInTransaction]? = some k ∧ k ≤ j
  /-- An account that is not there is marked. -/
  absent : ∀ i k : ℕ, dedupMap[i]? = some k → k < accounts.length ∨ k = u16Max

/-- An instruction with few enough accounts for its deduplication map, and with one set of
privileges for each account. -/
structure WellFormed (context : InstructionContext) : Prop where
  length : context.instructionAccounts.length ≤ u16Max
  dedup : Deduplicated context.instructionAccounts context.dedupMap
  uniform : ∀ a ∈ context.instructionAccounts, ∀ b ∈ context.instructionAccounts,
    a.indexInTransaction = b.indexInTransaction → a = b

/-- The account is one of the instruction. -/
def InstructionContext.Has (context : InstructionContext) (index : ℕ) : Prop :=
  ∃ a ∈ context.instructionAccounts, a.indexInTransaction = index

/-- The account is a signer of the instruction. -/
def InstructionContext.Signs (context : InstructionContext) (index : ℕ) : Prop :=
  ∃ a ∈ context.instructionAccounts, a.indexInTransaction = index ∧ a.isSigner = true

/-- The account is writable in the instruction. -/
def InstructionContext.Writes (context : InstructionContext) (index : ℕ) : Prop :=
  ∃ a ∈ context.instructionAccounts, a.indexInTransaction = index ∧ a.isWritable = true

variable {accounts : List InstructionAccount} {dedupMap : List ℕ}
    {caller callee : InstructionContext}
  {i j k index : ℕ} {a b : InstructionAccount}

lemma deduplicated_empty : Deduplicated [] emptyDedupMap where
  length := by simp [emptyDedupMap]
  sound i k h hk := absurd hk (not_lt_zero _)
  complete j a h := by simp at h
  absent i k h := by
    refine .inr ?_
    obtain ⟨hi, hk⟩ := List.getElem?_eq_some_iff.mp h
    rw [← hk]
    exact getElem_replicate ..

lemma getElem?_concat_eq_some {α : Type} {l : List α} {x y : α} :
    (l ++ [x])[j]? = some y ↔ l[j]? = some y ∨ j = l.length ∧ x = y := by
  rcases lt_trichotomy j l.length with hlt | rfl | hgt
  · simp [getElem?_append_left hlt, hlt.ne]
  · simp
  · simp [hgt, hgt.le, hgt.ne']

section
variable (h : Deduplicated accounts dedupMap)
include h

/-- A position in the map is not that of one more account. -/
lemma Deduplicated.lt_of_lt_succ (hlen : accounts.length < u16Max) (hi : dedupMap[i]? = some k)
    (hk : k < accounts.length + 1) : k < accounts.length := by
  rcases h.absent i k hi with hlt | heq
  · exact hlt
  · omega

/-- A new account at the end. -/
lemma Deduplicated.append (hlen : accounts.length < u16Max)
    (hi : dedupMap[i]? = some k) (hk : ¬ k < accounts.length) (ha : a.indexInTransaction = i) :
    Deduplicated (accounts ++ [a]) (dedupMap.set i accounts.length) := by
  have hilt : i < dedupMap.length := lt_length hi
  constructor
  · rw [length_set, h.length]
  · intro i' k' hi' hk'
    rw [getElem?_set] at hi'
    split at hi'
    · rename_i heq
      cases hi'
      exact ⟨a, by simp, by rw [ha, heq]⟩
    · rw [length_append] at hk'
      obtain ⟨b, hb, hbi⟩ := h.sound i' k' hi' (h.lt_of_lt_succ hlen hi' hk')
      exact ⟨b, getElem?_concat_eq_some.mpr (.inl hb), hbi⟩
  · intro j b hb
    rcases getElem?_concat_eq_some.mp hb with hb | ⟨rfl, rfl⟩
    · obtain ⟨k', hk', hle⟩ := h.complete j b hb
      refine ⟨k', (getElem?_set_ne ?_).trans hk', hle⟩
      rintro rfl
      cases hi.symm.trans hk'
      exact hk (hle.trans_lt (lt_length hb))
    · exact ⟨accounts.length, by rw [ha, getElem?_set_self hilt], le_rfl⟩
  intro i' k' hi'
  rw [getElem?_set] at hi'
  split at hi'
  · cases hi'
    exact .inl (by simp)
  · exact (h.absent i' k' hi').imp_left fun hlt => by rw [length_append]; omega

/-- An account that is already there, at the end once more. -/
lemma Deduplicated.append_again
    (hlen : accounts.length < u16Max) (hi : dedupMap[a.indexInTransaction]? = some k)
    (hk : k < accounts.length) : Deduplicated (accounts ++ [a]) dedupMap := by
  constructor
  · exact h.length
  · intro i' k' hi' hk'
    rw [length_append] at hk'
    obtain ⟨b, hb, hbi⟩ := h.sound i' k' hi' (h.lt_of_lt_succ hlen hi' hk')
    exact ⟨b, getElem?_concat_eq_some.mpr (.inl hb), hbi⟩
  · intro j b hb
    rcases getElem?_concat_eq_some.mp hb with hb | ⟨rfl, rfl⟩
    · exact h.complete j b hb
    · exact ⟨k, hi, hk.le⟩
  · intro i' k' hi'
    exact (h.absent i' k' hi').imp_left fun hlt => by rw [length_append]; omega

/-- Changing privileges does not matter for the positions. -/
lemma Deduplicated.set (hk : accounts[k]? = some b)
    (ha : a.indexInTransaction = b.indexInTransaction) :
    Deduplicated (accounts.set k a) dedupMap := by
  have hlt : k < accounts.length := lt_length hk
  constructor
  · exact h.length
  · intro i' k' hi' hk'
    rw [length_set] at hk'
    obtain ⟨b', hb', hbi'⟩ := h.sound i' k' hi' hk'
    by_cases heq : k = k'
    · subst heq
      cases hk.symm.trans hb'
      exact ⟨a, getElem?_set_self hlt, ha.trans hbi'⟩
    · exact ⟨b', (getElem?_set_ne heq).trans hb', hbi'⟩
  · intro j b' hb'
    by_cases heq : k = j
    · subst heq
      rw [getElem?_set_self hlt] at hb'
      cases hb'
      rw [ha]
      exact h.complete k b hk
    · rw [getElem?_set_ne heq] at hb'
      exact h.complete j b' hb'
  · intro i' k' hi'
    rw [length_set]
    exact h.absent i' k' hi'

end

/-- The position of an account is one where it stands. -/
lemma getIndexOfAccountInInstruction_spec (h : WellFormed caller)
    (hindex : caller.getIndexOfAccountInInstruction i = .ok k) :
    ∃ a, caller.instructionAccounts[k]? = some a ∧ a.indexInTransaction = i := by
  unfold InstructionContext.getIndexOfAccountInInstruction at hindex
  split at hindex
  · cases hindex
  rename_i index hmap
  split at hindex
  · cases hindex
  · cases hindex
    exact h.dedup.sound i k hmap (by omega)

/-! ## The first pass -/

/-- Some meta for the account asks for the signer flag. -/
def signerRequested (keys : List ℕ) (metas : List AccountMeta) (index : ℕ) : Bool :=
  metas.any fun m => findIndexOfAccount keys m.pubkey = some index && m.isSigner

/-- Some meta for the account asks for the writable flag. -/
def writableRequested (keys : List ℕ) (metas : List AccountMeta) (index : ℕ) : Bool :=
  metas.any fun m => findIndexOfAccount keys m.pubkey = some index && m.isWritable

/-- The account with all privileges that are requested for it. -/
def requested (keys : List ℕ) (metas : List AccountMeta) (index : ℕ) : InstructionAccount :=
  ⟨index, signerRequested keys metas index, writableRequested keys metas index⟩

variable {keys : List ℕ} {metas : List AccountMeta} {m : AccountMeta}

lemma requested_concat : requested keys (metas ++ [m]) index =
    if findIndexOfAccount keys m.pubkey = some index
    then (requested keys metas index).grant m.isSigner m.isWritable
    else requested keys metas index := by
  by_cases h : findIndexOfAccount keys m.pubkey = some index
  · simp [requested, signerRequested, writableRequested, h, grant]
  · simp [requested, signerRequested, writableRequested, h]

lemma signerRequested_concat_of (h : signerRequested keys metas index = true) :
    signerRequested keys (metas ++ [m]) index = true := by
  rw [signerRequested, any_append, ← signerRequested, h, Bool.true_or]

lemma writableRequested_concat_of (h : writableRequested keys metas index = true) :
    writableRequested keys (metas ++ [m]) index = true := by
  rw [writableRequested, any_append, ← writableRequested, h, Bool.true_or]

/-- The account has no privileges that are not requested. -/
def WithinRequest (keys : List ℕ) (metas : List AccountMeta) (a : InstructionAccount) : Prop :=
  (a.isSigner = true → signerRequested keys metas a.indexInTransaction = true)
    ∧ (a.isWritable = true → writableRequested keys metas a.indexInTransaction = true)

lemma WithinRequest.concat (h : WithinRequest keys metas a) : WithinRequest keys (metas ++ [m]) a :=
  ⟨fun ha => signerRequested_concat_of (h.1 ha), fun ha => writableRequested_concat_of (h.2 ha)⟩

lemma withinRequest_requested (keys : List ℕ) (metas : List AccountMeta) (index : ℕ) :
    WithinRequest keys metas (requested keys metas index) := ⟨id, id⟩

/-- The privileges that are requested, on top of some of them. -/
lemma WithinRequest.grant (h : WithinRequest keys metas a) :
    a.grant (requested keys metas a.indexInTransaction).isSigner
      (requested keys metas a.indexInTransaction).isWritable
      = requested keys metas a.indexInTransaction := by
  obtain ⟨i, s, w⟩ := a
  obtain ⟨hs, hw⟩ := h
  simp only [grant, requested, mk.injEq, true_and]
  constructor
  · cases s with
    | false => simp
    | true => simp [hs rfl]
  · cases w with
    | false => simp
    | true => simp [hw rfl]

/-- The state of the first pass after some metas: the first position of an account has all
privileges requested so far. -/
structure FirstPass (keys : List ℕ) (metas : List AccountMeta) (dedupMap : List ℕ)
    (accounts : List InstructionAccount) : Prop where
  length : accounts.length = metas.length
  index : ∀ (j : ℕ) (m : AccountMeta), metas[j]? = some m → ∃ a, accounts[j]? = some a
    ∧ findIndexOfAccount keys m.pubkey = some a.indexInTransaction
  dedup : Deduplicated accounts dedupMap
  first : ∀ (i k : ℕ) (a : InstructionAccount), dedupMap[i]? = some k → accounts[k]? = some a →
    a = requested keys metas i
  within : ∀ a ∈ accounts, WithinRequest keys metas a

lemma firstPass_nil (keys : List ℕ) : FirstPass keys [] emptyDedupMap [] where
  length := rfl
  index := by simp
  dedup := deduplicated_empty
  first := by simp
  within := by simp

variable {prepared : List ℕ × List InstructionAccount}

/-- One more meta, and its account. -/
lemma index_concat (hlength : accounts.length = metas.length)
    (hindex : ∀ (j : ℕ) (m : AccountMeta), metas[j]? = some m → ∃ a, accounts[j]? = some a
      ∧ findIndexOfAccount keys m.pubkey = some a.indexInTransaction)
    (ha : findIndexOfAccount keys m.pubkey = some a.indexInTransaction) (j : ℕ) (m' : AccountMeta)
    (hm' : (metas ++ [m])[j]? = some m') : ∃ b, (accounts ++ [a])[j]? = some b
      ∧ findIndexOfAccount keys m'.pubkey = some b.indexInTransaction := by
  rcases getElem?_concat_eq_some.mp hm' with hm' | ⟨rfl, rfl⟩
  · obtain ⟨b, hb, hbi⟩ := hindex j m' hm'
    exact ⟨b, getElem?_concat_eq_some.mpr (.inl hb), hbi⟩
  · exact ⟨a, getElem?_concat_eq_some.mpr (.inr ⟨hlength.symm, rfl⟩), ha⟩

/-- One more meta. -/
lemma FirstPass.step (h : FirstPass keys metas dedupMap accounts) (hlen : metas.length < u16Max)
    (hstep : requestAccount keys (dedupMap, accounts) m = .ok prepared) :
    FirstPass keys (metas ++ [m]) prepared.1 prepared.2 := by
  have hlength := h.length
  have hlen' : accounts.length < u16Max := hlength ▸ hlen
  unfold requestAccount at hstep
  split at hstep
  · cases hstep
  rename_i index hindex
  split at hstep
  · cases hstep
  rename_i k hk
  have hilt : index < dedupMap.length := lt_length hk
  simp only at hstep
  split at hstep
  · -- the account was named before: its first position gets the privileges
    rename_i hlt
    obtain ⟨b, hb, hbi⟩ := h.dedup.sound index k hk hlt
    rw [hb] at hstep
    cases hstep
    have hgrant : (b.grant m.isSigner m.isWritable).indexInTransaction = b.indexInTransaction := rfl
    have hset := h.dedup.set hb hgrant
    have hreq : requested keys (metas ++ [m]) index = b.grant m.isSigner m.isWritable := by
      rw [requested_concat, if_pos hindex, h.first index k b hk hb]
    constructor
    · simp [h.length]
    · refine index_concat (by rw [length_set, hlength]) (fun j m' hm' => ?_)
        (by rw [hgrant, hbi, hindex])
      obtain ⟨a, ha, hai⟩ := h.index j m' hm'
      by_cases heq : k = j
      · subst heq
        cases hb.symm.trans ha
        exact ⟨b.grant m.isSigner m.isWritable, getElem?_set_self hlt, hai⟩
      · exact ⟨a, (getElem?_set_ne heq).trans ha, hai⟩
    · refine hset.append_again (by rw [length_set]; exact hlen') (k := k) ?_
        (by rw [length_set]; exact hlt)
      rw [hgrant, hbi, hk]
    · intro i' k' a hk' ha
      have hlt' := lt_length ha
      rw [length_append, length_set] at hlt'
      have hold := h.dedup.lt_of_lt_succ hlen' hk' hlt'
      rw [getElem?_append_left (by rw [length_set]; exact hold)] at ha
      obtain ⟨b', hb', hbi'⟩ := h.dedup.sound i' k' hk' hold
      by_cases hii : index = i'
      · subst hii
        cases hk.symm.trans hk'
        rw [getElem?_set_self hlt] at ha
        cases ha
        exact hreq.symm
      have hkk : k ≠ k' := by
        rintro rfl
        cases hb.symm.trans hb'
        exact hii (hbi.symm.trans hbi')
      rw [getElem?_set_ne hkk] at ha
      rw [requested_concat, if_neg (by rw [hindex]; simpa using hii)]
      exact h.first i' k' a hk' ha
    have hgranted : WithinRequest keys (metas ++ [m]) (b.grant m.isSigner m.isWritable) := by
      rw [← hreq]
      exact withinRequest_requested ..
    refine forall_mem_append.mpr ⟨fun a ha => ?_, forall_mem_singleton.mpr hgranted⟩
    rcases mem_or_eq_of_mem_set ha with ha | rfl
    · exact (h.within a ha).concat
    · exact hgranted
  -- the account is new
  rename_i hnew
  cases hstep
  have hmod : accounts.length % (u16Max + 1) = accounts.length := mod_eq_of_lt (by omega)
  simp only [hmod]
  have hnone : ∀ m' ∈ metas, findIndexOfAccount keys m'.pubkey ≠ some index := by
    intro m' hm' hsome
    obtain ⟨j, hj⟩ := mem_iff_getElem?.mp hm'
    obtain ⟨b, hb, hbi⟩ := h.index j m' hj
    have hbindex : b.indexInTransaction = index := by
      simpa using hbi.symm.trans hsome
    obtain ⟨k', hk', hle⟩ := h.dedup.complete j b hb
    rw [hbindex, hk] at hk'
    cases hk'
    have := lt_length hb
    omega
  have hbefore : requested keys metas index = ⟨index, false, false⟩ := by
    simp only [requested, signerRequested, writableRequested, mk.injEq, true_and, any_eq_false]
    constructor <;> intro m' hm' <;> simp [hnone m' hm']
  have hreq : requested keys (metas ++ [m]) index = ⟨index, m.isSigner, m.isWritable⟩ := by
    rw [requested_concat, if_pos hindex, hbefore]
    simp [grant]
  constructor
  · simp [h.length]
  · exact index_concat hlength h.index hindex
  · exact h.dedup.append hlen' hk hnew rfl
  · intro i' k' a hk' ha
    by_cases hii : index = i'
    · subst hii
      rw [getElem?_set_self hilt] at hk'
      cases hk'
      rw [hreq]
      simpa using ha.symm
    rw [getElem?_set_ne hii] at hk'
    have hlt' := lt_length ha
    rw [length_append] at hlt'
    rw [getElem?_append_left (h.dedup.lt_of_lt_succ hlen' hk' hlt')] at ha
    rw [requested_concat, if_neg (by rw [hindex]; simpa using hii)]
    exact h.first i' k' a hk' ha
  · refine forall_mem_append.mpr ⟨fun a ha => (h.within a ha).concat, forall_mem_singleton.mpr ?_⟩
    rw [← hreq]
    exact withinRequest_requested ..

/-- The whole first pass. -/
lemma firstPass_of_foldlM (hlen : metas.length ≤ u16Max)
    (h : metas.foldlM (requestAccount keys) (emptyDedupMap, []) = .ok prepared) :
    FirstPass keys metas prepared.1 prepared.2 := by
  refine foldlM_prefixes (fun done prepared => FirstPass keys done prepared.1 prepared.2)
    (fun done m rest prepared prepared' hmetas hpass hstep => hpass.step ?_ hstep)
    (firstPass_nil keys) h
  rw [hmetas, length_append, length_cons] at hlen
  omega

/-! ## The second pass -/

/-- What the caller passes on for one account. -/
structure PassedAt (keys : List ℕ) (caller : InstructionContext) (metas : List AccountMeta)
    (signers : List ℕ) (index : ℕ) : Prop where
  has : caller.Has index
  writes : writableRequested keys metas index = true → caller.Writes index
  signs : signerRequested keys metas index = true →
    caller.Signs index ∨ ∃ key ∈ signers, keys[index]? = some key

variable {signers : List ℕ} {current : ℕ}

/-- The key of the account that was found. -/
lemma getElem?_of_findIndexOfAccount {pubkey : ℕ}
    (h : findIndexOfAccount keys pubkey = some index) :
    keys[index]? = some pubkey := by
  obtain ⟨hlt, heq, -⟩ := findIdx?_eq_some_iff_getElem.mp h
  rw [getElem?_eq_getElem hlt, of_decide_eq_true heq]

/-- A check that succeeds. -/
lemma passedAt_of_checkPrivileges (h : WellFormed caller) (hm : metas[current]? = some m)
    (hindex : findIndexOfAccount keys m.pubkey = some index)
    (hcheck : checkPrivileges caller metas signers current (requested keys metas index) = .ok ()) :
    PassedAt keys caller metas signers index := by
  unfold checkPrivileges at hcheck
  split at hcheck
  · cases hcheck
  rename_i k hk
  obtain ⟨b, hb, hbi⟩ := getIndexOfAccountInInstruction_spec h hk
  have hmem : b ∈ caller.instructionAccounts := mem_of_getElem? hb
  have hbi : b.indexInTransaction = index := hbi
  rw [hm, hb] at hcheck
  dsimp only at hcheck
  split at hcheck
  · cases hcheck
  rename_i hwritable
  split at hcheck
  · cases hcheck
  rename_i hsigner
  refine ⟨⟨b, hmem, hbi⟩, fun hw => ⟨b, hmem, hbi, ?_⟩, fun hs => ?_⟩
  · simpa [requested, hw] using hwritable
  simp only [requested, hs] at hsigner
  cases hbs : b.isSigner with
  | true => exact .inl ⟨b, hmem, hbi, hbs⟩
  | false =>
    have hin : m.pubkey ∈ signers := by simpa [hbs] using hsigner
    exact .inr ⟨m.pubkey, hin, getElem?_of_findIndexOfAccount hindex⟩

/-- The state of the second pass before a position: the positions before it have all privileges that
are requested, and the first positions among them are checked. -/
structure SecondPass (keys : List ℕ) (caller : InstructionContext) (metas : List AccountMeta)
    (signers : List ℕ) (dedupMap : List ℕ) (requestedAccounts accounts : List InstructionAccount)
    (current : ℕ) : Prop where
  length : accounts.length = requestedAccounts.length
  settled : ∀ (j : ℕ) (a : InstructionAccount), requestedAccounts[j]? = some a → j < current →
    accounts[j]? = some (requested keys metas a.indexInTransaction)
  pending : ∀ j, current ≤ j → accounts[j]? = requestedAccounts[j]?
  passed : ∀ (j : ℕ) (a : InstructionAccount), requestedAccounts[j]? = some a → j < current →
    dedupMap[a.indexInTransaction]? = some j →
    PassedAt keys caller metas signers a.indexInTransaction

section
variable {requestedAccounts accounts' : List InstructionAccount} (hcaller : WellFormed caller)
  (hfirst : FirstPass keys metas dedupMap requestedAccounts)
include hcaller hfirst

/-- One more position. -/
lemma SecondPass.step
    (h : SecondPass keys caller metas signers dedupMap requestedAccounts accounts current)
    (hcurrent : current < requestedAccounts.length)
    (hstep : settleAccount caller metas signers dedupMap accounts current = .ok accounts') :
    SecondPass keys caller metas signers dedupMap requestedAccounts accounts' (current + 1) := by
  obtain ⟨a, ha⟩ : ∃ a, requestedAccounts[current]? = some a := ⟨_, getElem?_eq_getElem hcurrent⟩
  have hat : accounts[current]? = some a := (h.pending current le_rfl).trans ha
  obtain ⟨k, hk, hle⟩ := hfirst.dedup.complete current a ha
  unfold settleAccount at hstep
  rw [hat] at hstep
  simp only [hk] at hstep
  obtain ⟨b, hb, hbi⟩ := hfirst.dedup.sound _ k hk (hle.trans_lt hcurrent)
  have hbreq := hfirst.first _ k b hk hb
  split at hstep
  · -- a repeated account takes over the privileges of its first position, which is settled
    rename_i hne
    have hklt : k < current := lt_of_le_of_ne hle (Ne.symm hne)
    have href : accounts[k]? = some (requested keys metas a.indexInTransaction) := by
      rw [← hbi]
      exact h.settled k b hb hklt
    rw [href] at hstep
    cases hstep
    rw [(hfirst.within a (mem_of_getElem? ha)).grant]
    refine ⟨by rw [length_set, h.length], fun j a' ha' hj => ?_, fun j hj => ?_,
      fun j a' ha' hj hmap => ?_⟩
    · rcases Nat.lt_succ_iff_lt_or_eq.mp hj with hlt | rfl
      · rw [getElem?_set_ne hlt.ne', h.settled j a' ha' hlt]
      · cases ha.symm.trans ha'
        exact getElem?_set_self (h.length ▸ hcurrent)
    · rw [getElem?_set_ne (by omega), h.pending j (by omega)]
    rcases Nat.lt_succ_iff_lt_or_eq.mp hj with hlt | rfl
    · exact h.passed j a' ha' hlt hmap
    · cases ha.symm.trans ha'
      cases hk.symm.trans hmap
      exact absurd rfl hne
  -- a first position is checked against the caller
  rename_i heq
  rw [not_not] at heq
  subst heq
  cases ha.symm.trans hb
  obtain ⟨⟨⟩, hcheck, heq⟩ := map_eq_ok.mp hstep
  subst heq
  obtain ⟨m, hm⟩ : ∃ m, metas[current]? = some m :=
    ⟨_, getElem?_eq_getElem (hfirst.length ▸ hcurrent)⟩
  obtain ⟨a', ha', hindex⟩ := hfirst.index current m hm
  cases ha.symm.trans ha'
  rw [hbreq] at hcheck
  have hpassed := passedAt_of_checkPrivileges hcaller hm hindex hcheck
  refine ⟨h.length, fun j c hc hj => ?_, fun j hj => h.pending j (by omega),
    fun j c hc hj hmap => ?_⟩
  · rcases Nat.lt_succ_iff_lt_or_eq.mp hj with hlt | rfl
    · exact h.settled j c hc hlt
    · cases ha.symm.trans hc
      rw [hat]
      exact congrArg some hbreq
  · rcases Nat.lt_succ_iff_lt_or_eq.mp hj with hlt | rfl
    · exact h.passed j c hc hlt hmap
    · cases ha.symm.trans hc
      exact hpassed

/-- The whole second pass. -/
lemma secondPass_of_foldlM (h : (range requestedAccounts.length).foldlM
      (settleAccount caller metas signers dedupMap) requestedAccounts = .ok accounts') :
    SecondPass keys caller metas signers dedupMap requestedAccounts accounts'
      requestedAccounts.length := by
  have hall := foldlM_prefixes (fun done accounts => SecondPass keys caller metas signers dedupMap
    requestedAccounts accounts done.length) ?_ ?_ h
  · rwa [length_range] at hall
  · intro done current rest accounts accounts' hrange hpass hstep
    have hget : (range requestedAccounts.length)[done.length]? = some current := by
      simp [hrange]
    obtain ⟨hlt, rfl⟩ := List.getElem?_eq_some_iff.mp hget
    rw [length_range] at hlt
    rw [getElem_range] at hstep
    rw [length_append]
    exact hpass.step hcaller hfirst hlt hstep
  · exact ⟨rfl, fun j a _ hj => absurd hj (not_lt_zero j), fun j _ => rfl,
      fun j a _ hj => absurd hj (not_lt_zero j)⟩

end

/-! ## Invocations -/

/-- What an invocation gets from its caller. -/
structure Passed (keys : List ℕ) (caller callee : InstructionContext) (signers : List ℕ) :
    Prop where
  has : ∀ i, callee.Has i → caller.Has i
  program : caller.Has callee.programAccountIndexInTx
  writes : ∀ i, callee.Writes i → caller.Writes i
  signs : ∀ i, callee.Signs i → caller.Signs i ∨ ∃ key ∈ signers, keys[i]? = some key

/-- A program that was found is among the accounts of the caller. -/
lemma has_of_findProgram {programId : ℕ} (h : WellFormed caller)
    (hfind : findProgram keys caller programId = .ok index) : caller.Has index := by
  unfold findProgram at hfind
  split at hfind
  · cases hfind
  split at hfind
  · cases hfind
  rename_i k hk
  cases hfind
  obtain ⟨b, hb, hbi⟩ := getIndexOfAccountInInstruction_spec h hk
  exact ⟨b, mem_of_getElem? hb, hbi⟩

/-- The accounts of an invocation that is prepared: each with all privileges that are requested for
it, and no more than the caller passes on. -/
theorem prepareAccounts_spec {instruction : Instruction} (hcaller : WellFormed caller)
    (hlen : instruction.accounts.length ≤ u16Max)
    (h : prepareAccounts keys caller instruction signers = .ok callee) :
    WellFormed callee ∧ Passed keys caller callee signers
      ∧ callee.instructionAccounts.length = instruction.accounts.length
      ∧ ∀ (j : ℕ) (m : AccountMeta), instruction.accounts[j]? = some m →
        ∃ i, findIndexOfAccount keys m.pubkey = some i
          ∧ callee.instructionAccounts[j]? = some (requested keys instruction.accounts i) := by
  obtain ⟨⟨dedupMap, requestedAccounts⟩, hpass₁, h⟩ := bind_eq_ok.mp h
  obtain ⟨accounts, hpass₂, h⟩ := bind_eq_ok.mp h
  obtain ⟨program, hprogram, h⟩ := bind_eq_ok.mp h
  cases h
  have hfirst := firstPass_of_foldlM hlen hpass₁
  have hsecond := secondPass_of_foldlM hcaller hfirst hpass₂
  have hlength : accounts.length = requestedAccounts.length := hsecond.length
  have hall : ∀ (j : ℕ) (a : InstructionAccount), accounts[j]? = some a →
      ∃ b, requestedAccounts[j]? = some b
        ∧ a = requested keys instruction.accounts b.indexInTransaction := by
    intro j a ha
    have hj : j < requestedAccounts.length := hlength ▸ lt_length ha
    refine ⟨_, getElem?_eq_getElem hj, ?_⟩
    have := hsecond.settled j _ (getElem?_eq_getElem hj) hj
    simpa using ha.symm.trans this
  have hmem : ∀ a ∈ accounts, a = requested keys instruction.accounts a.indexInTransaction
      ∧ PassedAt keys caller instruction.accounts signers a.indexInTransaction := by
    intro a ha
    obtain ⟨j, hj⟩ := mem_iff_getElem?.mp ha
    obtain ⟨b, hb, rfl⟩ := hall j a hj
    refine ⟨rfl, ?_⟩
    obtain ⟨k, hk, hle⟩ := hfirst.dedup.complete j b hb
    have hklt : k < requestedAccounts.length := hle.trans_lt (lt_length hb)
    obtain ⟨b', hb', hbi'⟩ := hfirst.dedup.sound _ k hk hklt
    have hpassed := hsecond.passed k b' hb' hklt (hbi' ▸ hk)
    exact hbi' ▸ hpassed
  refine ⟨⟨?_, ⟨hfirst.dedup.length, ?_, ?_, ?_⟩, ?_⟩, ⟨?_, ?_, ?_, ?_⟩, ?_, ?_⟩
  · exact (hlength.trans hfirst.length).trans_le hlen
  · intro i k hi hk
    obtain ⟨b, hb, hbi⟩ := hfirst.dedup.sound i k hi (hlength ▸ hk)
    refine ⟨_, hsecond.settled k b hb (hlength ▸ hk), hbi⟩
  · intro j a ha
    obtain ⟨b, hb, rfl⟩ := hall j a ha
    exact hfirst.dedup.complete j b hb
  · intro i k hi
    rw [hlength]
    exact hfirst.dedup.absent i k hi
  · intro a ha b hb heq
    rw [(hmem a ha).1, (hmem b hb).1, heq]
  · rintro i ⟨a, ha, rfl⟩
    exact (hmem a ha).2.has
  · exact has_of_findProgram hcaller hprogram
  · rintro i ⟨a, ha, rfl, hw⟩
    exact (hmem a ha).2.writes (by rwa [(hmem a ha).1] at hw)
  · rintro i ⟨a, ha, rfl, hs⟩
    exact (hmem a ha).2.signs (by rwa [(hmem a ha).1] at hs)
  · exact hlength.trans hfirst.length
  · intro j m hm
    obtain ⟨a, ha, hindex⟩ := hfirst.index j m hm
    have hj : j < requestedAccounts.length := lt_length ha
    exact ⟨_, hindex, hsecond.settled j a ha hj⟩

/-! ### No panic -/

lemma requestAccount_ne_panic (hkeys : keys.length ≤ maxAccountsPerTransaction)
    (hmap : prepared.1.length = maxAccountsPerTransaction) :
    requestAccount keys prepared m ≠ .error .panic := by
  unfold requestAccount
  split
  · simp
  rename_i index hindex
  have hlt : index < prepared.1.length := by
    have := lt_length (getElem?_of_findIndexOfAccount hindex)
    omega
  rw [getElem?_eq_getElem hlt]
  dsimp only
  split
  · split <;> simp
  · simp

lemma requestAccount_map_length {prepared' : List ℕ × List InstructionAccount}
    (h : requestAccount keys prepared m = .ok prepared') :
    prepared'.1.length = prepared.1.length := by
  unfold requestAccount at h
  split at h
  · cases h
  split at h
  · cases h
  split at h
  · split at h
    · cases h
    · cases h
      rfl
  · cases h
    simp

lemma checkPrivileges_ne_panic (caller : InstructionContext) (signers : List ℕ)
    (a : InstructionAccount) (hcurrent : current < metas.length) :
    checkPrivileges caller metas signers current a ≠ .error .panic := by
  unfold checkPrivileges InstructionContext.getIndexOfAccountInInstruction
  rw [getElem?_eq_getElem hcurrent]
  cases hmap : caller.dedupMap[a.indexInTransaction]? with
  | none => simp
  | some k =>
    by_cases hk : k ≥ caller.instructionAccounts.length
    · simp [hk]
    simp only [hk, if_false]
    rw [getElem?_eq_getElem (not_le.mp hk)]
    dsimp only
    split
    · simp
    · split <;> simp

/-- The accounts of the second pass are where the first pass has put them. -/
lemma settleAccount_ne_panic (hmap : dedupMap.length = maxAccountsPerTransaction)
    (hcurrent : current < metas.length) (hlength : accounts.length = metas.length)
    (hindex : ∀ a ∈ accounts, a.indexInTransaction < maxAccountsPerTransaction) :
    settleAccount caller metas signers dedupMap accounts current ≠ .error .panic := by
  have hlt : current < accounts.length := hlength ▸ hcurrent
  unfold settleAccount
  rw [getElem?_eq_getElem hlt]
  have hidx := hindex _ (getElem_mem hlt)
  dsimp only
  rw [getElem?_eq_getElem (hmap ▸ hidx)]
  dsimp only
  split
  · split <;> simp
  have hcheck := checkPrivileges_ne_panic caller signers accounts[current] hcurrent
  cases hresult : checkPrivileges caller metas signers current accounts[current] with
  | error failure =>
    rw [hresult] at hcheck
    simpa [Except.map] using hcheck
  | ok u => simp [Except.map]

lemma settleAccount_accounts {accounts' : List InstructionAccount}
    (h : settleAccount caller metas signers dedupMap accounts current = .ok accounts') :
    accounts' = accounts ∨ ∃ a b, accounts[current]? = some a
      ∧ b.indexInTransaction = a.indexInTransaction ∧ accounts' = accounts.set current b := by
  unfold settleAccount at h
  split at h
  · cases h
  rename_i a ha
  split at h
  · cases h
  split at h
  · split at h
    · cases h
    · cases h
      rename_i reference _
      exact .inr ⟨a, a.grant reference.isSigner reference.isWritable, ha, rfl, rfl⟩
  · obtain ⟨-, -, rfl⟩ := map_eq_ok.mp h
    exact .inl rfl

lemma findProgram_ne_panic (keys : List ℕ) (caller : InstructionContext) (programId : ℕ) :
    findProgram keys caller programId ≠ .error .panic := by
  unfold findProgram
  split
  · simp
  · split <;> simp

/-- The preparation of an invocation does not panic. -/
theorem prepareAccounts_ne_panic {instruction : Instruction} (caller : InstructionContext)
    (signers : List ℕ) (hkeys : keys.length ≤ maxAccountsPerTransaction)
    (hlen : instruction.accounts.length ≤ u16Max) :
    prepareAccounts keys caller instruction signers ≠ .error .panic := by
  intro hpanic
  obtain hpass₁ | ⟨⟨dedupMap, requestedAccounts⟩, hpass₁, hpanic⟩ := bind_eq_error.mp hpanic
  · refine foldlM_ne_error (fun prepared => prepared.1.length = maxAccountsPerTransaction)
      (fun prepared h m _ => requestAccount_ne_panic hkeys h)
      (fun prepared h m _ prepared' hstep => (requestAccount_map_length hstep).trans h) ?_ hpass₁
    simp [emptyDedupMap]
  have hfirst := firstPass_of_foldlM hlen hpass₁
  obtain hpass₂ | ⟨accounts, -, hpanic⟩ := bind_eq_error.mp hpanic
  · refine foldlM_ne_error (fun accounts => accounts.length = instruction.accounts.length
        ∧ ∀ a ∈ accounts, a.indexInTransaction < maxAccountsPerTransaction)
      (fun accounts h current hcurrent => settleAccount_ne_panic hfirst.dedup.length
        (hfirst.length ▸ mem_range.mp hcurrent) h.1 h.2) ?_ ⟨hfirst.length, fun a ha => ?_⟩ hpass₂
    · rintro accounts ⟨hlength, hindex⟩ current - accounts' hstep
      rcases settleAccount_accounts hstep with rfl | ⟨a, b, ha, hb, rfl⟩
      · exact ⟨hlength, hindex⟩
      refine ⟨by rw [length_set, hlength], fun c hc => ?_⟩
      rcases mem_or_eq_of_mem_set hc with hc | rfl
      · exact hindex c hc
      · rw [hb]
        exact hindex a (mem_of_getElem? ha)
    · obtain ⟨j, hj⟩ := mem_iff_getElem?.mp ha
      obtain ⟨k, hk, -⟩ := hfirst.dedup.complete j a hj
      exact hfirst.dedup.length ▸ lt_length hk
  obtain hprogram | ⟨program, -, hpanic⟩ := bind_eq_error.mp hpanic
  · exact findProgram_ne_panic keys caller instruction.programId hprogram
  · cases hpanic

/-! ## Top-level instructions -/

/-- What a top-level instruction gets from the message. -/
structure FromMessage (message : Message) (context : InstructionContext) : Prop where
  wellFormed : WellFormed context
  flags : ∀ a ∈ context.instructionAccounts, a.isSigner = message.isSigner a.indexInTransaction
    ∧ a.isWritable = message.isWritable a.indexInTransaction

/-- The accounts of a top-level instruction have the privileges the message gives them. -/
theorem prepareTopLevelAccounts_spec {message : Message} {indices : List (Fin 256)}
    {program : ℕ} (hlen : indices.length ≤ u16Max)
    (h : prepareTopLevelAccounts message indices program = .ok callee) :
    FromMessage message callee ∧ callee.instructionAccounts.length = indices.length := by
  obtain ⟨prepared, hrun, rfl⟩ := map_eq_ok.mp h
  have hall := foldlM_prefixes (fun done prepared => prepared.2.length = done.length
    ∧ Deduplicated prepared.2 prepared.1
    ∧ ∀ a ∈ prepared.2, a.isSigner = message.isSigner a.indexInTransaction
      ∧ a.isWritable = message.isWritable a.indexInTransaction) ?_ ?_ hrun
  · obtain ⟨hlength, hdedup, hflags⟩ := hall
    refine ⟨⟨⟨hlength.trans_le hlen, hdedup, ?_⟩, hflags⟩, hlength⟩
    rintro ⟨i, s, w⟩ ha ⟨i', s', w'⟩ hb heq
    obtain ⟨hs, hw⟩ := hflags _ ha
    obtain ⟨hs', hw'⟩ := hflags _ hb
    simp only at heq hs hw hs' hw'
    rw [hs, hw, hs', hw', heq]
  · rintro done index rest ⟨dedupMap, accounts⟩ ⟨dedupMap', accounts'⟩ hindices
      ⟨hlength : accounts.length = done.length, hdedup : Deduplicated accounts dedupMap,
        hflags⟩ hstep
    rw [hindices, length_append, length_cons] at hlen
    unfold addTopLevelAccount at hstep
    split at hstep
    · cases hstep
    rename_i k hk
    have hmod : accounts.length % (u16Max + 1) = accounts.length := mod_eq_of_lt (by omega)
    simp only [hmod] at hstep
    cases hstep
    refine ⟨by simp [hlength], ?_, forall_mem_append.mpr ⟨hflags, by simp⟩⟩
    split
    · exact hdedup.append (by omega) hk (by omega) rfl
    · exact hdedup.append_again (by omega) hk (hdedup.lt_of_lt_succ (by omega) hk (by omega))
  · exact ⟨rfl, deduplicated_empty, by simp⟩

end Trezoa.ProgramRuntime
