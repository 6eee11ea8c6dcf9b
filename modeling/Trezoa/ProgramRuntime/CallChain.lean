import Trezoa.ProgramRuntime.Privileges

/-!
# Chains of cross-program invocations

A transaction executes its top-level instructions one after the other, each of which may invoke
other programs to any depth. The privileges of an instruction are those of the message, narrowed
down by every instruction that calls on, and widened only by the program signers of a call.
-/

namespace Trezoa.ProgramRuntime

open Lib List TransactionContext Nat

/-! ## Runs -/

/-- The request of a cross-program invocation. -/
structure Request where
  instruction : Instruction
  signers : List ℕ

/-- What a transaction does next. -/
inductive Event where
  /-- The message processor executes a top-level instruction. -/
  | topLevel (accounts : List (Fin 256)) (programAccountIndex : ℕ)
  /-- The instruction that is being executed invokes a program. -/
  | invoke (request : Request)
  /-- The instruction that is being executed returns. -/
  | ret

/-- No more accounts than the positions of 16 bits. -/
def Event.Bounded : Event → Prop
  | .topLevel accounts _ => accounts.length ≤ u16Max
  | .invoke request => request.instruction.accounts.length ≤ u16Max
  | .ret => True

instance : DecidablePred Event.Bounded := fun event =>
  match event with
  | .topLevel .. => inferInstanceAs (Decidable (_ ≤ _))
  | .invoke _ => inferInstanceAs (Decidable (_ ≤ _))
  | .ret => inferInstanceAs (Decidable True)

/-- A transaction, and for each instruction of its trace the request it comes from, if it is no
top-level one. -/
structure Execution where
  ctx : TransactionContext
  requests : List (Option Request)

namespace Execution

/-- Before the first instruction. -/
def new (keys : List ℕ) (stackCapacity traceCapacity : ℕ) : Execution :=
  ⟨.new keys stackCapacity traceCapacity, []⟩

/-- Executes the instruction that was prepared. -/
def enter (e : Execution) (request : Option Request)
    (prepared : Except Failure Unit × TransactionContext) : Except Failure Execution :=
  match prepared with
  | (.error failure, _) => .error failure
  | (.ok (), ctx) => ctx.push.map fun ctx => ⟨ctx, e.requests ++ [request]⟩

/-- One step; after a failure the transaction is over. A top-level instruction starts only when none
is being executed. -/
def step (message : Message) (e : Execution) : Event → Except Failure Execution
  | .topLevel accounts programAccountIndex =>
    if e.ctx.instructionStack ≠ [] then .error (.instruction .callDepth)
    else e.enter none (e.ctx.prepareNextTopLevelInstruction message accounts programAccountIndex)
  | .invoke request => e.enter (some request)
      (e.ctx.prepareNextInstruction request.instruction request.signers)
  | .ret => e.ctx.pop.map fun ctx => { e with ctx }

/-- The steps one after the other. -/
def run (message : Message) (e : Execution) (events : List Event) : Except Failure Execution :=
  events.foldlM (step message) e

end Execution

/-! ## The instructions that are being executed -/

/-- An instruction, and the request it comes from. -/
structure Frame where
  context : InstructionContext
  request : Option Request

/-- The program signers of an instruction. -/
def Frame.signers (f : Frame) : List ℕ := (f.request.map Request.signers).getD []

/-- The instruction at a position of the trace. -/
def Execution.frameAt (e : Execution) (index : ℕ) : Frame where
  context := ⟨(e.ctx.instructionTrace[index]?.map (·.programAccountIndexInTx)).getD 0,
    e.ctx.instructionAccounts[index]?.getD [], e.ctx.deduplicationMaps[index]?.getD []⟩
  request := (e.requests[index]?).getD none

/-- The instructions that are being executed, the last one first. -/
def Execution.frames (e : Execution) : List Frame := e.ctx.instructionStack.map e.frameAt

/-- The account is a signer of the message or one of the program signers of an invocation on the
chain, and every instruction from there on passes the signer flag on. -/
def SignedFor (message : Message) (keys : List ℕ) (index : ℕ) (chain : List Frame) : Prop :=
  ∃ above g below, chain = above ++ g :: below ∧ (∀ h ∈ above ++ [g], h.context.Signs index)
    ∧ (below = [] ∧ message.isSigner index = true
      ∨ below ≠ [] ∧ ∃ key ∈ g.signers, keys[index]? = some key)

/-- What holds of an instruction and the ones below it on the stack. -/
structure Secure (message : Message) (keys : List ℕ) (f : Frame) (below : List Frame) : Prop where
  /-- All occurrences of an account have the same privileges. -/
  uniform : ∀ a ∈ f.context.instructionAccounts, ∀ b ∈ f.context.instructionAccounts,
    a.indexInTransaction = b.indexInTransaction →
      a.isSigner = b.isSigner ∧ a.isWritable = b.isWritable
  /-- A top-level instruction is the first one, and every other one comes from a request. -/
  request : f.request = none ↔ below = []
  /-- The privileges of an invocation are those requested for the account in any of its metas. -/
  union : ∀ request, f.request = some request →
    f.context.instructionAccounts.length = request.instruction.accounts.length
      ∧ ∀ (j : ℕ) (m : AccountMeta), request.instruction.accounts[j]? = some m →
        ∃ i, findIndexOfAccount keys m.pubkey = some i ∧ f.context.instructionAccounts[j]?
          = some (requested keys request.instruction.accounts i)
  /-- An account is writable only if it is in every instruction of the chain and in the message. -/
  writes : ∀ i, f.context.Writes i → message.isWritable i = true ∧ ∀ g ∈ below, g.context.Writes i
  signs : ∀ i, f.context.Signs i → SignedFor message keys i (f :: below)
  /-- The accounts and the program of an invocation are among the accounts of the caller. -/
  has : ∀ caller rest, below = caller :: rest →
    (∀ i, f.context.Has i → caller.context.Has i)
      ∧ caller.context.Has f.context.programAccountIndexInTx

/-- A request that asks for more than the caller has. -/
def Violates (keys : List ℕ) (caller : InstructionContext) (request : Request) : Prop :=
  (∃ m ∈ request.instruction.accounts, ∀ i, findIndexOfAccount keys m.pubkey = some i →
    ¬ caller.Has i ∨ m.isWritable = true ∧ ¬ caller.Writes i
      ∨ m.isSigner = true ∧ ¬ caller.Signs i ∧ m.pubkey ∉ request.signers)
  ∨ ∀ i, findIndexOfAccount keys request.instruction.programId = some i → ¬ caller.Has i

/-! ## The chain -/

/-- The instructions that are being executed: each one but the first gets its privileges from the
one below. -/
inductive Chain (message : Message) (keys : List ℕ) : List Frame → Prop
  | nil : Chain message keys []
  | topLevel (f : Frame) (hf : FromMessage message f.context) (hrequest : f.request = none) :
      Chain message keys [f]
  | invoke (f caller : Frame) (rest : List Frame) (request : Request)
      (hcaller : Chain message keys (caller :: rest)) (hrequest : f.request = some request)
      (hwell : WellFormed f.context)
      (hpassed : Passed keys caller.context f.context request.signers)
      (hunion : f.context.instructionAccounts.length = request.instruction.accounts.length
        ∧ ∀ (j : ℕ) (m : AccountMeta), request.instruction.accounts[j]? = some m →
          ∃ i, findIndexOfAccount keys m.pubkey = some i ∧ f.context.instructionAccounts[j]?
            = some (requested keys request.instruction.accounts i)) :
      Chain message keys (f :: caller :: rest)

namespace Chain

variable {message : Message} {keys : List ℕ} {f : Frame} {below : List Frame} {i : ℕ}

section
variable (h : Chain message keys (f :: below))
include h

lemma wellFormed : WellFormed f.context := by
  cases h with
  | topLevel f hf _ => exact hf.wellFormed
  | invoke f caller rest request _ _ hwell => exact hwell

/-- Write access comes from the message through all instructions. -/
lemma writes (hw : f.context.Writes i) :
    message.isWritable i = true ∧ ∀ g ∈ below, g.context.Writes i := by
  induction below generalizing f with
  | nil =>
    cases h with
    | topLevel f hf _ =>
      obtain ⟨a, ha, rfl, hwritable⟩ := hw
      exact ⟨(hf.flags a ha).2.symm.trans hwritable, by simp⟩
  | cons caller rest ih =>
    cases h with
    | invoke _ _ _ request hcaller _ _ hpassed _ =>
      have hcw := hpassed.writes i hw
      obtain ⟨hmessage, hrest⟩ := ih hcaller hcw
      exact ⟨hmessage, by simpa using ⟨hcw, hrest⟩⟩

/-- A signer comes from the message or from program signers through all instructions above. -/
lemma signs (hs : f.context.Signs i) : SignedFor message keys i (f :: below) := by
  induction below generalizing f with
  | nil =>
    cases h with
    | topLevel f hf _ =>
      refine ⟨[], f, [], rfl, by simpa using hs, .inl ⟨rfl, ?_⟩⟩
      obtain ⟨a, ha, rfl, hsigner⟩ := hs
      exact (hf.flags a ha).1.symm.trans hsigner
  | cons caller rest ih =>
    cases h with
    | invoke _ _ _ request hcaller hrequest _ hpassed _ =>
      rcases hpassed.signs i hs with hcs | ⟨key, hkey, hat⟩
      · obtain ⟨above, g, below, hchain, hsigns, hsource⟩ := ih hcaller hcs
        refine ⟨f :: above, g, below, by rw [hchain]; rfl, ?_, hsource⟩
        rw [cons_append]
        exact forall_mem_cons.mpr ⟨hs, hsigns⟩
      · refine ⟨[], f, caller :: rest, rfl, by simpa using hs, .inr ⟨by simp, key, ?_, hat⟩⟩
        rw [Frame.signers, hrequest]
        exact hkey

lemma secure : Secure message keys f below where
  uniform a ha b hb heq := by
    rw [h.wellFormed.uniform a ha b hb heq]
    exact ⟨rfl, rfl⟩
  request := by
    cases h with
    | topLevel f _ hrequest => simp [hrequest]
    | invoke f caller rest request _ hrequest => simp [hrequest]
  union request hrequest := by
    cases h with
    | topLevel f _ hnone => cases hnone.symm.trans hrequest
    | invoke f caller rest request' _ hrequest' _ _ hunion =>
      cases hrequest'.symm.trans hrequest
      exact hunion
  writes i := h.writes
  signs i := h.signs
  has caller rest hbelow := by
    subst hbelow
    cases h with
    | invoke _ _ _ request _ _ _ hpassed _ => exact ⟨hpassed.has, hpassed.program⟩

/-- The instructions below one are a chain themselves. -/
lemma tail : Chain message keys below := by
  cases h with
  | topLevel => exact .nil
  | invoke _ _ _ _ hcaller => exact hcaller

end

lemma of_suffix {chain part : List Frame} (h : Chain message keys chain) (hpart : part <:+ chain) :
    Chain message keys part := by
  obtain ⟨above, rfl⟩ := hpart
  induction above with
  | nil => exact h
  | cons f above ih => exact ih h.tail

end Chain

/-! ## The invariant of runs -/

namespace Execution

variable {message : Message} {e e' : Execution} {request : Option Request}
  {next : InstructionContext} {callerIndex : Option ℕ} {ctx : TransactionContext} {index : ℕ}

/-- The accounts, the deduplication maps and the requests lie under the positions of the trace, and
the instructions on the stack are a chain. -/
structure Invariant (message : Message) (keys : List ℕ) (e : Execution) : Prop where
  accountKeys : e.ctx.accountKeys = keys
  trace : e.ctx.instructionTrace.length = e.requests.length + 1
  accounts : e.ctx.instructionAccounts.length = e.requests.length
  maps : e.ctx.deduplicationMaps.length = e.requests.length
  stack : ∀ index ∈ e.ctx.instructionStack, index < e.requests.length
  chain : Chain message keys e.frames

variable {keys : List ℕ}

lemma invariant_new (message : Message) (keys : List ℕ) (stackCapacity traceCapacity : ℕ) :
    Invariant message keys (new keys stackCapacity traceCapacity) :=
  ⟨rfl, rfl, rfl, rfl, by simp [new, TransactionContext.new], .nil⟩

section
variable (h : Invariant message keys e)
include h

/-- The view of an instruction of the trace. -/
lemma Invariant.getInstructionContextAtIndexInTrace (hindex : index < e.requests.length) :
    e.ctx.getInstructionContextAtIndexInTrace index = .ok (e.frameAt index).context := by
  have hlt : index < e.ctx.instructionTrace.length := by
    rw [h.trace]
    omega
  simp [TransactionContext.getInstructionContextAtIndexInTrace, frameAt, getElem?_eq_getElem hlt]

/-- What a successful `enter` does: the prepared instruction lies on top of the stack. -/
lemma Invariant.enter
    (henter : e.enter request (e.ctx.configureNextInstruction next callerIndex) = .ok e')
    (hchain : Chain message keys (⟨next, request⟩ :: e.frames)) : Invariant message keys e' := by
  unfold Execution.enter configureNextInstruction at henter
  rw [getLast?_eq_some_getLast (ne_nil_of_length_eq_add_one h.trace)] at henter
  obtain ⟨ctx, hpush, rfl⟩ := map_eq_ok.mp henter
  unfold push at hpush
  obtain ⟨-, -, hpush⟩ := bind_eq_ok.mp hpush
  have hlen : e.ctx.instructionTrace.dropLast.length = e.requests.length := by
    rw [length_dropLast, h.trace]
    rfl
  simp only [getLast?_append, getLast?_singleton, Option.some_or, length_append,
    length_singleton, Nat.add_sub_cancel, dropLast_append_of_ne_nil (cons_ne_nil _ _),
    dropLast_singleton, append_nil, hlen] at hpush
  split_ifs at hpush
  cases hpush
  refine ⟨h.accountKeys, by simp [hlen], by simp [h.accounts], by simp [h.maps], ?_, ?_⟩
  · intro index hindex
    rw [length_append, length_singleton]
    rcases mem_cons.mp hindex with rfl | hindex
    · omega
    · exact (h.stack index hindex).trans (Nat.lt_succ_self _)
  convert hchain using 1
  unfold frames
  rw [map_cons]
  congr 1
  · simp only [frameAt, Frame.mk.injEq]
    have haccounts := h.accounts
    have hmaps := h.maps
    refine ⟨?_, by simp⟩
    rw [getElem?_append_right hlen.le, getElem?_append_right haccounts.le,
      getElem?_append_right hmaps.le, hlen, haccounts, hmaps]
    simp
  refine map_congr_left fun index hindex => ?_
  have hlt := h.stack index hindex
  simp only [frameAt, Frame.mk.injEq]
  rw [getElem?_append_left (hlen.symm ▸ hlt), getElem?_append_left (h.accounts ▸ hlt),
    getElem?_append_left (h.maps ▸ hlt), getElem?_append_left hlt,
    getElem?_dropLast, if_pos (by rw [h.trace]; omega)]
  exact ⟨rfl, rfl⟩

/-- What an invocation is prepared from: the instruction that is being executed. -/
lemma Invariant.prepareCallee {caller : Frame} {below : List Frame} {r : Request}
    (hframes : e.frames = caller :: below) :
    e.ctx.prepareCallee r.instruction r.signers =
      prepareAccounts keys caller.context r.instruction r.signers := by
  obtain ⟨index, stack, hstack, rfl, rfl⟩ := map_eq_cons_iff.mp hframes
  have hindex := h.stack index (by rw [hstack]; exact .head _)
  unfold TransactionContext.prepareCallee getCurrentInstructionContext
  simp [hstack, h.getInstructionContextAtIndexInTrace hindex, h.accountKeys]

/-- Every step keeps the invariant. -/
theorem Invariant.step {event : Event} (hbounded : event.Bounded)
    (hstep : e.step message event = .ok e') : Invariant message keys e' := by
  cases event with
  | topLevel accounts programAccountIndex =>
    simp only [Execution.step, prepareNextTopLevelInstruction] at hstep
    split at hstep
    · cases hstep
    rename_i hempty
    cases hprepare : prepareTopLevelAccounts message accounts programAccountIndex with
    | error failure =>
      rw [hprepare] at hstep
      cases hstep
    | ok next =>
      rw [hprepare] at hstep
      refine h.enter hstep ?_
      rw [frames, not_not.mp hempty]
      exact .topLevel _ (prepareTopLevelAccounts_spec hbounded hprepare).1 rfl
  | invoke request =>
    simp only [Execution.step, prepareNextInstruction] at hstep
    cases hprepare : e.ctx.prepareCallee request.instruction request.signers with
    | error failure =>
      rw [hprepare] at hstep
      cases hstep
    | ok next =>
      rw [hprepare] at hstep
      refine h.enter hstep ?_
      cases hframes : e.frames with
      | nil =>
        unfold TransactionContext.prepareCallee getCurrentInstructionContext at hprepare
        rw [map_eq_nil_iff.mp hframes] at hprepare
        cases hprepare
      | cons caller below =>
        rw [h.prepareCallee hframes] at hprepare
        have hchain := hframes ▸ h.chain
        obtain ⟨hwell, hpassed, hunion⟩ := prepareAccounts_spec hchain.wellFormed hbounded hprepare
        exact .invoke _ caller below request hchain rfl hwell hpassed hunion
  | ret =>
    obtain ⟨ctx, hpop, rfl⟩ := map_eq_ok.mp hstep
    unfold pop at hpop
    split at hpop
    · cases hpop
    rename_i index stack hstack
    cases hpop
    refine ⟨h.accountKeys, h.trace, h.accounts, h.maps, fun i hi => h.stack i ?_, ?_⟩
    · rw [hstack]
      exact .tail _ hi
    · have hchain := h.chain
      rw [frames, hstack, map_cons] at hchain
      exact hchain.tail

/-- Every run keeps the invariant. -/
lemma Invariant.run {events : List Event}
    (hbounded : ∀ event ∈ events, event.Bounded) (hrun : e.run message events = .ok e') :
    Invariant message keys e' := by
  refine foldlM_invariant (Invariant message keys) ?_ h hrun
  intro e₁ h₁ event hevent e₂ hstep
  exact h₁.step (hbounded event hevent) hstep

end

/-! ## Security -/

/-- An invocation that is prepared asks for nothing the caller does not have. -/
lemma not_violates {caller callee : InstructionContext} {r : Request} (hcaller : WellFormed caller)
    (hlen : r.instruction.accounts.length ≤ u16Max)
    (h : prepareAccounts keys caller r.instruction r.signers = .ok callee) :
    ¬ Violates keys caller r := by
  obtain ⟨-, hpassed, -, hunion⟩ := prepareAccounts_spec hcaller hlen h
  rintro (⟨m, hm, hbad⟩ | hbad)
  · obtain ⟨j, hj⟩ := mem_iff_getElem?.mp hm
    obtain ⟨i, hi, ha⟩ := hunion j m hj
    have hmem := mem_of_getElem? ha
    rcases hbad i hi with hhas | ⟨hw, hwrites⟩ | ⟨hs, hsigns, hsigner⟩
    · exact hhas (hpassed.has i ⟨_, hmem, rfl⟩)
    · refine hwrites (hpassed.writes i ⟨_, hmem, rfl, ?_⟩)
      exact any_eq_true.mpr ⟨m, hm, by simp [hi, hw]⟩
    rcases hpassed.signs i ⟨_, hmem, rfl, any_eq_true.mpr ⟨m, hm, by simp [hi, hs]⟩⟩ with
      hcs | ⟨key, hkey, hat⟩
    · exact hsigns hcs
    · cases (getElem?_of_findIndexOfAccount hi).symm.trans hat
      exact hsigner hkey
  obtain ⟨⟨dedupMap, requestedAccounts⟩, -, h⟩ := bind_eq_ok.mp h
  obtain ⟨accounts, -, h⟩ := bind_eq_ok.mp h
  obtain ⟨program, hprogram, h⟩ := bind_eq_ok.mp h
  have hhas := has_of_findProgram hcaller hprogram
  unfold findProgram at hprogram
  split at hprogram
  · cases hprogram
  rename_i index hindex
  split at hprogram
  · cases hprogram
  cases hprogram
  exact hbad program hindex hhas

/-- A request that fails changes nothing. -/
lemma prepareNextInstruction_of_error {r : Request} {failure : Failure}
    (hprepare : e.ctx.prepareNextInstruction r.instruction r.signers = (.error failure, ctx)) :
    ctx = e.ctx := by
  unfold prepareNextInstruction at hprepare
  split at hprepare
  · cases hprepare
    rfl
  unfold configureNextInstruction at hprepare
  split at hprepare
  · cases hprepare
    rfl
  · cases hprepare

/-- In every run of a transaction with at most 256 accounts, whose instructions name at most
`u16Max` accounts each, every instruction that is executed is secure: its accounts have one set of
privileges each, an invocation those that are requested, no more than the message and the chain of
its callers allow, and no other accounts than its caller. A request that asks for more is refused
with an error, and a request that fails changes nothing. -/
theorem run_secure (message : Message) (keys : List ℕ) (stackCapacity traceCapacity : ℕ)
    (hkeys : keys.length ≤ maxAccountsPerTransaction) (events : List Event)
    (hbounded : ∀ event ∈ events, event.Bounded) (e : Execution)
    (hrun : (new keys stackCapacity traceCapacity).run message events = .ok e) :
    (∀ f below, f :: below <:+ e.frames → Secure message keys f below)
      ∧ ∀ r : Request, r.instruction.accounts.length ≤ u16Max →
        (∀ failure ctx, e.ctx.prepareNextInstruction r.instruction r.signers
          = (.error failure, ctx) → ctx = e.ctx)
        ∧ ∀ caller below, e.frames = caller :: below → Violates keys caller.context r →
          ∃ error, e.ctx.prepareNextInstruction r.instruction r.signers
            = (.error (.instruction error), e.ctx) := by
  have h := (invariant_new message keys stackCapacity traceCapacity).run hbounded hrun
  refine ⟨fun f below hpart => (h.chain.of_suffix hpart).secure,
    fun r hlen => ⟨fun failure ctx => prepareNextInstruction_of_error, ?_⟩⟩
  intro caller below hframes hviolates
  have hchain := hframes ▸ h.chain
  have hne := prepareAccounts_ne_panic caller.context r.signers hkeys hlen
  unfold prepareNextInstruction
  rw [h.prepareCallee hframes]
  cases hprepare : prepareAccounts keys caller.context r.instruction r.signers with
  | ok callee => exact absurd hviolates (not_violates hchain.wellFormed hlen hprepare)
  | error failure =>
    cases failure with
    | panic => exact absurd hprepare hne
    | instruction error => exact ⟨error, rfl⟩

/-- A program that calls itself twice, passing an account on that its message lets it write, in two
metas. -/
def selfCall : List Event :=
  [.topLevel [0, 1, 2] 2, .invoke ⟨⟨12, [⟨10, false, true⟩, ⟨11, true, false⟩, ⟨12, false, false⟩,
    ⟨10, false, false⟩]⟩, [11]⟩, .invoke ⟨⟨12, [⟨10, false, true⟩, ⟨12, false, false⟩]⟩, []⟩]

theorem run_secure_selfCall :
    let message : Message := ⟨fun _ => false, fun i => i = 0⟩
    ∃ e, (new [10, 11, 12] 5 64).run message selfCall = .ok e
      ∧ e.frames.length = 3
      ∧ ∀ f below, f :: below <:+ e.frames → Secure message [10, 11, 12] f below := by
  intro message
  obtain ⟨e, he, hlen⟩ : ∃ e, (new [10, 11, 12] 5 64).run message selfCall = .ok e
      ∧ e.frames.length = 3 := ⟨_, rfl, rfl⟩
  exact ⟨e, he, hlen, (run_secure message [10, 11, 12] 5 64 (by decide) selfCall
    (by decide) e he).1⟩

/-! ## More accounts than positions -/

section Overflow

/-- The deduplication map of an invocation that names the first account only. -/
def firstOnly : List ℕ := emptyDedupMap.set 0 0

/-- The first account without privileges. -/
def readonly : InstructionAccount := ⟨0, false, false⟩

/-- The first account, writable. -/
def writable : InstructionAccount := ⟨0, false, true⟩

/-- The top-level instruction of the example: two accounts and the program. -/
def overflowCaller : InstructionContext :=
  ⟨2, [readonly, ⟨1, false, true⟩, ⟨2, false, false⟩], ((emptyDedupMap.set 0 0).set 1 1).set 2 2⟩

/-- The metas of the example: the first account again and again, and then the second one. -/
def overflowMetas : List AccountMeta :=
  replicate (u16Max + 1) ⟨10, false, false⟩ ++ [⟨11, false, true⟩]

/-- What the first pass makes of them: the second account is taken for the one at the last position
of 16 bits. -/
def overflowAccounts : List InstructionAccount :=
  (replicate (u16Max + 1) readonly).set u16Max writable ++ [writable]

/-- The first account once more. -/
lemma requestAccount_again (n : ℕ) :
    requestAccount [10, 11, 12] (firstOnly, replicate (n + 1) readonly) ⟨10, false, false⟩
      = .ok (firstOnly, replicate (n + 2) readonly) := by
  have hset : (replicate (n + 1) readonly).set 0 readonly = replicate (n + 1) readonly := by
    rw [replicate_succ, set_cons_zero]
  have hindex : findIndexOfAccount [10, 11, 12] 10 = some 0 := rfl
  have hmap : firstOnly[0]? = some 0 := rfl
  simp only [requestAccount, hindex, hmap, length_replicate, zero_lt_succ, if_true,
    getElem?_replicate]
  change Except.ok (firstOnly, (replicate (n + 1) readonly).set 0 readonly ++ [readonly]) = _
  rw [hset, ← replicate_succ']

lemma requestAccount_repeated (k n : ℕ) :
    (replicate k (⟨10, false, false⟩ : AccountMeta)).foldlM (requestAccount [10, 11, 12])
        (firstOnly, replicate (n + 1) readonly)
      = .ok (firstOnly, replicate (n + 1 + k) readonly) := by
  induction k generalizing n with
  | zero => rfl
  | succ k ih =>
    refine foldlM_cons_eq_ok.mpr ⟨_, requestAccount_again n, ?_⟩
    rw [ih (n + 1), add_right_comm (n + 1) 1 k, add_assoc (n + 1) k 1]

lemma overflow_firstPass :
    overflowMetas.foldlM (requestAccount [10, 11, 12]) (emptyDedupMap, [])
      = .ok (firstOnly, overflowAccounts) := by
  have hfirst : requestAccount [10, 11, 12] (emptyDedupMap, []) ⟨10, false, false⟩
      = .ok (firstOnly, replicate (0 + 1) readonly) := rfl
  rw [overflowMetas, foldlM_append, replicate_succ]
  refine bind_eq_ok.mpr ⟨(firstOnly, replicate (u16Max + 1) readonly), ?_, ?_⟩
  · refine foldlM_cons_eq_ok.mpr ⟨_, hfirst, ?_⟩
    rw [requestAccount_repeated u16Max 0, zero_add, add_comm 1 u16Max]
  refine foldlM_cons_eq_ok.mpr ⟨(firstOnly, overflowAccounts), ?_, rfl⟩
  have hindex : findIndexOfAccount [10, 11, 12] 11 = some 1 := rfl
  have hmap : firstOnly[1]? = some u16Max := rfl
  have hgrant : readonly.grant false true = writable := rfl
  simp [requestAccount, hindex, hmap, hgrant, overflowAccounts]

/-- Every position of the example has the first account, which stands at position 0. -/
lemma overflowAccounts_getElem? {c : ℕ} (hc : c < overflowAccounts.length) :
    overflowAccounts[c]? = some readonly ∨ overflowAccounts[c]? = some writable ∧ c ≠ 0 := by
  have hpos : u16Max ≠ 0 := by decide
  rw [overflowAccounts, length_append, length_set, length_replicate, length_singleton] at hc
  rw [overflowAccounts]
  rcases Nat.lt_succ_iff_lt_or_eq.mp hc with hlt | rfl
  · rw [getElem?_append_left (by rw [length_set, length_replicate]; exact hlt),
      getElem?_set, length_replicate, getElem?_replicate, if_pos hlt]
    split
    · rename_i heq
      exact .inr ⟨by rw [if_pos (lt_succ_self _)], by omega⟩
    · exact .inl rfl
  · refine .inr ⟨?_, succ_ne_zero _⟩
    rw [getElem?_append_right (by rw [length_set, length_replicate])]
    simp

lemma overflow_secondPass {c : ℕ} (hc : c < overflowAccounts.length) :
    settleAccount overflowCaller overflowMetas [] firstOnly overflowAccounts c
      = .ok overflowAccounts := by
  have hmap : firstOnly[0]? = some 0 := rfl
  have hzero : overflowAccounts[0]? = some readonly := by
    rcases overflowAccounts_getElem? (c := 0) (by omega) with h | ⟨-, h⟩
    · exact h
    · exact absurd rfl h
  have hkeep : ∀ a, overflowAccounts[c]? = some a →
    overflowAccounts.set c a = overflowAccounts := by
    intro a ha
    obtain ⟨hlt, rfl⟩ := List.getElem?_eq_some_iff.mp ha
    exact set_getElem_self hlt
  by_cases hc0 : c = 0
  · subst hc0
    have hmeta : overflowMetas[0]? = some ⟨10, false, false⟩ := by
      rw [overflowMetas, replicate_succ, cons_append]
      rfl
    have hcaller : overflowCaller.getIndexOfAccountInInstruction 0 = .ok 0 := rfl
    have haccount : overflowCaller.instructionAccounts[0]? = some readonly := rfl
    have hcheck : checkPrivileges overflowCaller overflowMetas [] 0 readonly = .ok () := by
      simp only [checkPrivileges, readonly, hcaller, hmeta, haccount]
      rfl
    simp only [settleAccount, hzero, readonly, hmap]
    rw [if_neg (not_not.mpr rfl)]
    change (checkPrivileges overflowCaller overflowMetas [] 0 readonly).map _ = _
    rw [hcheck]
    rfl
  rcases overflowAccounts_getElem? hc with h | ⟨h, -⟩
  · simp only [settleAccount, h, readonly, hmap, if_pos hc0, hzero]
    rw [show InstructionAccount.grant ⟨0, false, false⟩ false false = readonly from rfl, hkeep _ h]
  · simp only [settleAccount, h, writable, hmap, if_pos hc0, hzero]
    rw [show InstructionAccount.grant ⟨0, false, true⟩ readonly.isSigner readonly.isWritable
      = writable from rfl, hkeep _ h]

lemma overflow_prepareAccounts :
    prepareAccounts [10, 11, 12] overflowCaller ⟨12, overflowMetas⟩ []
      = .ok ⟨2, overflowAccounts, firstOnly⟩ := by
  have hsecond : (range overflowAccounts.length).foldlM
      (settleAccount overflowCaller overflowMetas [] firstOnly) overflowAccounts
      = .ok overflowAccounts :=
    foldlM_of_fixed fun c hc => overflow_secondPass (mem_range.mp hc)
  have hprogram : findProgram [10, 11, 12] overflowCaller 12 = .ok 2 := rfl
  unfold prepareAccounts
  refine bind_eq_ok.mpr ⟨_, overflow_firstPass, ?_⟩
  refine bind_eq_ok.mpr ⟨_, hsecond, ?_⟩
  exact bind_eq_ok.mpr ⟨2, hprogram, rfl⟩

/-- The example after its top-level instruction. -/
def overflowEntered : Execution where
  ctx :=
    { accountKeys := [10, 11, 12]
      instructionStackCapacity := 5
      instructionTraceCapacity := 64
      instructionStack := [0]
      instructionTrace := [⟨2, 0, u16Max⟩, .default]
      deduplicationMaps := [overflowCaller.dedupMap]
      instructionAccounts := [overflowCaller.instructionAccounts] }
  requests := [none]

/-- Whatever accounts are prepared, the program may call itself. -/
lemma overflowEntered_invoke (message : Message) (r : Request) {accounts : List InstructionAccount}
    {dedupMap : List ℕ}
    (h : overflowEntered.ctx.prepareCallee r.instruction r.signers = .ok ⟨2, accounts, dedupMap⟩) :
    ∃ e, overflowEntered.step message (.invoke r) = .ok e
      ∧ e.frames = ⟨⟨2, accounts, dedupMap⟩, some r⟩ :: overflowEntered.frames := by
  simp only [Execution.step, prepareNextInstruction, h]
  exact ⟨_, rfl, rfl⟩

/-- A program that may write the second account, but not the first one, calls itself and names the
first account `u16Max + 1` times as readonly, then the second one as writable. In the callee the
first account is writable. -/
theorem writes_without_privilege :
    let message : Message := ⟨fun _ => false, fun i => i = 1⟩
    ∃ e, (new [10, 11, 12] 5 64).run message
        [.topLevel [0, 1, 2] 2, .invoke ⟨⟨12, overflowMetas⟩, []⟩] = .ok e
      ∧ ∃ f below, f :: below <:+ e.frames ∧ f.context.Writes 0 ∧ message.isWritable 0 = false := by
  intro message
  have hentered : (new [10, 11, 12] 5 64).step message (.topLevel [0, 1, 2] 2)
      = .ok overflowEntered := rfl
  have hcallee : overflowEntered.ctx.prepareCallee ⟨12, overflowMetas⟩ []
      = .ok ⟨2, overflowAccounts, firstOnly⟩ := overflow_prepareAccounts
  have hwritable : overflowAccounts[u16Max + 1]? = some writable := by
    rw [overflowAccounts, getElem?_append_right (by simp)]
    simp
  obtain ⟨e, he, hframe⟩ := overflowEntered_invoke message ⟨⟨12, overflowMetas⟩, []⟩ hcallee
  refine ⟨e, foldlM_cons_eq_ok.mpr ⟨_, hentered, foldlM_cons_eq_ok.mpr ⟨e, he, rfl⟩⟩,
    _, _, ⟨[], hframe.symm⟩, ?_, rfl⟩
  exact ⟨writable, mem_of_getElem? hwritable, rfl, rfl⟩

end Overflow
end Execution
end Trezoa.ProgramRuntime
