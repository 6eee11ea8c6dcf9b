import Trezoa.Lib.Fallible

/-!
# Preparing instructions

How the runtime sets up the next instruction of a transaction: a top-level instruction from the
message, or a cross-program invocation from the account metas and the program signers of its caller.

The data of instructions, the contents of accounts and the logged messages are left out. So are the
checks of `push` and `pop` on lamports, borrows and the instructions sysvar: where one of them fails
the transaction is over.
-/

namespace Trezoa.ProgramRuntime

/-! ## Instructions and accounts -/

/-- The errors of an instruction that the preparation can return. -/
inductive InstructionError where
  | missingAccount
  | privilegeEscalation
  | callDepth
  | maxInstructionTraceLengthExceeded
  | reentrancyNotAllowed
  | unsupportedProgramId
deriving DecidableEq

/-- How a call can fail. -/
inductive Failure where
  | instruction (error : InstructionError)
  /-- A debug assertion or an `unwrap` that fails. -/
  | panic
deriving DecidableEq

/-- The largest number of 16 bits, which stands for an account that is not in the instruction. -/
def u16Max : ℕ := 65535

/-- The number of accounts a transaction can have. -/
def maxAccountsPerTransaction : ℕ := 256

/-- An account as an instruction that is to be invoked names it. -/
structure AccountMeta where
  pubkey : ℕ
  isSigner : Bool
  isWritable : Bool
deriving DecidableEq

/-- An instruction that is to be invoked. -/
structure Instruction where
  programId : ℕ
  accounts : List AccountMeta

/-- An account of a prepared instruction. -/
structure InstructionAccount where
  indexInTransaction : ℕ
  isSigner : Bool
  isWritable : Bool
deriving DecidableEq

/-- The account with more privileges. -/
def InstructionAccount.grant (account : InstructionAccount) (isSigner isWritable : Bool) :
    InstructionAccount :=
  { account with
    isSigner := account.isSigner || isSigner
    isWritable := account.isWritable || isWritable }

/-- The view of an instruction. -/
structure InstructionContext where
  programAccountIndexInTx : ℕ
  instructionAccounts : List InstructionAccount
  /-- The first position of each account of the transaction. -/
  dedupMap : List ℕ

/-- The position of an account in an instruction. -/
def InstructionContext.getIndexOfAccountInInstruction (context : InstructionContext)
    (indexInTransaction : ℕ) : Except Failure ℕ :=
  match context.dedupMap[indexInTransaction]? with
  | none => .error (.instruction .missingAccount)
  | some index =>
    if index ≥ context.instructionAccounts.length then .error (.instruction .missingAccount)
    else .ok index

/-- The position of a pubkey among the accounts of the transaction. -/
def findIndexOfAccount (keys : List ℕ) (pubkey : ℕ) : Option ℕ := keys.findIdx? (· = pubkey)

/-! ## Preparing a cross-program invocation -/

/-- An empty deduplication map. -/
def emptyDedupMap : List ℕ := List.replicate maxAccountsPerTransaction u16Max

/-- The first pass over the metas: an account that was named before is given the new privileges at
its first position, and is added once more. -/
def requestAccount (keys : List ℕ) (prepared : List ℕ × List InstructionAccount)
    (account : AccountMeta) : Except Failure (List ℕ × List InstructionAccount) :=
  match findIndexOfAccount keys account.pubkey with
  | none => .error (.instruction .missingAccount)
  | some indexInTransaction =>
    match prepared.1[indexInTransaction]? with
    | none => .error .panic
    | some indexInCallee =>
      if indexInCallee < prepared.2.length then
        match prepared.2[indexInCallee]? with
        | none => .error (.instruction .missingAccount)
        | some first =>
          let first := first.grant account.isSigner account.isWritable
          .ok (prepared.1, prepared.2.set indexInCallee first ++ [first])
      else
        .ok (prepared.1.set indexInTransaction (prepared.2.length % (u16Max + 1)),
          prepared.2 ++ [⟨indexInTransaction, account.isSigner, account.isWritable⟩])

/-- The check of the privileges of an account, at its first position, against the caller. -/
def checkPrivileges (caller : InstructionContext) (metas : List AccountMeta) (signers : List ℕ)
    (currentIndex : ℕ) (account : InstructionAccount) : Except Failure Unit :=
  match caller.getIndexOfAccountInInstruction account.indexInTransaction with
  | .error e => .error e
  | .ok indexInCaller =>
    match metas[currentIndex]?, caller.instructionAccounts[indexInCaller]? with
    | some accountMeta, some callerAccount =>
      -- readonly in the caller cannot become writable in the callee
      if account.isWritable && !callerAccount.isWritable then
        .error (.instruction .privilegeEscalation)
      -- a signer must be one in the caller, or be signed for by the program
      else if account.isSigner
          && !(callerAccount.isSigner || signers.contains accountMeta.pubkey) then
        .error (.instruction .privilegeEscalation)
      else .ok ()
    | _, _ => .error .panic

/-- The second pass over the positions: a repeated account takes over the privileges of its first
position, and a first position is checked. -/
def settleAccount (caller : InstructionContext) (metas : List AccountMeta) (signers : List ℕ)
    (calleeMap : List ℕ) (accounts : List InstructionAccount) (currentIndex : ℕ) :
    Except Failure (List InstructionAccount) :=
  match accounts[currentIndex]? with
  | none => .error .panic
  | some account =>
    match calleeMap[account.indexInTransaction]? with
    | none => .error .panic
    | some indexInCallee =>
      if currentIndex ≠ indexInCallee then
        match accounts[indexInCallee]? with
        | none => .error (.instruction .missingAccount)
        | some reference =>
          .ok (accounts.set currentIndex (account.grant reference.isSigner reference.isWritable))
      else (checkPrivileges caller metas signers currentIndex account).map fun _ => accounts

/-- The account of the program, which the caller must have, too. -/
def findProgram (keys : List ℕ) (caller : InstructionContext) (programId : ℕ) :
    Except Failure ℕ :=
  match findIndexOfAccount keys programId with
  | none => .error (.instruction .missingAccount)
  | some index =>
    match caller.getIndexOfAccountInInstruction index with
    | .error _ => .error (.instruction .missingAccount)
    | .ok _ => .ok index

/-- The program, the accounts and the deduplication map of an invocation. -/
def prepareAccounts (keys : List ℕ) (caller : InstructionContext) (instruction : Instruction)
    (signers : List ℕ) : Except Failure InstructionContext := do
  let (calleeMap, requested) ← instruction.accounts.foldlM (requestAccount keys) (emptyDedupMap, [])
  let accounts ← (List.range requested.length).foldlM
    (settleAccount caller instruction.accounts signers calleeMap) requested
  let program ← findProgram keys caller instruction.programId
  return ⟨program, accounts, calleeMap⟩

/-! ## Preparing a top-level instruction -/

/-- The privileges a message gives to its accounts. -/
structure Message where
  isSigner : ℕ → Bool
  isWritable : ℕ → Bool

/-- An account of a top-level instruction, given by its index in the transaction. -/
def addTopLevelAccount (message : Message) (prepared : List ℕ × List InstructionAccount)
    (indexInTransaction : Fin 256) : Except Failure (List ℕ × List InstructionAccount) :=
  match prepared.1[indexInTransaction.val]? with
  | none => .error .panic
  | some indexInCallee =>
    let calleeMap := if indexInCallee > prepared.2.length then
      prepared.1.set indexInTransaction (prepared.2.length % (u16Max + 1)) else prepared.1
    .ok (calleeMap, prepared.2 ++ [⟨indexInTransaction,
      message.isSigner indexInTransaction, message.isWritable indexInTransaction⟩])

/-- The accounts of a top-level instruction, with their privileges in the message. -/
def prepareTopLevelAccounts (message : Message) (accounts : List (Fin 256))
    (programAccountIndex : ℕ) : Except Failure InstructionContext :=
  (accounts.foldlM (addTopLevelAccount message) (emptyDedupMap, [])).map fun prepared =>
    ⟨programAccountIndex, prepared.2, prepared.1⟩

/-! ## The transaction -/

/-- An instruction in the trace. -/
structure InstructionFrame where
  programAccountIndexInTx : ℕ
  nestingLevel : ℕ
  /-- The caller of a cross-program invocation, and `u16Max` for a top-level instruction. -/
  indexOfCallerInstruction : ℕ
deriving DecidableEq

/-- The frame that is reserved for the next instruction. -/
def InstructionFrame.default : InstructionFrame := ⟨0, 0, u16Max⟩

/-- The state of a transaction that is being executed. -/
structure TransactionContext where
  accountKeys : List ℕ
  instructionStackCapacity : ℕ
  instructionTraceCapacity : ℕ
  /-- The positions in the trace of the instructions that are being executed, the last one first. -/
  instructionStack : List ℕ
  /-- The instructions so far, and the one that comes next. -/
  instructionTrace : List InstructionFrame
  deduplicationMaps : List (List ℕ)
  instructionAccounts : List (List InstructionAccount)

namespace TransactionContext

/-- Before the first instruction. -/
def new (accountKeys : List ℕ) (instructionStackCapacity instructionTraceCapacity : ℕ) :
    TransactionContext :=
  ⟨accountKeys, instructionStackCapacity, instructionTraceCapacity, [], [.default], [], []⟩

/-- The view of an instruction by its position in the trace. -/
def getInstructionContextAtIndexInTrace (ctx : TransactionContext) (index : ℕ) :
    Except Failure InstructionContext :=
  match ctx.instructionTrace[index]? with
  | none => .error (.instruction .callDepth)
  | some frame => .ok
      ⟨frame.programAccountIndexInTx, ctx.instructionAccounts[index]?.getD [],
        ctx.deduplicationMaps[index]?.getD []⟩

/-- The view of the instruction that is being executed. -/
def getCurrentInstructionContext (ctx : TransactionContext) : Except Failure InstructionContext :=
  match ctx.instructionStack with
  | [] => .error (.instruction .callDepth)
  | index :: _ => ctx.getInstructionContextAtIndexInTrace index

/-- Sets up the next instruction. -/
def configureNextInstruction (ctx : TransactionContext) (next : InstructionContext)
    (callerIndex : Option ℕ) : Except Failure Unit × TransactionContext :=
  match ctx.instructionTrace.getLast? with
  | none => (.error (.instruction .callDepth), ctx)
  | some frame =>
    let frame := { frame with
      indexOfCallerInstruction := callerIndex.getD frame.indexOfCallerInstruction
      programAccountIndexInTx := next.programAccountIndexInTx }
    (.ok (), { ctx with
      instructionTrace := ctx.instructionTrace.dropLast ++ [frame]
      deduplicationMaps := ctx.deduplicationMaps ++ [next.dedupMap]
      instructionAccounts := ctx.instructionAccounts ++ [next.instructionAccounts] })

/-- The accounts and the program of an invocation, as the instruction that is being executed can
pass them on. -/
def prepareCallee (ctx : TransactionContext) (instruction : Instruction) (signers : List ℕ) :
    Except Failure InstructionContext :=
  match ctx.getCurrentInstructionContext with
  | .error e => .error e
  | .ok caller => prepareAccounts ctx.accountKeys caller instruction signers

/-- Prepares a cross-program invocation from the instruction that is being executed. -/
def prepareNextInstruction (ctx : TransactionContext) (instruction : Instruction)
    (signers : List ℕ) : Except Failure Unit × TransactionContext :=
  match ctx.prepareCallee instruction signers with
  | .error e => (.error e, ctx)
  | .ok callee =>
    ctx.configureNextInstruction callee (some ((ctx.instructionStack.length - 1) % (u16Max + 1)))

/-- Prepares a top-level instruction. -/
def prepareNextTopLevelInstruction (ctx : TransactionContext) (message : Message)
    (accounts : List (Fin 256)) (programAccountIndex : ℕ) :
    Except Failure Unit × TransactionContext :=
  match prepareTopLevelAccounts message accounts programAccountIndex with
  | .error e => (.error e, ctx)
  | .ok next => ctx.configureNextInstruction next none

/-- The pubkey of the program of an instruction in the trace. -/
def getProgramKey (ctx : TransactionContext) (index : ℕ) : Option ℕ := do
  let frame ← ctx.instructionTrace[index]?
  if frame.programAccountIndexInTx = u16Max then none
  else ctx.accountKeys[frame.programAccountIndexInTx]?

/-- Whether the next instruction may be executed: a program may be called again only by itself. -/
def checkReentrancy (ctx : TransactionContext) : Except Failure Unit :=
  match ctx.getProgramKey (ctx.instructionTrace.length - 1) with
  | none => .error (.instruction .unsupportedProgramId)
  | some programId =>
    if ctx.instructionStack.any (fun index => ctx.getProgramKey index = some programId)
        && !((ctx.instructionStack.take 1).any fun index =>
          ctx.getProgramKey index = some programId) then
      .error (.instruction .reentrancyNotAllowed)
    else .ok ()

/-- Makes the prepared instruction the one that is being executed. -/
def push (ctx : TransactionContext) : Except Failure TransactionContext := do
  ctx.checkReentrancy
  let nestingLevel := ctx.instructionStack.length
  match ctx.instructionTrace.getLast? with
  | none => .error (.instruction .callDepth)
  | some frame =>
    let index := ctx.instructionTrace.length - 1
    if index ≥ ctx.instructionTraceCapacity then
      .error (.instruction .maxInstructionTraceLengthExceeded)
    else if nestingLevel ≥ ctx.instructionStackCapacity then .error (.instruction .callDepth)
    else .ok { ctx with
      instructionTrace :=
        ctx.instructionTrace.dropLast ++ [{ frame with nestingLevel := nestingLevel }, .default]
      instructionStack := index :: ctx.instructionStack }

/-- The instruction that is being executed returns. -/
def pop (ctx : TransactionContext) : Except Failure TransactionContext :=
  match ctx.instructionStack with
  | [] => .error (.instruction .callDepth)
  | _ :: stack => .ok { ctx with instructionStack := stack }

end TransactionContext
end Trezoa.ProgramRuntime
