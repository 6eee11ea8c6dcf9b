import Trezoa.ProgramRuntime.InvokeContext

/-!
# The accounts of a transaction

Models the accounts of a transaction that is being executed, and how the programs of its
instructions change them
(`transaction-context/src/{lib,instruction,instruction_accounts,transaction_accounts}.rs`).

The arrays of the accounts have one length and are one list. The rent epoch, the return data and
what is only shown to the virtual machine are left out. Rent and the layout of the instructions
sysvar come from other crates and are parameters.
-/

namespace Trezoa.Transaction

open ProgramRuntime (InstructionAccount InstructionFrame u16Max)

/-! ## Accounts -/

/-- The bytes of a public key. -/
abbrev Pubkey := List UInt8

/-- The errors of an instruction. -/
inductive InstructionError where
  | missingAccount
  | callDepth
  | maxInstructionTraceLengthExceeded
  | unbalancedInstruction
  | invalidAccountOwner
  | accountBorrowFailed
  | accountBorrowOutstanding
  | arithmeticOverflow
  | modifiedProgramId
  | externalAccountLamportSpend
  | readonlyLamportChange
  | readonlyDataModified
  | externalAccountDataModified
  | accountDataSizeChanged
  | invalidRealloc
  | maxAccountsDataAllocationsExceeded
  | executableAccountNotRentExempt
  | executableModified
deriving DecidableEq

/-- How a call can fail. -/
inductive Failure where
  | instruction (error : InstructionError)
  | panic
  /-- Not a failure of the code: a program that would not compile, as an account is still borrowed
  or no longer. -/
  | borrowChecker
deriving DecidableEq

def maxAccountDataLen : ℕ := 10 * 1024 * 1024

def maxAccountDataGrowthPerTransaction : ℤ := 2 * maxAccountDataLen

/-- A number of the given width; the closest one where it does not fit. -/
def saturate (bits : ℕ) (x : ℤ) : ℤ := max (-2 ^ (bits - 1)) (min (2 ^ (bits - 1) - 1) x)

/-- An account. -/
structure Account where
  lamports : UInt64
  data : List UInt8
  owner : Pubkey
  executable : Bool
deriving DecidableEq

/-- An account of the transaction with what is kept for it. -/
structure AccountEntry where
  key : Pubkey
  account : Account
  /-- Negative while it is borrowed for writing. -/
  borrowCounter : ℤ := 0
  touched : Bool := false

/-- The accounts of a transaction. -/
structure TransactionAccounts where
  entries : List AccountEntry
  resizeDelta : ℤ := 0
  lamportsDelta : ℤ := 0

namespace TransactionAccounts

/-- Before the first instruction. -/
def new (accounts : List (Pubkey × Account)) : TransactionAccounts :=
  { entries := accounts.map fun item => { key := item.1, account := item.2 } }

/-- Replaces an entry. -/
def setEntry (s : TransactionAccounts) (index : ℕ) (entry : AccountEntry) : TransactionAccounts :=
  { s with entries := s.entries.set index entry }

/-- Marks an account as touched. -/
def touch (s : TransactionAccounts) (index : ℕ) : Except Failure TransactionAccounts :=
  match s.entries[index]? with
  | none => .error (.instruction .missingAccount)
  | some entry => .ok (s.setEntry index { entry with touched := true })

/-- Adds the change of a data length. -/
def updateAccountsResizeDelta (s : TransactionAccounts) (oldLen newLen : ℕ) : TransactionAccounts :=
  { s with resizeDelta := saturate 64 (s.resizeDelta + saturate 64 (newLen - oldLen)) }

/-- The limits of a data length. -/
def canDataBeResized (s : TransactionAccounts) (oldLen newLen : ℕ) : Except Failure Unit :=
  if newLen > maxAccountDataLen then .error (.instruction .invalidRealloc)
  else if saturate 64 (s.resizeDelta + saturate 64 (newLen - oldLen))
      > maxAccountDataGrowthPerTransaction then
    .error (.instruction .maxAccountsDataAllocationsExceeded)
  else .ok ()

/-- Adds the change of a balance. -/
def addLamportsDelta (s : TransactionAccounts) (balance : ℤ) : Except Failure TransactionAccounts :=
  if -2 ^ 127 ≤ s.lamportsDelta + balance ∧ s.lamportsDelta + balance < 2 ^ 127 then
    .ok { s with lamportsDelta := s.lamportsDelta + balance }
  else .error (.instruction .arithmeticOverflow)

/-- Borrows an account for writing. -/
def tryBorrowMut (s : TransactionAccounts) (index : ℕ) : Except Failure TransactionAccounts :=
  match s.entries[index]? with
  | none => .error (.instruction .missingAccount)
  | some entry =>
    if entry.borrowCounter < 0 ∨ 0 < entry.borrowCounter then
      .error (.instruction .accountBorrowFailed)
    else .ok (s.setEntry index { entry with borrowCounter := saturate 8 (entry.borrowCounter - 1) })

/-- Gives a borrowed account back. -/
def releaseBorrowMut (s : TransactionAccounts) (index : ℕ) : TransactionAccounts :=
  match s.entries[index]? with
  | none => s
  | some entry => s.setEntry index
      { entry with borrowCounter := saturate 8 (entry.borrowCounter + 1) }

end TransactionAccounts

/-! ## Operations on a borrowed account -/

/-- What other crates define: the rent, the keys of the sysvars, and the index of the current
instruction written in place into the instructions sysvar. -/
structure Environment where
  isExempt : UInt64 → ℕ → Bool
  instructionsId : Pubkey
  sysvarId : Pubkey
  storeCurrentIndexChecked : List UInt8 → ℕ → Except InstructionError Unit × (ℕ → UInt8 → UInt8)

/-- Whether all bytes are zero, compared in chunks. -/
def isZeroed (buf : List UInt8) : Bool :=
  let zeros := List.replicate 1024 0
  if 1024 ≤ buf.length then buf.take 1024 == zeros && isZeroed (buf.drop 1024)
  else buf == zeros.take buf.length
termination_by buf.length
decreasing_by
  rw [List.length_drop]
  omega

/-- An account that an instruction has borrowed. -/
structure BorrowedInstructionAccount where
  instructionAccount : InstructionAccount
  indexInTransactionOfInstructionProgram : ℕ

/-- What is done to a borrowed account. The bytes written through a mutable slice are a function of
their position and of what was there. -/
inductive Operation where
  | setOwner (pubkey : List UInt8)
  | setLamports (lamports : UInt64)
  | checkedAddLamports (lamports : UInt64)
  | checkedSubLamports (lamports : UInt64)
  | getDataMut (write : ℕ → UInt8 → UInt8)
  | setDataFromSlice (data : List UInt8)
  | setDataLength (newLength : ℕ)
  | extendFromSlice (data : List UInt8)
  | setExecutable (isExecutable : Bool)

namespace BorrowedInstructionAccount

variable (env : Environment) (b : BorrowedInstructionAccount)

def index : ℕ := b.instructionAccount.indexInTransaction

def isWritable : Bool := b.instructionAccount.isWritable

/-- Whether the program of the instruction owns the account. -/
def isOwnedByCurrentProgram (s : TransactionAccounts) (account : Account) : Bool :=
  (s.entries[b.indexInTransactionOfInstructionProgram]?.map fun program =>
    decide (program.key = account.owner)).getD false

/-- Marks the account as touched and changes it. -/
def touchAndSet (s : TransactionAccounts) (account : Account) :
    Except Failure Unit × TransactionAccounts :=
  match s.touch b.index with
  | .error e => (.error e, s)
  | .ok s =>
    match s.entries[b.index]? with
    | none => (.error .panic, s)
    | some entry => (.ok (), s.setEntry b.index { entry with account := account })

/-- The same, with the change of the data length counted in between. -/
def touchAndResize (s : TransactionAccounts) (account : Account) (oldLen newLen : ℕ) :
    Except Failure Unit × TransactionAccounts :=
  match s.touch b.index with
  | .error e => (.error e, s)
  | .ok s =>
    let s := s.updateAccountsResizeDelta oldLen newLen
    match s.entries[b.index]? with
    | none => (.error .panic, s)
    | some entry => (.ok (), s.setEntry b.index { entry with account := account })

def canDataBeChanged (s : TransactionAccounts) (account : Account) : Except Failure Unit :=
  if !b.isWritable then .error (.instruction .readonlyDataModified)
  else if !b.isOwnedByCurrentProgram s account then
    .error (.instruction .externalAccountDataModified)
  else .ok ()

def canDataBeResized (s : TransactionAccounts) (account : Account) (newLen : ℕ) :
    Except Failure Unit := do
  let oldLen := account.data.length
  if newLen ≠ oldLen && !b.isOwnedByCurrentProgram s account then
    .error (.instruction .accountDataSizeChanged)
  else
    s.canDataBeResized oldLen newLen
    b.canDataBeChanged s account

def setOwner (pubkey : List UInt8) (s : TransactionAccounts) (account : Account) :
    Except Failure Unit × TransactionAccounts :=
  if !b.isOwnedByCurrentProgram s account then (.error (.instruction .modifiedProgramId), s)
  else if !b.isWritable then (.error (.instruction .modifiedProgramId), s)
  else if !isZeroed account.data then (.error (.instruction .modifiedProgramId), s)
  else if account.owner = pubkey then (.ok (), s)
  else if pubkey.length ≠ 32 then
    -- the account is touched, and then the copy of the slice panics
    match s.touch b.index with
    | .error e => (.error e, s)
    | .ok s => (.error .panic, s)
  else b.touchAndSet s { account with owner := pubkey }

def setLamports (lamports : UInt64) (s : TransactionAccounts) (account : Account) :
    Except Failure Unit × TransactionAccounts :=
  if !b.isOwnedByCurrentProgram s account && lamports < account.lamports then
    (.error (.instruction .externalAccountLamportSpend), s)
  else if !b.isWritable then (.error (.instruction .readonlyLamportChange), s)
  else if account.lamports = lamports then (.ok (), s)
  else
    match s.addLamportsDelta (saturate 128 (lamports.toNat - account.lamports.toNat)) with
    | .error e => (.error e, s)
    | .ok s => b.touchAndSet s { account with lamports := lamports }

def checkedAddLamports (lamports : UInt64) (s : TransactionAccounts) (account : Account) :
    Except Failure Unit × TransactionAccounts :=
  if account.lamports.toNat + lamports.toNat < 2 ^ 64 then
    b.setLamports (account.lamports + lamports) s account
  else (.error (.instruction .arithmeticOverflow), s)

def checkedSubLamports (lamports : UInt64) (s : TransactionAccounts) (account : Account) :
    Except Failure Unit × TransactionAccounts :=
  if lamports ≤ account.lamports then b.setLamports (account.lamports - lamports) s account
  else (.error (.instruction .arithmeticOverflow), s)

/-- The slice is written by the caller. -/
def getDataMut (write : ℕ → UInt8 → UInt8) (s : TransactionAccounts) (account : Account) :
    Except Failure Unit × TransactionAccounts :=
  match b.canDataBeChanged s account with
  | .error e => (.error e, s)
  | .ok () => b.touchAndSet s { account with data := account.data.mapIdx write }

def setDataFromSlice (data : List UInt8) (s : TransactionAccounts) (account : Account) :
    Except Failure Unit × TransactionAccounts :=
  match b.canDataBeResized s account data.length with
  | .error e => (.error e, s)
  | .ok () => b.touchAndResize s { account with data := data } account.data.length data.length

def setDataLength (newLength : ℕ) (s : TransactionAccounts) (account : Account) :
    Except Failure Unit × TransactionAccounts :=
  match b.canDataBeResized s account newLength with
  | .error e => (.error e, s)
  | .ok () =>
    if account.data.length = newLength then (.ok (), s)
    else
      let data := account.data.take newLength ++ List.replicate (newLength - account.data.length) 0
      b.touchAndResize s { account with data := data } account.data.length newLength

def extendFromSlice (data : List UInt8) (s : TransactionAccounts) (account : Account) :
    Except Failure Unit × TransactionAccounts :=
  let newLen := min (account.data.length + data.length) (2 ^ 64 - 1)
  match b.canDataBeResized s account newLen with
  | .error e => (.error e, s)
  | .ok () =>
    if data.isEmpty then (.ok (), s)
    else b.touchAndResize s { account with data := account.data ++ data } account.data.length newLen

def setExecutable (isExecutable : Bool) (s : TransactionAccounts) (account : Account) :
    Except Failure Unit × TransactionAccounts :=
  if !env.isExempt account.lamports account.data.length then
    (.error (.instruction .executableAccountNotRentExempt), s)
  else if !b.isOwnedByCurrentProgram s account then
    (.error (.instruction .executableModified), s)
  else if !b.isWritable then (.error (.instruction .executableModified), s)
  else if account.executable = isExecutable then (.ok (), s)
  else b.touchAndSet s { account with executable := isExecutable }

/-- The operation on the account with its present contents. -/
def apply (s : TransactionAccounts) (account : Account) :
    Operation → Except Failure Unit × TransactionAccounts
  | .setOwner pubkey => b.setOwner pubkey s account
  | .setLamports lamports => b.setLamports lamports s account
  | .checkedAddLamports lamports => b.checkedAddLamports lamports s account
  | .checkedSubLamports lamports => b.checkedSubLamports lamports s account
  | .getDataMut write => b.getDataMut write s account
  | .setDataFromSlice data => b.setDataFromSlice data s account
  | .setDataLength newLength => b.setDataLength newLength s account
  | .extendFromSlice data => b.extendFromSlice data s account
  | .setExecutable isExecutable => b.setExecutable env isExecutable s account

/-- An operation on the borrowed account. -/
def operate (s : TransactionAccounts) (op : Operation) :
    Except Failure Unit × TransactionAccounts :=
  match s.entries[b.index]? with
  | none => (.error .panic, s)
  | some entry => b.apply env s entry.account op

end BorrowedInstructionAccount

/-! ## The transaction -/

/-- A transaction that is being executed. -/
structure TransactionContext where
  accounts : TransactionAccounts
  instructionStackCapacity : ℕ
  instructionTraceCapacity : ℕ
  /-- The positions in the trace of the instructions that are being executed, the last one first. -/
  instructionStack : List ℕ := []
  /-- The instructions so far, and the one that comes next. -/
  instructionTrace : List InstructionFrame := [.default]
  instructionAccounts : List (List InstructionAccount) := []
  topLevelInstructionIndex : ℕ := 0
  /-- The accounts that the current instruction has borrowed. -/
  borrowed : List BorrowedInstructionAccount := []

/-- The view of an instruction. -/
structure InstructionContext where
  programAccountIndexInTx : ℕ
  instructionAccounts : List InstructionAccount

/-- What is done to a transaction. -/
inductive Action where
  | configure (programIndex : ℕ) (instructionAccounts : List InstructionAccount)
  | push
  | pop
  | borrow (indexInInstruction : ℕ)
  | drop (borrow : ℕ)
  | operate (borrow : ℕ) (op : Operation)

namespace TransactionContext

variable (env : Environment) (c : TransactionContext)

def new (accounts : List (Pubkey × Account)) (stackCapacity traceCapacity : ℕ) :
    TransactionContext where
  accounts := .new accounts
  instructionStackCapacity := stackCapacity
  instructionTraceCapacity := traceCapacity

/-- The view of the instruction that is being executed. -/
def getCurrentInstructionContext : Except Failure InstructionContext :=
  match c.instructionStack with
  | [] => .error (.instruction .callDepth)
  | index :: _ =>
    match c.instructionTrace[index]? with
    | none => .error (.instruction .callDepth)
    | some frame => .ok ⟨frame.programAccountIndexInTx, c.instructionAccounts[index]?.getD []⟩

/-- Sets up the next instruction. -/
def configureNextInstruction (programIndex : ℕ) (instructionAccounts : List InstructionAccount) :
    Except Failure Unit × TransactionContext :=
  match c.instructionTrace.getLast? with
  | none => (.error (.instruction .callDepth), c)
  | some frame => (.ok (), { c with
      instructionTrace :=
        c.instructionTrace.dropLast ++ [{ frame with programAccountIndexInTx := programIndex }]
      instructionAccounts := c.instructionAccounts ++ [instructionAccounts] })

/-- Writes the index of the top-level instruction into the instructions sysvar. -/
def storeCurrentIndex (s : TransactionAccounts) (topLevelInstructionIndex index : ℕ) :
    Except Failure Unit × TransactionAccounts :=
  match s.tryBorrowMut index with
  | .error e => (.error e, s)
  | .ok s =>
    match s.entries[index]? with
    | none => (.error .panic, s)
    | some entry =>
      if entry.account.owner ≠ env.sysvarId then
        (.error (.instruction .invalidAccountOwner), s.releaseBorrowMut index)
      else
        let (result, write) := env.storeCurrentIndexChecked entry.account.data
          (topLevelInstructionIndex % 2 ^ 16)
        let account := { entry.account with data := entry.account.data.mapIdx write }
        (result.mapError .instruction,
          (s.setEntry index { entry with account := account }).releaseBorrowMut index)

/-- The position of the instructions sysvar among the accounts. -/
def instructionsSysvar (s : TransactionAccounts) : Option ℕ :=
  s.entries.findIdx? fun entry => decide (entry.key = env.instructionsId)

/-- Makes the configured instruction the current one. -/
def push : Except Failure Unit × TransactionContext :=
  let nestingLevel := c.instructionStack.length
  if ¬c.instructionStack = [] ∧ c.accounts.lamportsDelta ≠ 0 then
    (.error (.instruction .unbalancedInstruction), c)
  else
    match c.instructionTrace.getLast? with
    | none => (.error (.instruction .callDepth), c)
    | some frame =>
      let c := { c with instructionTrace := c.instructionTrace.dropLast
        ++ [{ frame with nestingLevel := nestingLevel % 2 ^ 16 }] }
      let index := c.instructionTrace.length - 1
      if index ≥ c.instructionTraceCapacity then
        (.error (.instruction .maxInstructionTraceLengthExceeded), c)
      else
        let c := { c with instructionTrace := c.instructionTrace ++ [.default] }
        if nestingLevel ≥ c.instructionStackCapacity then
          (.error (.instruction .callDepth), c)
        else
          let c := { c with instructionStack := index :: c.instructionStack }
          match instructionsSysvar env c.accounts with
          | none => (.ok (), c)
          | some sysvar =>
            let (result, accounts) :=
              storeCurrentIndex env c.accounts c.topLevelInstructionIndex sysvar
            (result, { c with accounts := accounts })

/-- Whether the lamports are unbalanced, with the check that the program is not borrowed. -/
def detectUnbalanced : Except Failure Bool × TransactionAccounts :=
  match c.getCurrentInstructionContext with
  | .error e => (.error e, c.accounts)
  | .ok context =>
    if context.programAccountIndexInTx = u16Max then
      (.error (.instruction .missingAccount), c.accounts)
    else
      match c.accounts.tryBorrowMut context.programAccountIndexInTx with
      | .error e => (.error (if e = .instruction .accountBorrowFailed then
          .instruction .accountBorrowOutstanding else e), c.accounts)
      | .ok s => (.ok (decide (s.lamportsDelta ≠ 0)),
          s.releaseBorrowMut context.programAccountIndexInTx)

/-- Ends the current instruction, also where the lamports are unbalanced. -/
def pop : Except Failure Unit × TransactionContext :=
  match c.instructionStack with
  | [] => (.error (.instruction .callDepth), c)
  | _ :: stack =>
    let (detected, accounts) := c.detectUnbalanced
    let topLevel := if stack = [] then c.topLevelInstructionIndex + 1
      else c.topLevelInstructionIndex
    let c := { c with
      accounts := accounts
      instructionStack := stack
      topLevelInstructionIndex := topLevel }
    match detected with
    | .error e => (.error e, c)
    | .ok true => (.error (.instruction .unbalancedInstruction), c)
    | .ok false => (.ok (), c)

/-- Borrows an account of the current instruction. -/
def tryBorrowInstructionAccount (indexInInstruction : ℕ) :
    Except Failure Unit × TransactionContext :=
  match c.getCurrentInstructionContext with
  | .error e => (.error e, c)
  | .ok context =>
    match context.instructionAccounts[indexInInstruction]? with
    | none => (.error (.instruction .missingAccount), c)
    | some instructionAccount =>
      match c.accounts.tryBorrowMut instructionAccount.indexInTransaction with
      | .error e => (.error e, c)
      | .ok accounts => (.ok (), { c with
          accounts := accounts
          borrowed := c.borrowed ++ [⟨instructionAccount, context.programAccountIndexInTx⟩] })

/-- Gives a borrowed account back. -/
def dropBorrow (borrow : ℕ) : Except Failure Unit × TransactionContext :=
  match c.borrowed[borrow]? with
  | none => (.error .borrowChecker, c)
  | some b => (.ok (), { c with
      accounts := c.accounts.releaseBorrowMut b.index
      borrowed := c.borrowed.eraseIdx borrow })

/-- An operation on a borrowed account. -/
def operateOn (borrow : ℕ) (op : Operation) : Except Failure Unit × TransactionContext :=
  match c.borrowed[borrow]? with
  | none => (.error .borrowChecker, c)
  | some b =>
    let (result, accounts) := b.operate env c.accounts op
    (result, { c with accounts := accounts })

/-- One action, with its result. What changes the transaction as a whole needs it exclusively, so
that no account is borrowed then. -/
def act : Action → Except Failure Unit × TransactionContext
  | .configure programIndex instructionAccounts =>
    if c.borrowed.isEmpty then c.configureNextInstruction programIndex instructionAccounts
    else (.error .borrowChecker, c)
  | .push => if c.borrowed.isEmpty then c.push env else (.error .borrowChecker, c)
  | .pop => if c.borrowed.isEmpty then c.pop else (.error .borrowChecker, c)
  | .borrow indexInInstruction => c.tryBorrowInstructionAccount indexInInstruction
  | .drop borrow => c.dropBorrow borrow
  | .operate borrow op => c.operateOn env borrow op

/-- A run of actions, failing or not. -/
def run (actions : List Action) : TransactionContext :=
  actions.foldl (fun c action => (c.act env action).2) c

end TransactionContext
end Trezoa.Transaction
