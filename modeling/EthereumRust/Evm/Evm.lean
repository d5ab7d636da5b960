import EthereumRust.Storage.Store

/-! # The EVM crate: `crates/evm/*.rs`

What the node does around `revm`, which is the parameter `Revm`: any functions of what
they are given. The store does not change while the EVM runs. -/

namespace EthereumRust.Evm
open Rlp Mpt Core Storage

/-! ## Types of `revm` -/

inductive SpecId where
  | merge
  | shanghai
  | cancun
  deriving DecidableEq, Repr

/-- `code` are the original bytes of the bytecode. -/
structure RevmAccountInfo where
  balance : U256
  nonce : UInt64
  codeHash : H256
  code : Option Bytes
  deriving DecidableEq

structure Database where
  basic : Address → Outcome StoreError (Option RevmAccountInfo)
  codeByHash : H256 → Outcome StoreError Bytes
  storage : Address → U256 → Outcome StoreError U256
  blockHash : U256 → Outcome StoreError H256

/-- `revm` computes the blob gas price from the excess blob gas. -/
structure BlockEnv where
  number : U256
  coinbase : Address
  timestamp : U256
  gasLimit : U256
  basefee : U256
  difficulty : U256
  prevrandao : Option H256
  blobExcessGas : Option UInt64
  deriving DecidableEq

structure TxEnv where
  caller : Address
  gasLimit : UInt64
  gasPrice : U256
  transactTo : TxKind
  value : U256
  data : Bytes
  nonce : Option UInt64
  chainId : Option UInt64
  accessList : List (Address × List U256)
  gasPriorityFee : Option U256
  blobHashes : List H256
  maxFeePerBlobGas : Option U256
  deriving DecidableEq

inductive RevmError where
  | transaction (message : String)
  | header (message : String)
  | database (e : StoreError)
  | custom (message : String)
  | precompile (message : String)
  deriving DecidableEq

inductive SuccessReason where
  | stop
  | ret
  | selfDestruct
  | eofReturnContract
  deriving DecidableEq

inductive Output where
  | call (data : Bytes)
  | create (data : Bytes) (address : Option Address)
  deriving DecidableEq

inductive ExecutionResult where
  | success (reason : SuccessReason) (gasUsed gasRefunded : UInt64) (logs : List Log) (output : Output)
  | revert (gasUsed : UInt64) (output : Bytes)
  | halt (reason : String) (gasUsed : UInt64)
  deriving DecidableEq

namespace ExecutionResult

def isSuccess : ExecutionResult → Bool
  | success .. => true
  | _ => false

def gasUsed : ExecutionResult → UInt64
  | success _ gasUsed _ _ _ => gasUsed
  | revert gasUsed _ => gasUsed
  | halt _ gasUsed => gasUsed

def logs : ExecutionResult → List Log
  | success _ _ _ logs _ => logs
  | _ => []

end ExecutionResult

inductive AccountStatus where
  | loadedNotExisting
  | loaded
  | loadedEmptyEIP161
  | inMemoryChange
  | changed
  | destroyed
  | destroyedChanged
  | destroyedAgain
  deriving DecidableEq, Repr

def AccountStatus.isNotModified : AccountStatus → Bool
  | loadedNotExisting | loaded | loadedEmptyEIP161 => true
  | _ => false

structure StorageSlot where
  previousOrOriginalValue : U256
  presentValue : U256
  deriving DecidableEq

def StorageSlot.isChanged (self : StorageSlot) : Bool :=
  self.presentValue != self.previousOrOriginalValue

structure BundleAccount where
  info : Option RevmAccountInfo
  originalInfo : Option RevmAccountInfo
  storage : HashMap U256 StorageSlot
  status : AccountStatus

/-- The code is not compared: it is determined by its hash. -/
def RevmAccountInfo.key (self : RevmAccountInfo) : U256 × UInt64 × H256 :=
  (self.balance, self.nonce, self.codeHash)

def RevmAccountInfo.isEmpty (self : RevmAccountInfo) : Bool :=
  (self.codeHash == EMPTY_KECCACK_HASH || self.codeHash == H256.zero) && self.balance == 0 &&
    self.nonce == 0

def BundleAccount.isInfoChanged (self : BundleAccount) : Bool :=
  self.info.map RevmAccountInfo.key != self.originalInfo.map RevmAccountInfo.key

def BundleAccount.isContractChanged (self : BundleAccount) : Bool :=
  self.info.map RevmAccountInfo.codeHash != self.originalInfo.map RevmAccountInfo.codeHash

/-- The crate `revm`. `State` is its state without the database: the cache, the transitions
and the bundle. `transact` runs a transaction and returns its result with the accounts it
touched, which `commit` applies. -/
class Revm where
  State : Type
  Account : Type
  initial : State
  transact : Database → (chainId : UInt64) → SpecId → BlockEnv → TxEnv →
    Exec State RevmError (ExecutionResult × HashMap Address Account)
  commit : HashMap Address Account → State → State
  incrementBalances : Database → List (Address × Nat) → Exec State StoreError Unit
  takeBundle : State → HashMap Address BundleAccount × State

/-! ## `StoreWrapper` -/

inductive EvmError where
  | transaction (message : String)
  | header (message : String)
  | db (e : StoreError)
  | custom (message : String)
  | precompile (message : String)
  deriving DecidableEq, Repr

def EvmError.toString : EvmError → String
  | transaction message => "Invalid Transaction: " ++ message
  | header message => "Invalid Header: " ++ message
  | db e => "DB error: " ++ e.toString
  | custom message => message
  | precompile message => message

def EvmError.ofRevm : RevmError → EvmError
  | .transaction message => .transaction message
  | .header message => .header message
  | .database e => .db e
  | .custom message => .custom message
  | .precompile message => .precompile message

section

variable [Keccak256]

def hexOf (h : H256) : String := "0x" ++ String.ofList (h.1.flatMap fun b =>
  [Nat.digitChar (b.toNat / 16), Nat.digitChar (b.toNat % 16)])

def storeWrapper (store : Store) (blockHash : BlockHash) : Database where
  basic address := do
    let info ← store.getAccountInfoByHash blockHash address
    pure (info.map fun info =>
      ⟨info.balance, info.nonce, info.codeHash, store.getAccountCode info.codeHash⟩)
  codeByHash codeHash :=
    match store.getAccountCode codeHash with
    | some code => .ok code
    | none => .error (.error (.custom ("No code for hash " ++ hexOf codeHash)))
  storage address index := do
    let value ← store.getStorageAtHash blockHash address (H256.ofNat index.toNat)
    pure (value.getD 0)
  blockHash number := do
    let n ← Transaction.asU64 number
    match store.getBlockHeader n with
    | some header => pure header.computeBlockHash
    | none => .error (.error (.custom ("Block " ++ toString number.toNat ++ " not found")))

end

/-! ## Environments -/

def specId {ε : Type} (store : Store) (blockTimestamp : UInt64) : Outcome ε SpecId := do
  let chainConfig ← store.getChainConfig
  match chainConfig.getFork blockTimestamp with
  | .cancun => pure .cancun
  | .shanghai => pure .shanghai
  | .paris => pure .merge

def u256 (n : UInt64) : U256 := BitVec.ofNat 256 n.toNat

def blockEnv (header : BlockHeader) : BlockEnv where
  number := u256 header.number
  coinbase := header.coinbase
  timestamp := u256 header.timestamp
  gasLimit := u256 header.gasLimit
  basefee := u256 (header.baseFeePerGas.getD INITIAL_BASE_FEE)
  difficulty := header.difficulty
  prevrandao := some header.prevRandao
  blobExcessGas := some (header.excessBlobGas.getD 0)

def txEnv {ε : Type} [Keccak256] [Secp256k1] (tx : Transaction) : Outcome ε TxEnv := do
  let caller ← tx.sender
  let chainId ← tx.chainId
  pure {
    caller
    gasLimit := tx.gasLimit
    gasPrice := u256 tx.gasPrice
    transactTo := tx.recipient
    value := tx.value
    data := tx.data
    nonce := some tx.nonce
    chainId
    accessList := tx.accessList.map fun (address, keys) =>
      (address, keys.map fun key => BitVec.ofNat 256 (beNat key.1))
    gasPriorityFee := tx.maxPriorityFee.map u256
    blobHashes := tx.blobVersionedHashes
    maxFeePerBlobGas := tx.maxFeePerBlobGas }

def TxEnv.new : TxEnv where
  caller := Address.ofNat 0
  gasLimit := UInt64.ofNat (Rust.wordSize - 1)
  gasPrice := 0
  transactTo := .call (Address.ofNat 0)
  value := 0
  data := ⟨[]⟩
  nonce := none
  chainId := none
  accessList := []
  gasPriorityFee := none
  blobHashes := []
  maxFeePerBlobGas := none

def SYSTEM_ADDRESS : Address := Address.ofNat 0xfffffffffffffffffffffffffffffffffffffffe

def CONTRACT_ADDRESS : Address := Address.ofNat 0x000F3df6D732807Ef1319fB7B8bB8522d0Beac02

/-! ## Running the EVM -/

section

variable [Keccak256] [EthBloom] [Revm]

/-- `EvmState`: a store, the block whose state is read, and the state of `revm`. -/
structure EvmState where
  store : Store
  blockHash : BlockHash
  state : Revm.State

def evmState (store : Store) (blockHash : BlockHash) : EvmState := ⟨store, blockHash, Revm.initial⟩

def EvmState.database (self : EvmState) : Database := storeWrapper self.store self.blockHash

abbrev EvmM := Exec EvmState EvmError

def onRevm {ε α : Type} (x : Database → Exec Revm.State ε α) : Exec EvmState ε α := fun s =>
  let (res, state) := x s.database s.state
  (res, { s with state })

def commitState (accounts : HashMap Address Revm.Account) : EvmM Unit :=
  Exec.modify fun s => { s with state := Revm.commit accounts s.state }

def runEvm (txEnv : TxEnv) (blockEnv : BlockEnv) (specId : SpecId) : EvmM ExecutionResult := do
  let chainSpec ← Exec.reads fun s => s.store.getChainConfig
  let (result, accounts) ← Exec.mapErr EvmError.ofRevm
    (onRevm fun db => Revm.transact db chainSpec.chainId specId blockEnv txEnv)
  commitState accounts
  pure result

def executeTx [Secp256k1] (tx : Transaction) (header : BlockHeader) (specId : SpecId) :
    EvmM ExecutionResult := do
  let txEnv ← Exec.reads fun _ => txEnv tx
  runEvm txEnv (blockEnv header) specId

/-- Calls the EIP-4788 beacon block root contract. What the call does to the system address and
the coinbase is dropped; the chain id is the default of `revm`. -/
def beaconRootContractCall (header : BlockHeader) (specId : SpecId) : EvmM ExecutionResult :=
  match header.parentBeaconBlockRoot with
  | none => Exec.fail (.header "parent_beacon_block_root field is missing")
  | some beaconRoot => do
    let txEnv := { TxEnv.new with
      caller := SYSTEM_ADDRESS
      transactTo := .call CONTRACT_ADDRESS
      gasLimit := 30000000
      data := ⟨beaconRoot.1⟩ }
    let blockEnv := { blockEnv header with
      basefee := 0
      gasLimit := 30000000 }
    let (result, accounts) ← Exec.mapErr EvmError.ofRevm
      (onRevm fun db => Revm.transact db 1 specId blockEnv txEnv)
    commitState ((accounts.erase SYSTEM_ADDRESS).erase blockEnv.coinbase)
    pure result

def processWithdrawals (withdrawals : List Withdrawal) : Exec EvmState StoreError Unit :=
  let balanceIncrements := (withdrawals.filter fun withdrawal => withdrawal.amount > 0).map
    fun withdrawal => (withdrawal.address, withdrawal.amount.toNat * GWEI_TO_WEI.toNat)
  onRevm fun db => Revm.incrementBalances db balanceIncrements

def beaconRootCall (header : BlockHeader) (specId : SpecId) : EvmM Unit := do
  if header.parentBeaconBlockRoot.isSome ∧ specId = .cancun then
    let _ ← beaconRootContractCall header specId
    pure ()
  else pure ()

def executeTransactions [Secp256k1] (header : BlockHeader) (specId : SpecId) :
    UInt64 → List Transaction → EvmM (List Receipt)
  | _, [] => pure []
  | cumulativeGasUsed, transaction :: transactions => do
    let result ← executeTx transaction header specId
    let cumulativeGasUsed ← Exec.reads fun _ => Rust.u64Add cumulativeGasUsed result.gasUsed
    let receipt := Receipt.new transaction.txType result.isSuccess cumulativeGasUsed result.logs
    let receipts ← executeTransactions header specId cumulativeGasUsed transactions
    pure (receipt :: receipts)

def executeBlock [Secp256k1] (block : Block) : EvmM (List Receipt) := do
  let spec ← Exec.reads fun s => specId s.store block.header.timestamp
  beaconRootCall block.header spec
  let receipts ← executeTransactions block.header spec 0 block.body.transactions
  match block.body.withdrawals with
  | some withdrawals => Exec.mapErr EvmError.db (processWithdrawals withdrawals)
  | none => pure ()
  pure receipts

end

/-! ## State transitions -/

def changedStorage (storage : HashMap U256 StorageSlot) : HashMap H256 U256 :=
  (entriesOf storage).foldl (fun added (key, slot) =>
    if slot.isChanged then added.insert (H256.ofNat key.toNat) slot.presentValue else added) ∅

def accountUpdate (address : Address) (account : BundleAccount) : Option AccountUpdate :=
  if account.status.isNotModified then none
  else if account.status = .destroyed ∨ account.status = .destroyedAgain then
    some (AccountUpdate.removal address)
  else if account.info.any RevmAccountInfo.isEmpty then none
  else
    let update := AccountUpdate.new address
    let update := match account.info with
      | some info =>
        if account.isInfoChanged then
          { update with
            info := some ⟨info.codeHash, info.balance, info.nonce⟩
            code := if account.isContractChanged then info.code else none }
        else update
      | none => update
    some { update with addedStorage := changedStorage account.storage }

def getStateTransitions [Revm] (state : EvmState) : List AccountUpdate :=
  (entriesOf (Revm.takeBundle state.state).1).filterMap fun (address, account) =>
    accountUpdate address account

end EthereumRust.Evm
