import EthereumRust.Blockchain.Payload

/-! # Payload requests: `crates/rpc/engine/payload.rs`, `crates/rpc/types/payload.rs`

The handlers on requests that were parsed, with the RPC errors that they return. -/

namespace EthereumRust.Engine
open Rlp Mpt Core Storage Evm Blockchain

inductive RpcErr where
  | wrongParam (field : String)
  | badParams
  | badHexFormat (argNumber : UInt64)
  | unsuportedFork
  | internal
  | vm
  | revert (data : String)
  | halt (reason : String) (gasUsed : UInt64)
  | invalidForkChoiceState (message : String)
  | unknownPayload
  deriving DecidableEq, Repr

abbrev Handler (α : Type) := Exec Store RpcErr α

/-! ## Payloads -/

abbrev EncodedTransaction := Bytes

structure ExecutionPayloadV3 where
  parentHash : H256
  feeRecipient : Address
  stateRoot : H256
  receiptsRoot : H256
  logsBloom : Bloom
  prevRandao : H256
  blockNumber : UInt64
  gasLimit : UInt64
  gasUsed : UInt64
  timestamp : UInt64
  extraData : Bytes
  baseFeePerGas : UInt64
  blockHash : H256
  transactions : List EncodedTransaction
  withdrawals : List Withdrawal
  blobGasUsed : UInt64
  excessBlobGas : UInt64
  deriving DecidableEq

namespace ExecutionPayloadV3

def decodeTransactions : List EncodedTransaction → Decode (List Transaction)
  | [] => .ok []
  | encodedTx :: rest => do
    let tx ← Transaction.decodeCanonical encodedTx.data
    let txs ← decodeTransactions rest
    pure (tx :: txs)

variable [Keccak256]

def intoBlock (self : ExecutionPayloadV3) (parentBeaconBlockRoot : H256) : Decode Block := do
  let transactions ← decodeTransactions self.transactions
  let transactionsRoot ← computeTransactionsRoot transactions
  let withdrawalsRoot ← computeWithdrawalsRoot self.withdrawals
  pure {
    header := {
      parentHash := self.parentHash
      ommersHash := DEFAULT_OMMERS_HASH
      coinbase := self.feeRecipient
      stateRoot := self.stateRoot
      transactionsRoot
      receiptsRoot := self.receiptsRoot
      logsBloom := self.logsBloom
      difficulty := 0
      number := self.blockNumber
      gasLimit := self.gasLimit
      gasUsed := self.gasUsed
      timestamp := self.timestamp
      extraData := self.extraData
      prevRandao := self.prevRandao
      nonce := 0
      baseFeePerGas := some self.baseFeePerGas
      withdrawalsRoot := some withdrawalsRoot
      blobGasUsed := some self.blobGasUsed
      excessBlobGas := some self.excessBlobGas
      parentBeaconBlockRoot := some parentBeaconBlockRoot }
    body := ⟨transactions, [], some self.withdrawals⟩ }

def fromBlock (block : Block) : ExecutionPayloadV3 where
  parentHash := block.header.parentHash
  feeRecipient := block.header.coinbase
  stateRoot := block.header.stateRoot
  receiptsRoot := block.header.receiptsRoot
  logsBloom := block.header.logsBloom
  prevRandao := block.header.prevRandao
  blockNumber := block.header.number
  gasLimit := block.header.gasLimit
  gasUsed := block.header.gasUsed
  timestamp := block.header.timestamp
  extraData := block.header.extraData
  baseFeePerGas := block.header.baseFeePerGas.getD 0
  blockHash := block.header.computeBlockHash
  transactions := block.body.transactions.map fun tx => ⟨tx.encodeCanonicalToVec⟩
  withdrawals := block.body.withdrawals.getD []
  blobGasUsed := block.header.blobGasUsed.getD 0
  excessBlobGas := block.header.excessBlobGas.getD 0

end ExecutionPayloadV3

/-! ## Status -/

inductive PayloadValidationStatus where
  | valid
  | invalid
  | syncing
  | accepted
  deriving DecidableEq, Repr

structure PayloadStatus where
  status : PayloadValidationStatus
  latestValidHash : Option H256
  validationError : Option String
  deriving DecidableEq

namespace PayloadStatus

def invalidWithErr (error : String) : PayloadStatus := ⟨.invalid, none, some error⟩
def invalidWithHash (hash : BlockHash) : PayloadStatus := ⟨.invalid, some hash, none⟩
def syncing : PayloadStatus := ⟨.syncing, none, none⟩
def validWithHash (hash : BlockHash) : PayloadStatus := ⟨.valid, some hash, none⟩
def valid : PayloadStatus := ⟨.valid, none, none⟩

end PayloadStatus

/-! ## `engine_newPayloadV3` -/

structure NewPayloadV3Request where
  payload : ExecutionPayloadV3
  expectedBlobVersionedHashes : List H256
  parentBeaconBlockRoot : H256

namespace NewPayloadV3Request

section

variable [Keccak256] [Secp256k1] [EthBloom] [Revm]

/-- Executes and stores a block that extends the chain. A block that was added becomes canonical. -/
def execute (block : Block) (blockHash latestValidHash : BlockHash) : Handler PayloadStatus :=
  fun storage =>
    match addBlock block storage with
    | (.error (.error e), storage) => (match e with
        | .nonCanonicalParent => .ok PayloadStatus.syncing
        | .parentNotFound =>
          .ok (PayloadStatus.invalidWithErr "Could not reference parent block with parent_hash")
        | .invalidBlock _ => .ok (PayloadStatus.invalidWithHash latestValidHash)
        | .evmError error => .ok (PayloadStatus.invalidWithErr error.toString)
        | .storeError _ => .error (.error .internal), storage)
    | (.error (.panic m), storage) => (.error (.panic m), storage)
    | (.error .diverged, storage) => (.error .diverged, storage)
    | (.ok (), storage) => (.ok (PayloadStatus.validWithHash blockHash),
        storage.setCanonicalBlock block.header.number blockHash)

/-- Checks that the incoming block extends the current chain. -/
def extend (block : Block) (blockHash : BlockHash) : Handler PayloadStatus := do
  let storage ← Exec.get
  match storage.getLatestBlockNumber with
  | none => Exec.fail .internal
  | some lastBlockNumber =>
    if block.header.number ≤ lastBlockNumber then
      -- Check if we already have this block stored
      if storage.getBlockNumber blockHash = some block.header.number then
        pure (PayloadStatus.validWithHash blockHash)
      else Exec.fail .internal
    else
      let next ← Exec.reads fun _ => Rust.u64Add lastBlockNumber 1
      if block.header.number ≠ next then pure PayloadStatus.syncing
      else
        let latestValidHash ← Exec.mapErr (fun _ => RpcErr.internal) (Exec.reads latestValidHash)
        execute block blockHash latestValidHash

/-- The checks of a block that need no chain: its fork, its hash and its blob hashes. -/
def handleBlock (self : NewPayloadV3Request) (block : Block) : Handler PayloadStatus := do
  let blockHash := self.payload.blockHash
  let chainConfig ← Exec.reads fun storage => storage.getChainConfig
  if chainConfig.getFork block.header.timestamp < .cancun then Exec.fail .unsuportedFork
  else if blockHash ≠ block.header.computeBlockHash then
    pure (PayloadStatus.invalidWithErr "Invalid block hash")
  else if self.expectedBlobVersionedHashes ≠
      block.body.transactions.flatMap Transaction.blobVersionedHashes then
    pure (PayloadStatus.invalidWithErr "Invalid blob_versioned_hashes")
  else extend block blockHash

def handle (self : NewPayloadV3Request) : Handler PayloadStatus :=
  match self.payload.intoBlock self.parentBeaconBlockRoot with
  | .ok block => self.handleBlock block
  | .error (.error error) => pure (PayloadStatus.invalidWithErr error.toString)
  | .error (.panic m) => Exec.panic m
  | .error .diverged => Exec.diverge

end
end NewPayloadV3Request

end EthereumRust.Engine
