import EthereumRust.Engine.Payload

/-! # Queries by block hash: `crates/rpc/eth/{block,transaction}.rs`, `crates/rpc/types/*.rs`

The handlers on requests that were parsed. An answer of `none` is the JSON null; the JSON
forms are left out. The field `from` is called `sender`. -/

namespace EthereumRust.Rpc
open Rlp Mpt Core Storage Evm Blockchain Engine

/-! ## Values -/

structure RpcTransaction where
  tx : Transaction
  blockNumber : BlockNumber
  blockHash : BlockHash
  sender : Address
  hash : H256
  transactionIndex : UInt64
  deriving DecidableEq

inductive BlockBodyWrapper where
  | full (transactions : List RpcTransaction) (uncles : List BlockHeader) (withdrawals : List Withdrawal)
  | onlyHashes (transactions : List H256) (uncles : List BlockHeader) (withdrawals : List Withdrawal)
  deriving DecidableEq

structure RpcBlock where
  hash : H256
  size : UInt64
  totalDifficulty : U256
  header : BlockHeader
  body : BlockBodyWrapper
  deriving DecidableEq

structure RpcLog where
  log : Log
  logIndex : UInt64
  removed : Bool
  transactionHash : H256
  transactionIndex : UInt64
  blockHash : BlockHash
  blockNumber : BlockNumber
  deriving DecidableEq

structure RpcReceiptInfo where
  txType : TxType
  status : Bool
  cumulativeGasUsed : UInt64
  logsBloom : Bloom
  deriving DecidableEq

structure RpcReceiptBlockInfo where
  blockHash : BlockHash
  blockNumber : BlockNumber
  blobGasUsed : Option UInt64
  deriving DecidableEq

structure RpcReceiptTxInfo where
  transactionHash : H256
  transactionIndex : UInt64
  sender : Address
  recipient : Option Address
  contractAddress : Option Address
  gasUsed : UInt64
  effectiveGasPrice : UInt64
  blobGasPrice : Option UInt64
  deriving DecidableEq

structure RpcReceipt where
  receipt : RpcReceiptInfo
  logs : List RpcLog
  txInfo : RpcReceiptTxInfo
  blockInfo : RpcReceiptBlockInfo
  deriving DecidableEq

section

variable {ε : Type} [Keccak256]

def RpcReceiptBlockInfo.fromBlockHeader (blockHeader : BlockHeader) : RpcReceiptBlockInfo where
  blockHash := blockHeader.computeBlockHash
  blockNumber := blockHeader.number
  blobGasUsed := blockHeader.blobGasUsed.filter (· ≠ 0)

omit [Keccak256] in
def RpcReceipt.new (receipt : Receipt) (txInfo : RpcReceiptTxInfo) (blockInfo : RpcReceiptBlockInfo)
    (initLogIndex : UInt64) : RpcReceipt where
  receipt := ⟨receipt.txType, receipt.succeeded, receipt.cumulativeGasUsed, receipt.bloom⟩
  logs := receipt.logs.zipIdx.map fun (log, i) =>
    ⟨log, initLogIndex + UInt64.ofNat i, false, txInfo.transactionHash, txInfo.transactionIndex,
      blockInfo.blockHash, blockInfo.blockNumber⟩
  txInfo
  blockInfo

/-- `Address::create` of the crate `alloy`: the address of a contract that an account creates. -/
class Alloy where
  create : Address → UInt64 → Address

/-- For blocks that create no contract. -/
@[reducible] def noCreation : Alloy where
  create sender _ := sender

variable [Secp256k1] [Alloy]

def RpcTransaction.build (tx : Transaction) (blockNumber : BlockNumber) (blockHash : BlockHash)
    (transactionIndex : Nat) : Outcome ε RpcTransaction := do
  let sender ← tx.sender
  pure ⟨tx, blockNumber, blockHash, sender, tx.computeHash, UInt64.ofNat transactionIndex⟩

def fullTransactions (blockNumber : BlockNumber) (blockHash : BlockHash) :
    Nat → List Transaction → Outcome ε (List RpcTransaction)
  | _, [] => .ok []
  | index, tx :: rest => do
    let transaction ← RpcTransaction.build tx blockNumber blockHash index
    let transactions ← fullTransactions blockNumber blockHash (index + 1) rest
    pure (transaction :: transactions)

def bodyWrapper (body : BlockBody) (blockNumber : BlockNumber) (hash : H256) :
    Bool → Outcome ε BlockBodyWrapper
  | true => do
    let transactions ← fullTransactions blockNumber hash 0 body.transactions
    pure (.full transactions body.ommers (body.withdrawals.getD []))
  | false => .ok (.onlyHashes (body.transactions.map Transaction.computeHash) body.ommers
      (body.withdrawals.getD []))

def RpcBlock.build (header : BlockHeader) (body : BlockBody) (hash : H256) (hydrated : Bool)
    (totalDifficulty : U256) : Outcome ε RpcBlock := do
  let wrapper ← bodyWrapper body header.number hash hydrated
  pure ⟨hash, UInt64.ofNat (encode (⟨header, body⟩ : Block)).length, totalDifficulty, header, wrapper⟩

def RpcReceiptTxInfo.fromTransaction (transaction : Transaction) (index gasUsed blockBlobGasPrice : UInt64) :
    Outcome ε RpcReceiptTxInfo := do
  let sender ← transaction.sender
  pure {
    transactionHash := transaction.computeHash
    transactionIndex := index
    sender
    recipient := match transaction.recipient with
      | .create => none
      | .call address => some address
    contractAddress := match transaction.recipient with
      | .create => some (Alloy.create sender transaction.nonce)
      | .call _ => none
    gasUsed
    effectiveGasPrice := transaction.gasPrice
    blobGasPrice := if transaction.txType = .eip4844 then some blockBlobGasPrice else none }

end

/-! ## Handlers -/

section

variable [Keccak256] [Secp256k1] [Alloy]

structure GetBlockByHashRequest where
  block : BlockHash
  hydrated : Bool

def GetBlockByHashRequest.handle (self : GetBlockByHashRequest) (storage : Store) :
    Outcome RpcErr (Option RpcBlock) :=
  match storage.getBlockNumber self.block with
  | none => .ok none
  | some blockNumber =>
    match storage.getBlockHeader blockNumber, storage.getBlockBody blockNumber with
    | some header, some body => do
      let hash := header.computeBlockHash
      let totalDifficulty := storage.getBlockTotalDifficulty hash
      let block ← RpcBlock.build header body hash self.hydrated (totalDifficulty.getD 0)
      pure (some block)
    | _, _ => .ok none

structure GetBlockTransactionCountRequest where
  block : BlockHash

def GetBlockTransactionCountRequest.handle (self : GetBlockTransactionCountRequest) (storage : Store) :
    Outcome RpcErr (Option Nat) :=
  match storage.getBlockNumber self.block with
  | none => .ok none
  | some blockNumber =>
    match storage.getBlockBody blockNumber with
    | none => .ok none
    | some blockBody => .ok (some blockBody.transactions.length)

structure GetTransactionByBlockHashAndIndexRequest where
  block : BlockHash
  transactionIndex : Nat

def GetTransactionByBlockHashAndIndexRequest.handle (self : GetTransactionByBlockHashAndIndexRequest)
    (storage : Store) : Outcome RpcErr (Option RpcTransaction) :=
  match storage.getBlockNumber self.block with
  | none => .ok none
  | some blockNumber =>
    match storage.getBlockBody blockNumber with
    | none => .ok none
    | some blockBody =>
      match blockBody.transactions[self.transactionIndex]? with
      | none => .ok none
      | some tx => do
        let transaction ← RpcTransaction.build tx blockNumber self.block self.transactionIndex
        pure (some transaction)

/-- The receipts of the transactions from an index on, given the gas and the logs before them.
`receiptAt` is where the receipts are read. -/
def rpcReceiptsFrom (receiptAt : Index → Option Receipt) (blobGasPrice : UInt64)
    (blockInfo : RpcReceiptBlockInfo) (lastCumulativeGasUsed currentLogIndex : UInt64) (index : Nat) :
    List Transaction → Outcome RpcErr (List RpcReceipt)
  | [] => .ok []
  | tx :: transactions =>
    match receiptAt (UInt64.ofNat index) with
    | none => .error (.error .internal)
    | some receipt => do
      let gasUsed ← Rust.u64Sub receipt.cumulativeGasUsed lastCumulativeGasUsed
      let txInfo ← RpcReceiptTxInfo.fromTransaction tx (UInt64.ofNat index) gasUsed blobGasPrice
      let rpcReceipt := RpcReceipt.new receipt txInfo blockInfo currentLogIndex
      let lastCumulativeGasUsed ← Rust.u64Add lastCumulativeGasUsed gasUsed
      let currentLogIndex ← Rust.u64Add currentLogIndex (UInt64.ofNat rpcReceipt.logs.length)
      let rest ← rpcReceiptsFrom receiptAt blobGasPrice blockInfo lastCumulativeGasUsed currentLogIndex
        (index + 1) transactions
      pure (rpcReceipt :: rest)

/-- The receipts of a block; the genesis block has none. -/
def getAllBlockRpcReceipts (blockNumber : BlockNumber) (header : BlockHeader) (body : BlockBody)
    (storage : Store) : Outcome RpcErr (List RpcReceipt) := do
  if header.parentHash = H256.zero then pure []
  else
    let parentHeader ← (findParentHeader header storage).mapErr fun _ => RpcErr.internal
    let blobGasPrice ← calculateBaseFeePerBlobGas parentHeader
    rpcReceiptsFrom (storage.getReceipt blockNumber) blobGasPrice
      (RpcReceiptBlockInfo.fromBlockHeader header) 0 0 0 body.transactions

structure GetBlockReceiptsRequest where
  block : BlockHash

def GetBlockReceiptsRequest.handle (self : GetBlockReceiptsRequest) (storage : Store) :
    Outcome RpcErr (Option (List RpcReceipt)) :=
  match storage.getBlockNumber self.block with
  | none => .ok none
  | some blockNumber =>
    match storage.getBlockHeader blockNumber, storage.getBlockBody blockNumber with
    | some header, some body => do
      let receipts ← getAllBlockRpcReceipts blockNumber header body storage
      pure (some receipts)
    | _, _ => .ok none

end
end EthereumRust.Rpc
