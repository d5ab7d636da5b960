import EthereumRust.Evm.Evm

/-! # Adding a block: `crates/blockchain/{blockchain,error,constants}.rs`

The texts of the block errors are left out: no answer of the node shows them. -/

namespace EthereumRust.Blockchain
open Rlp Mpt Core Storage Evm

def GAS_PER_BLOB : UInt64 := 131072
def TARGET_BLOB_GAS_PER_BLOCK : UInt64 := 393216
def TARGET_BLOB_NUMBER_PER_BLOCK : UInt64 := 3
def MAX_BLOB_NUMBER_PER_BLOCK : UInt64 := 2 * TARGET_BLOB_NUMBER_PER_BLOCK
def MAX_BLOB_GAS_PER_BLOCK : UInt64 := MAX_BLOB_NUMBER_PER_BLOCK * GAS_PER_BLOB
def GAS_LIMIT_BOUND_DIVISOR : UInt64 := 1024
def MIN_GAS_LIMIT : UInt64 := 5000

inductive InvalidBlockError where
  | stateRootMismatch
  | invalidHeader
  | exceededMaxBlobGasPerBlock
  | exceededMaxBlobNumberPerBlock
  | gasUsedMismatch
  | blobGasUsedMismatch
  deriving DecidableEq, Repr

inductive ChainError where
  | invalidBlock (e : InvalidBlockError)
  | parentNotFound
  | nonCanonicalParent
  | storeError (e : StoreError)
  | evmError (e : EvmError)
  deriving DecidableEq, Repr

abbrev Checked (α : Type) := Outcome ChainError α

def Checked.fail {α : Type} (e : ChainError) : Checked α := .error (.error e)

/-! ## Checks before the execution -/

def validateParentCanonical (block : Block) (storage : Store) : Checked Unit :=
  match storage.getCanonicalBlockHash (Rust.saturatingSub block.header.number 1) with
  | some hash => if hash = block.header.parentHash then .ok () else Checked.fail .nonCanonicalParent
  | none => Checked.fail .nonCanonicalParent

def findParentHeader (blockHeader : BlockHeader) (storage : Store) : Checked BlockHeader :=
  match storage.getBlockNumber blockHeader.parentHash with
  | some parentNumber =>
    match storage.getBlockHeader parentNumber with
    | some parentHeader => .ok parentHeader
    | none => Checked.fail .parentNotFound
  | none => Checked.fail .parentNotFound

def getTotalBlobGas (tx : EIP4844Transaction) : Checked UInt64 :=
  Rust.u64Mul GAS_PER_BLOB (UInt64.ofNat tx.blobVersionedHashes.length)

def blobUsage (blobGasUsed blobsInBlock : UInt64) : List Transaction → Checked (UInt64 × UInt64)
  | [] => .ok (blobGasUsed, blobsInBlock)
  | .eip4844Transaction tx :: transactions => do
    let gas ← getTotalBlobGas tx
    let blobGasUsed ← Rust.u64Add blobGasUsed gas
    let blobsInBlock ← Rust.u64Add blobsInBlock (UInt64.ofNat tx.blobVersionedHashes.length)
    blobUsage blobGasUsed blobsInBlock transactions
  | _ :: transactions => blobUsage blobGasUsed blobsInBlock transactions

def verifyBlobGasUsage (block : Block) : Checked Unit := do
  let (blobGasUsed, blobsInBlock) ← blobUsage 0 0 block.body.transactions
  if blobGasUsed > MAX_BLOB_GAS_PER_BLOCK then
    Checked.fail (.invalidBlock .exceededMaxBlobGasPerBlock)
  else if blobsInBlock > MAX_BLOB_NUMBER_PER_BLOCK then
    Checked.fail (.invalidBlock .exceededMaxBlobNumberPerBlock)
  else if block.header.blobGasUsed.any (· ≠ blobGasUsed) then
    Checked.fail (.invalidBlock .blobGasUsedMismatch)
  else pure ()

section

variable [Keccak256]

def validHeader (spec : SpecId) (header parentHeader : BlockHeader) : Checked Bool := do
  let valid ← validateBlockHeader header parentHeader
  if !valid then pure false
  else if spec = .cancun then validateCancunHeaderFields header parentHeader
  else pure (validateNoCancunHeaderFields header)

/-- Performs pre-execution validation of the block's header values in reference to the parent
header, and of its blob gas fields in reference to the body. -/
def validateBlock (block : Block) (parentHeader : BlockHeader) (storage : Store) : Checked Unit := do
  let spec ← specId storage block.header.timestamp
  let valid ← validHeader spec block.header parentHeader
  if !valid then Checked.fail (.invalidBlock .invalidHeader)
  else if spec = .cancun then verifyBlobGasUsage block
  else pure ()

end

/-! ## Checks after the execution -/

def validateGasUsed (receipts : List Receipt) (blockHeader : BlockHeader) : Checked Unit :=
  match receipts.getLast? with
  | some last =>
    if last.cumulativeGasUsed ≠ blockHeader.gasUsed then
      Checked.fail (.invalidBlock .gasUsedMismatch)
    else .ok ()
  | none => .ok ()

def validateStateRoot (blockHeader : BlockHeader) (newStateRoot : H256) : Checked Unit :=
  if newStateRoot = blockHeader.stateRoot then .ok ()
  else Checked.fail (.invalidBlock .stateRootMismatch)

/-! ## `add_block` -/

section

variable [Keccak256] [Secp256k1] [EthBloom] [Revm]

/-- Executes a block over the state of its parent: the receipts, and the account updates. -/
def executeOver (storage : Store) (block : Block) : Checked (List Receipt × List AccountUpdate) :=
  match executeBlock block (evmState storage block.header.parentHash) with
  | (.ok receipts, state) => .ok (receipts, getStateTransitions state)
  | (.error e, _) => Outcome.mapErr ChainError.evmError (.error e)

omit [Secp256k1] [EthBloom] [Revm] in
def storeReceipts (self : Store) (receipts : List Receipt) (blockHash : BlockHash) : Store :=
  receipts.zipIdx.foldl (fun store (receipt, index) =>
    store.addReceipt blockHash (UInt64.ofNat index) receipt) self

/-- What is checked and executed of a block before it is stored. The nodes and codes of its
state are written on the way. -/
def checkBlock (block : Block) : Exec Store ChainError (List Receipt) := do
  Exec.reads (validateParentCanonical block)
  let parentHeader ← Exec.reads (findParentHeader block.header)
  Exec.reads (validateBlock block parentHeader)
  let (receipts, accountUpdates) ← Exec.reads fun storage => executeOver storage block
  Exec.reads fun _ => validateGasUsed receipts block.header
  let newStateRoot ← Exec.mapErr ChainError.storeError
    (Store.applyAccountUpdates block.header.parentHash accountUpdates)
  Exec.reads fun _ => validateStateRoot block.header (newStateRoot.getD H256.zero)
  pure receipts

/-- Adds a new block to the store, if its parent is part of the canonical chain. -/
def addBlock (block : Block) : Exec Store ChainError Unit := do
  let receipts ← checkBlock block
  Exec.mapErr ChainError.storeError (Store.addBlock block)
  Exec.modify fun store => storeReceipts store receipts block.header.computeBlockHash

omit [Secp256k1] [EthBloom] [Revm] in
def latestValidHash (storage : Store) : Checked H256 :=
  match storage.getLatestBlockNumber.bind storage.getBlockHeader with
  | some latestValidHeader => .ok latestValidHeader.computeBlockHash
  | none => Checked.fail (.storeError (.custom "Could not find latest valid hash"))

/-- A step of the chain import: a block that was added becomes canonical, one that was not is
passed over. -/
def importBlock (block : Block) : Exec Store ChainError Unit := fun store =>
  match addBlock block store with
  | (.ok (), store) =>
    (.ok (), store.setCanonicalBlock block.header.number block.header.computeBlockHash)
  | (.error (.error _), store) => (.ok (), store)
  | (.error fault, store) => (.error fault, store)

end
end EthereumRust.Blockchain
