import EthereumRust.Blockchain.AddBlock

/-! # Building a payload: `crates/blockchain/payload.rs` -/

namespace EthereumRust.Blockchain
open Rlp Mpt Core Storage Evm

structure BuildPayloadArgs where
  parent : BlockHash
  timestamp : UInt64
  feeRecipient : Address
  random : H256
  withdrawals : List Withdrawal
  beaconRoot : Option H256
  version : UInt8

/-- An 8-byte identifier: the version, then bytes of the hash of the other arguments. -/
def BuildPayloadArgs.id [Keccak256] (self : BuildPayloadArgs) : UInt64 :=
  let hash := digest (self.parent.1 ++ beBytes 8 self.timestamp.toNat ++ self.random.1 ++
    self.feeRecipient.1 ++ encode self.withdrawals ++ (self.beaconRoot.elim [] Subtype.val))
  UInt64.ofNat (beNat (self.version :: (hash.1.take 8).drop 1))

def calcGasLimit (parentGasLimit desiredLimit : UInt64) : Checked UInt64 := do
  let delta ← Rust.u64Sub (parentGasLimit / GAS_LIMIT_BOUND_DIVISOR) 1
  let desiredLimit := min desiredLimit MIN_GAS_LIMIT
  if parentGasLimit < desiredLimit then
    let limit ← Rust.u64Add parentGasLimit delta
    pure (if limit > desiredLimit then desiredLimit else limit)
  else if parentGasLimit > desiredLimit then
    let limit ← Rust.u64Sub parentGasLimit delta
    pure (if limit < desiredLimit then desiredLimit else limit)
  else pure parentGasLimit

/-- `payload.rs` has its own copy of the function of the block checks. -/
def calcExcessBlobGas (parentExcessBlobGas parentBlobGasUsed : UInt64) : Checked UInt64 := do
  let excessBlobGas ← Rust.u64Add parentExcessBlobGas parentBlobGasUsed
  if excessBlobGas < TARGET_BLOB_GAS_PER_BLOCK then pure 0
  else pure (excessBlobGas - TARGET_BLOB_GAS_PER_BLOCK)

def DEFAULT_BUILDER_GAS_CEIL : UInt64 := 30000000

def initialPayload [Keccak256] (args : BuildPayloadArgs) (parentBlock : BlockHeader)
    (chainConfig : ChainConfig) : Checked Block := do
  let gasLimit ← calcGasLimit parentBlock.gasLimit DEFAULT_BUILDER_GAS_CEIL
  let transactionsRoot ← computeTransactionsRoot []
  let receiptsRoot ← computeReceiptsRoot []
  let baseFeePerGas ← calculateBaseFeePerGas gasLimit parentBlock.gasLimit parentBlock.gasUsed
    (parentBlock.baseFeePerGas.getD 0)
  let withdrawalsRoot ← computeWithdrawalsRoot args.withdrawals
  let excessBlobGas ← calcExcessBlobGas (parentBlock.excessBlobGas.getD 0)
    (parentBlock.blobGasUsed.getD 0)
  pure {
    header := {
      parentHash := args.parent
      ommersHash := DEFAULT_OMMERS_HASH
      coinbase := args.feeRecipient
      stateRoot := parentBlock.stateRoot
      transactionsRoot
      receiptsRoot
      logsBloom := Bloom.zero
      difficulty := 0
      number := Rust.saturatingAdd parentBlock.number 1
      gasLimit
      gasUsed := 0
      timestamp := args.timestamp
      extraData := ⟨[]⟩
      prevRandao := args.random
      nonce := 0
      baseFeePerGas
      withdrawalsRoot :=
        if chainConfig.isShanghaiActivated args.timestamp then some withdrawalsRoot else none
      blobGasUsed := some 0
      excessBlobGas :=
        if chainConfig.isCancunActivated args.timestamp then some excessBlobGas else none
      parentBeaconBlockRoot := args.beaconRoot }
    body := ⟨[], [], some args.withdrawals⟩ }

section

variable [Keccak256] [Revm]

def systemUpdates (storage : Store) (args : BuildPayloadArgs) (payload : Block) (spec : SpecId) :
    Checked (List AccountUpdate) :=
  let run : Exec EvmState ChainError Unit := do
    Exec.mapErr ChainError.evmError (if args.beaconRoot.isSome ∧ spec = .cancun then do
        let _ ← beaconRootContractCall payload.header spec
        pure ()
      else pure ())
    Exec.mapErr ChainError.storeError (processWithdrawals args.withdrawals)
  match run (evmState storage args.parent) with
  | (.ok (), state) => .ok (getStateTransitions state)
  | (.error e, _) => .error e

def buildPayload (args : BuildPayloadArgs) : Exec Store ChainError Block := do
  let storage ← Exec.get
  match storage.getBlockHeaderByHash args.parent with
  | none => Exec.fail .parentNotFound
  | some parentBlock =>
    let chainConfig ← Exec.reads fun storage => storage.getChainConfig
    let payload ← Exec.reads fun _ => initialPayload args parentBlock chainConfig
    let spec ← Exec.reads fun storage => specId storage args.timestamp
    let accountUpdates ← Exec.reads fun storage => systemUpdates storage args payload spec
    let stateRoot ← Exec.mapErr ChainError.storeError
      (Store.applyAccountUpdates args.parent accountUpdates)
    pure { payload with header := { payload.header with stateRoot := stateRoot.getD H256.zero } }

end

/-! ## The value of a payload -/

def u256Mul {ε : Type} (a b : U256) : Outcome ε U256 :=
  if a.toNat * b.toNat < 2 ^ 256 then .ok (a * b) else Outcome.panic "arithmetic operation overflow"

def feesFrom {ε : Type} (storage : Store) (header : BlockHeader) (totalFee : U256)
    (lastCumulativeGasUsed : UInt64) (index : Nat) : List Transaction → Outcome ε (Option U256)
  | [] => .ok (some totalFee)
  | tx :: transactions =>
    match tx.effectiveGasTip header.baseFeePerGas,
      storage.getReceipt header.number (UInt64.ofNat index) with
    | some fee, some receipt => do
      let gasUsed ← Rust.u64Sub receipt.cumulativeGasUsed lastCumulativeGasUsed
      let paid ← u256Mul (u256 fee) (u256 gasUsed)
      let totalFee ← Store.u256Add totalFee paid
      feesFrom storage header totalFee receipt.cumulativeGasUsed (index + 1) transactions
    | _, _ => .ok none

def payloadBlockValue {ε : Type} (block : Block) (storage : Store) : Outcome ε (Option U256) :=
  feesFrom storage block.header 0 0 0 block.body.transactions

end EthereumRust.Blockchain
