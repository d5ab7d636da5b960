import EthereumRust.Core.Transaction
import EthereumRust.Trie.Trie

/-! # Blocks: `crates/core/types/{block,receipt,constants}.rs`

The fees are checked `u64` arithmetic: where it overflows the call panics. -/

namespace EthereumRust.Core
open Rlp Mpt

/-! ## Constants -/

def ELASTICITY_MULTIPLIER : UInt64 := 2
def BASE_FEE_MAX_CHANGE_DENOMINATOR : UInt64 := 8
def GAS_LIMIT_ADJUSTMENT_FACTOR : UInt64 := 1024
def GAS_LIMIT_MINIMUM : UInt64 := 5000
def GWEI_TO_WEI : UInt64 := 1000000000
def INITIAL_BASE_FEE : UInt64 := 1000000000
def MIN_BASE_FEE_PER_BLOB_GAS : UInt64 := 1
def BLOB_BASE_FEE_UPDATE_FRACTION : UInt64 := 3338477

def H256.ofNat (k : Nat) : H256 := ⟨beBytes 32 k, length_beBytes 32 k⟩

def H256.zero : H256 := H256.ofNat 0

def Address.ofNat (k : Nat) : Address := ⟨beBytes 20 k, length_beBytes 20 k⟩

def Bloom.zero : Bloom := ⟨List.replicate 256 0, List.length_replicate⟩

/-- The Keccak-256 of an encoded empty list. -/
def DEFAULT_OMMERS_HASH : H256 :=
  H256.ofNat 0x1dcc4de8dec75d7aab85b567b6ccd41ad312451b948a7413f0a142fd40d49347

/-! ## Headers and bodies -/

abbrev BlockNumber := UInt64
abbrev BlockHash := H256

structure BlockHeader where
  parentHash : H256
  ommersHash : H256
  coinbase : Address
  stateRoot : H256
  transactionsRoot : H256
  receiptsRoot : H256
  logsBloom : Bloom
  difficulty : U256
  number : BlockNumber
  gasLimit : UInt64
  gasUsed : UInt64
  timestamp : UInt64
  extraData : Bytes
  prevRandao : H256
  nonce : UInt64
  baseFeePerGas : Option UInt64
  withdrawalsRoot : Option H256
  blobGasUsed : Option UInt64
  excessBlobGas : Option UInt64
  parentBeaconBlockRoot : Option H256
  deriving DecidableEq

/-- What the examples differ from. -/
def plainHeader : BlockHeader where
  parentHash := H256.zero
  ommersHash := H256.zero
  coinbase := Address.ofNat 0
  stateRoot := H256.zero
  transactionsRoot := H256.zero
  receiptsRoot := H256.zero
  logsBloom := Bloom.zero
  difficulty := 0
  number := 1
  gasLimit := 0
  gasUsed := 0
  timestamp := 0
  extraData := ⟨[]⟩
  prevRandao := H256.zero
  nonce := 0
  baseFeePerGas := none
  withdrawalsRoot := none
  blobGasUsed := none
  excessBlobGas := none
  parentBeaconBlockRoot := none

instance : RLPEncode BlockHeader where
  encode self := Encoder.finish <|
    ((((((((((((((((((((Encoder.new.encodeField self.parentHash).encodeField
      self.ommersHash).encodeField self.coinbase).encodeField self.stateRoot).encodeField
      self.transactionsRoot).encodeField self.receiptsRoot).encodeField self.logsBloom).encodeField
      self.difficulty).encodeField self.number).encodeField self.gasLimit).encodeField
      self.gasUsed).encodeField self.timestamp).encodeField self.extraData).encodeField
      self.prevRandao).encodeField
      (⟨beBytes 8 self.nonce.toNat, length_beBytes 8 _⟩ : FixedBytes 8)).encodeOptionalField
      self.baseFeePerGas).encodeOptionalField self.withdrawalsRoot).encodeOptionalField
      self.blobGasUsed).encodeOptionalField self.excessBlobGas).encodeOptionalField
      self.parentBeaconBlockRoot)

instance : RLPDecode BlockHeader where
  typeName := "ethereum_rust_core::types::block::BlockHeader"
  decodeUnfinished rlp := do
    let decoder ← Decoder.new rlp
    let (parentHash, decoder) ← decoder.decodeField H256 "parent_hash"
    let (ommersHash, decoder) ← decoder.decodeField H256 "ommers_hash"
    let (coinbase, decoder) ← decoder.decodeField Address "coinbase"
    let (stateRoot, decoder) ← decoder.decodeField H256 "state_root"
    let (transactionsRoot, decoder) ← decoder.decodeField H256 "transactions_root"
    let (receiptsRoot, decoder) ← decoder.decodeField H256 "receipts_root"
    let (logsBloom, decoder) ← decoder.decodeField Bloom "logs_bloom"
    let (difficulty, decoder) ← decoder.decodeField U256 "difficulty"
    let (number, decoder) ← decoder.decodeField UInt64 "number"
    let (gasLimit, decoder) ← decoder.decodeField UInt64 "gas_limit"
    let (gasUsed, decoder) ← decoder.decodeField UInt64 "gas_used"
    let (timestamp, decoder) ← decoder.decodeField UInt64 "timestamp"
    let (extraData, decoder) ← decoder.decodeField Bytes "extra_data"
    let (prevRandao, decoder) ← decoder.decodeField H256 "prev_randao"
    let (nonce, decoder) ← decoder.decodeField (FixedBytes 8) "nonce"
    let (baseFeePerGas, decoder) ← decoder.decodeOptionalField UInt64
    let (withdrawalsRoot, decoder) ← decoder.decodeOptionalField H256
    let (blobGasUsed, decoder) ← decoder.decodeOptionalField UInt64
    let (excessBlobGas, decoder) ← decoder.decodeOptionalField UInt64
    let (parentBeaconBlockRoot, decoder) ← decoder.decodeOptionalField H256
    let rest ← decoder.finish
    pure (⟨parentHash, ommersHash, coinbase, stateRoot, transactionsRoot, receiptsRoot, logsBloom,
      difficulty, number, gasLimit, gasUsed, timestamp, extraData, prevRandao,
      UInt64.ofNat (beNat nonce.1), baseFeePerGas, withdrawalsRoot, blobGasUsed, excessBlobGas,
      parentBeaconBlockRoot⟩, rest)

def BlockHeader.computeBlockHash [Keccak256] (self : BlockHeader) : H256 := digest (encode self)

structure Withdrawal where
  index : UInt64
  validatorIndex : UInt64
  address : Address
  amount : UInt64
  deriving DecidableEq

instance : RLPEncode Withdrawal where
  encode self := ((((Encoder.new.encodeField self.index).encodeField self.validatorIndex).encodeField
    self.address).encodeField self.amount).finish

instance : RLPDecode Withdrawal where
  typeName := "ethereum_rust_core::types::block::Withdrawal"
  decodeUnfinished rlp := do
    let decoder ← Decoder.new rlp
    let (index, decoder) ← decoder.decodeField UInt64 "index"
    let (validatorIndex, decoder) ← decoder.decodeField UInt64 "validator_index"
    let (address, decoder) ← decoder.decodeField Address "address"
    let (amount, decoder) ← decoder.decodeField UInt64 "amount"
    let rest ← decoder.finish
    pure (⟨index, validatorIndex, address, amount⟩, rest)

structure BlockBody where
  transactions : List Transaction
  ommers : List BlockHeader
  withdrawals : Option (List Withdrawal)
  deriving DecidableEq

instance : RLPEncode BlockBody where
  encode self := (((Encoder.new.encodeField self.transactions).encodeField
    self.ommers).encodeOptionalField self.withdrawals).finish

instance : RLPDecode BlockBody where
  typeName := "ethereum_rust_core::types::block::BlockBody"
  decodeUnfinished rlp := do
    let decoder ← Decoder.new rlp
    let (transactions, decoder) ← decoder.decodeField (List Transaction) "transactions"
    let (ommers, decoder) ← decoder.decodeField (List BlockHeader) "ommers"
    let (withdrawals, decoder) ← decoder.decodeOptionalField (List Withdrawal)
    let rest ← decoder.finish
    pure (⟨transactions, ommers, withdrawals⟩, rest)

structure Block where
  header : BlockHeader
  body : BlockBody
  deriving DecidableEq

instance : RLPEncode Block where
  encode self := ((((Encoder.new.encodeField self.header).encodeField
    self.body.transactions).encodeField self.body.ommers).encodeOptionalField self.body.withdrawals).finish

instance : RLPDecode Block where
  typeName := "ethereum_rust_core::types::block::Block"
  decodeUnfinished rlp := do
    let decoder ← Decoder.new rlp
    let (header, decoder) ← decoder.decodeField BlockHeader "header"
    let (transactions, decoder) ← decoder.decodeField (List Transaction) "transactions"
    let (ommers, decoder) ← decoder.decodeField (List BlockHeader) "ommers"
    let (withdrawals, decoder) ← decoder.decodeOptionalField (List Withdrawal)
    let remaining ← decoder.finish
    pure (⟨header, ⟨transactions, ommers, withdrawals⟩⟩, remaining)

/-! ## Receipts -/

abbrev Index := UInt64

/-- Data record produced during the execution of a transaction. -/
structure Log where
  address : Address
  topics : List H256
  data : Bytes
  deriving DecidableEq

instance : RLPEncode Log where
  encode self := (((Encoder.new.encodeField self.address).encodeField self.topics).encodeField
    self.data).finish

instance : RLPDecode Log where
  typeName := "ethereum_rust_core::types::receipt::Log"
  decodeUnfinished rlp := do
    let decoder ← Decoder.new rlp
    let (address, decoder) ← decoder.decodeField Address "address"
    let (topics, decoder) ← decoder.decodeField (List H256) "topics"
    let (data, decoder) ← decoder.decodeField Bytes "data"
    let rest ← decoder.finish
    pure (⟨address, topics, data⟩, rest)

/-- `Bloom::accrue` of the crate `ethbloom` -/
class EthBloom where
  accrue : Bloom → ByteString → Bloom

def bloomFromLogs [EthBloom] (logs : List Log) : Bloom :=
  logs.foldl (fun bloom log =>
    log.topics.foldl (fun bloom topic => EthBloom.accrue bloom topic.1)
      (EthBloom.accrue bloom log.address.1)) Bloom.zero

/-- Result of a transaction. -/
structure Receipt where
  txType : TxType
  succeeded : Bool
  cumulativeGasUsed : UInt64
  bloom : Bloom
  logs : List Log
  deriving DecidableEq

def Receipt.new [EthBloom] (txType : TxType) (succeeded : Bool) (cumulativeGasUsed : UInt64)
    (logs : List Log) : Receipt :=
  ⟨txType, succeeded, cumulativeGasUsed, bloomFromLogs logs, logs⟩

instance : RLPEncode Receipt where
  encode self :=
    (match self.txType with
      | .legacy => []
      | txType => [txType.toU8]) ++
    ((((Encoder.new.encodeField self.succeeded).encodeField self.cumulativeGasUsed).encodeField
      self.bloom).encodeField self.logs).finish

def decodeReceiptType (rlp : ByteString) : Decode (TxType × ByteString) :=
  match rlp with
  | txType :: rest =>
    if txType < 0x7f then
      if txType = 0x0 then .ok (.legacy, rest)
      else if txType = 0x1 then .ok (.eip2930, rest)
      else if txType = 0x2 then .ok (.eip1559, rest)
      else if txType = 0x3 then .ok (.eip4844, rest)
      else Decode.fail (.custom ("Invalid transaction type: " ++ toString txType.toNat))
    else .ok (.legacy, rlp)
  | [] => .ok (.legacy, rlp)

instance : RLPDecode Receipt where
  typeName := "ethereum_rust_core::types::receipt::Receipt"
  decodeUnfinished rlp := do
    let (txType, rlp) ← decodeReceiptType rlp
    let decoder ← Decoder.new rlp
    let (succeeded, decoder) ← decoder.decodeField Bool "succeeded"
    let (cumulativeGasUsed, decoder) ← decoder.decodeField UInt64 "cumulative_gas_used"
    let (bloom, decoder) ← decoder.decodeField Bloom "bloom"
    let (logs, decoder) ← decoder.decodeField (List Log) "logs"
    let rest ← decoder.finish
    pure (⟨txType, succeeded, cumulativeGasUsed, bloom, logs⟩, rest)

/-! ## Roots -/

section

variable {ε : Type} [Keccak256]

def indexedRoot (values : List ByteString) : Outcome ε H256 :=
  Rust.unwrap (Trie.computeHashFromUnsortedIter
    (values.zipIdx.map fun (value, idx) => (encodeUint 8 idx, value)))

def computeTransactionsRoot (transactions : List Transaction) : Outcome ε H256 :=
  indexedRoot (transactions.map Transaction.encodeCanonicalToVec)

def computeReceiptsRoot (receipts : List Receipt) : Outcome ε H256 :=
  indexedRoot (receipts.map encode)

def computeWithdrawalsRoot (withdrawals : List Withdrawal) : Outcome ε H256 :=
  indexedRoot (withdrawals.map encode)

end

/-! ## Header validation -/

section

variable {ε : Type}

def checkGasLimit (gasLimit parentGasLimit : UInt64) : Outcome ε Bool := do
  let maxAdjustmentDelta := parentGasLimit / GAS_LIMIT_ADJUSTMENT_FACTOR
  let above ← Rust.u64Add parentGasLimit maxAdjustmentDelta
  if gasLimit < above then
    let below ← Rust.u64Sub parentGasLimit maxAdjustmentDelta
    pure (gasLimit > below && gasLimit ≥ GAS_LIMIT_MINIMUM)
  else pure false

def targetFeeGasDelta (parentBaseFeePerGas gasUsedDelta parentGasTarget : UInt64) :
    Outcome ε UInt64 := do
  let parentFeeGasDelta ← Rust.u64Mul parentBaseFeePerGas gasUsedDelta
  if parentGasTarget = 0 then Outcome.panic "attempt to divide by zero"
  else pure (parentFeeGasDelta / parentGasTarget)

def calculateBaseFeePerGas (blockGasLimit parentGasLimit parentGasUsed parentBaseFeePerGas : UInt64) :
    Outcome ε (Option UInt64) := do
  let fits ← checkGasLimit blockGasLimit parentGasLimit
  if !fits then pure none
  else
    let parentGasTarget := parentGasLimit / ELASTICITY_MULTIPLIER
    if parentGasUsed = parentGasTarget then pure (some parentBaseFeePerGas)
    else if parentGasUsed > parentGasTarget then
      let delta ← targetFeeGasDelta parentBaseFeePerGas (parentGasUsed - parentGasTarget) parentGasTarget
      let baseFee ← Rust.u64Add parentBaseFeePerGas (max (delta / BASE_FEE_MAX_CHANGE_DENOMINATOR) 1)
      pure (some baseFee)
    else
      let delta ← targetFeeGasDelta parentBaseFeePerGas (parentGasTarget - parentGasUsed) parentGasTarget
      let baseFee ← Rust.u64Sub parentBaseFeePerGas (delta / BASE_FEE_MAX_CHANGE_DENOMINATOR)
      pure (some baseFee)

/-- The fields of a header that are compared with its parent's, after the base fee. -/
def fieldsFollow [Keccak256] (header parentHeader : BlockHeader) (expectedBaseFeePerGas : UInt64) :
    Outcome ε Bool := do
  if expectedBaseFeePerGas = header.baseFeePerGas.getD INITIAL_BASE_FEE
      ∧ header.timestamp > parentHeader.timestamp then
    let next ← Rust.u64Add parentHeader.number 1
    pure (header.number = next && header.extraData.data.length ≤ 32 && header.difficulty = 0 &&
      header.nonce = 0 && header.ommersHash = DEFAULT_OMMERS_HASH &&
      header.parentHash = parentHeader.computeBlockHash)
  else pure false

def validateBlockHeader [Keccak256] (header parentHeader : BlockHeader) : Outcome ε Bool := do
  if header.gasUsed > header.gasLimit then pure false
  else
    let baseFee ← calculateBaseFeePerGas header.gasLimit parentHeader.gasLimit parentHeader.gasUsed
      (parentHeader.baseFeePerGas.getD INITIAL_BASE_FEE)
    match baseFee with
    | some expectedBaseFeePerGas => fieldsFollow header parentHeader expectedBaseFeePerGas
    | none => pure false

def calcExcessBlobGas (parentHeader : BlockHeader) : Outcome ε UInt64 := do
  let parentBlobGas ← Rust.u64Add (parentHeader.excessBlobGas.getD 0) (parentHeader.blobGasUsed.getD 0)
  if parentBlobGas < 393216 then pure 0 else pure (parentBlobGas - 393216)

/-- The loop of `fake_exponential`: the terms of the sum from the `i`-th on. -/
def fakeExponentialFrom (numerator denominator : UInt64) : Nat → (i output numeratorAccum : UInt64) →
    Outcome ε UInt64
  | 0, _, _, _ => .error .diverged
  | fuel + 1, i, output, numeratorAccum => do
    if numeratorAccum > 0 then
      let output ← Rust.u64Add output numeratorAccum
      let product ← Rust.u64Mul numeratorAccum numerator
      let divisor ← Rust.u64Mul denominator i
      let next ← Rust.u64Add i 1
      fakeExponentialFrom numerator denominator fuel next output (product / divisor)
    else pure (output / denominator)

def fakeExponential (factor numerator denominator : UInt64) : Outcome ε UInt64 := do
  let numeratorAccum ← Rust.u64Mul factor denominator
  fakeExponentialFrom numerator denominator Rust.wordSize 1 0 numeratorAccum

/-- The base fee per blob gas of a block, from its parent's excess blob gas. -/
def calculateBaseFeePerBlobGas (parentHeader : BlockHeader) : Outcome ε UInt64 :=
  fakeExponential MIN_BASE_FEE_PER_BLOB_GAS (parentHeader.excessBlobGas.getD 0)
    BLOB_BASE_FEE_UPDATE_FRACTION

def validateCancunHeaderFields (header parentHeader : BlockHeader) : Outcome ε Bool :=
  match header.excessBlobGas, header.blobGasUsed with
  | some excessBlobGas, some _ => do
    let expected ← calcExcessBlobGas parentHeader
    pure (excessBlobGas = expected && header.parentBeaconBlockRoot.isSome)
  | _, _ => .ok false

def validateNoCancunHeaderFields (header : BlockHeader) : Bool :=
  header.excessBlobGas.isNone && header.blobGasUsed.isNone

end
end EthereumRust.Core
