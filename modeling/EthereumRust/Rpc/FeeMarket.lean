import EthereumRust.Core.Fees
import EthereumRust.Rpc.Params
import Mathlib.Data.List.Sort

/-! # The fee history: `crates/rpc/eth/fee_market.rs`

`eth_feeHistory` from its parameters on. The answer is given before it becomes JSON. -/

namespace EthereumRust.Rpc
open Rlp Core Storage Blockchain Engine

structure FeeHistoryRequest where
  blockCount : UInt64
  newestBlock : BlockIdentifier
  rewardPercentiles : Option (List F32)
  deriving DecidableEq

structure FeeHistoryResponse where
  oldestBlock : String
  baseFeePerGas : List String
  baseFeePerBlobGas : List String
  gasUsedRatio : List F64
  blobGasUsedRatio : List F64
  reward : List (List String)
  deriving DecidableEq

def FeeHistoryResponse.default : FeeHistoryResponse := ⟨"", [], [], [], [], []⟩

/-- What the loop of `handle` adds for a block. -/
structure BlockFees where
  baseFeePerGas : UInt64
  baseFeePerBlobGas : UInt64
  gasUsedRatio : F64
  blobGasUsedRatio : F64
  reward : Option (List UInt64)

/-! ## Rewards -/

def effectivePriorityFee (baseFeePerGas : UInt64) : Transaction → UInt64
  | .legacyTransaction _ | .eip2930Transaction _ => 0
  | .eip1559Transaction t => min t.maxPriorityFeePerGas (Rust.saturatingSub t.maxFeePerGas baseFeePerGas)
  | .eip4844Transaction t => min t.maxPriorityFeePerGas (Rust.saturatingSub t.maxFeePerGas baseFeePerGas)

def effectivePriorityFees (block : Block) : List UInt64 :=
  (block.body.transactions.map (effectivePriorityFee (block.header.baseFeePerGas.getD 0))).insertionSort (· ≤ ·)

/-- The place of a percentile among the fees. -/
def percentileIndex (count : Nat) (x : F32) : Nat := ((x.mul (.ofNat count)).div (.ofNat 100)).toUsize

def calculatePercentilesForBlock (block : Block) (percentiles : List F32) : List UInt64 :=
  let fees := effectivePriorityFees block
  percentiles.map fun x => (fees[percentileIndex fees.length x]?).getD 0

/-! ## The request -/

def f32FromValue : Value → Option F32
  | .number (.posInt n) => some (.ofNat n.toNat)
  | .number (.negInt n) => some (.ofRat n.toInt)
  | .number (.float x) => some x.convert
  | _ => none

def f32sFromValue : Value → Option (List F32)
  | .array values => values.mapM f32FromValue
  | _ => none

/-- The check of the percentiles, on every two neighbours. -/
def percentilesOk : List F32 → Bool
  | x :: y :: rest => (x.le y || (Flt.ofNat 0).le x && x.le (.ofNat 100)) && percentilesOk (y :: rest)
  | _ => true

namespace FeeHistoryRequest

def parsePercentiles : Option Value → Outcome RpcErr (Option (List F32))
  | none => .ok none
  | some rp =>
    match f32sFromValue rp with
    | none => .error (.error .badParams)
    | some rp => if percentilesOk rp then .ok (some rp) else .error (.error .badParams)

def parseBlockCount : Value → Outcome RpcErr UInt64
  | .string blockCountStr =>
    match hexDigits blockCountStr with
    | none => .error (.error .badParams)
    | some digits =>
      match fromStrRadix digits with
      | none => .error (.error .badParams)
      | some blockCount => .ok blockCount
  | _ => .error (.error .badParams)

/-- The newest block is read from the first parameter, as the count is. -/
def parse : Option (List Value) → Outcome RpcErr FeeHistoryRequest
  | some (count :: _ :: rest) =>
    if 1 < rest.length then .error (.error .badParams)
    else do
      let rewardPercentiles ← parsePercentiles rest.head?
      let blockCount ← parseBlockCount count
      let newestBlock ← BlockIdentifier.parse count 0
      pure ⟨blockCount, newestBlock, rewardPercentiles⟩
  | _ => .error (.error .badParams)

def getRange (storage : Store) (blockNum : UInt64) (finishBlock : BlockIdentifier) :
    Outcome RpcErr (UInt64 × UInt64) :=
  match storage.getEarliestBlockNumber, storage.getLatestBlockNumber, finishBlock.resolveBlockNumber storage with
  | some earliestBlockNum, some latestBlockNum, some finishBlock => do
    -- the finish block has to be included in the range
    let finishBlock ← Rust.u64Add finishBlock 1
    let finishBlock := min finishBlock latestBlockNum
    let startBlock := max earliestBlockNum (Rust.saturatingSub finishBlock blockNum)
    pure (startBlock, finishBlock)
  | _, _, _ => .error (.error .internal)

def gasUsedRatio (header : BlockHeader) : F64 := (Flt.ofNat header.gasUsed.toNat).div (.ofNat header.gasLimit.toNat)

def blobGasUsedRatio (header : BlockHeader) : F64 :=
  (Flt.ofNat (header.blobGasUsed.getD 0).toNat).div (.ofNat MAX_BLOB_GAS_PER_BLOCK.toNat)

def blockFees (self : FeeHistoryRequest) (storage : Store) (blockNumber : BlockNumber) : Outcome RpcErr BlockFees :=
  match storage.getBlockHeader blockNumber, storage.getBlockBody blockNumber with
  | some header, some body => do
    let blobBaseFee ← calculateBaseFeePerBlobGas header
    pure {
      baseFeePerGas := header.baseFeePerGas.getD 0
      baseFeePerBlobGas := blobBaseFee
      gasUsedRatio := gasUsedRatio header
      blobGasUsedRatio := blobGasUsedRatio header
      reward := self.rewardPercentiles.map (calculatePercentilesForBlock ⟨header, body⟩) }
  | _, _ => .error (.error .internal)

def blockFeesFrom (self : FeeHistoryRequest) (storage : Store) : Nat → BlockNumber → Outcome RpcErr (List BlockFees)
  | 0, _ => .ok []
  | blockCount + 1, blockNumber => do
    let fees ← self.blockFees storage blockNumber
    let rest ← self.blockFeesFrom storage blockCount (blockNumber + 1)
    pure (fees :: rest)

def handle (self : FeeHistoryRequest) (storage : Store) : Outcome RpcErr FeeHistoryResponse :=
  if self.blockCount = 0 then .ok .default
  else do
    let (startBlock, endBlock) ← getRange storage self.blockCount self.newestBlock
    let blockCount ← Rust.u64Sub endBlock startBlock
    let fees ← self.blockFeesFrom storage blockCount.toNat startBlock
    -- the base fees of the last block are given as those of the next one
    match storage.getBlockHeader endBlock with
    | none => .error (.error .internal)
    | some header => do
      let blobBaseFee ← calculateBaseFeePerBlobGas header
      pure {
        oldestBlock := u64ToHexStr startBlock
        baseFeePerGas := (fees.map BlockFees.baseFeePerGas ++ [header.baseFeePerGas.getD 0]).map u64ToHexStr
        baseFeePerBlobGas := (fees.map BlockFees.baseFeePerBlobGas ++ [blobBaseFee]).map u64ToHexStr
        gasUsedRatio := fees.map BlockFees.gasUsedRatio
        blobGasUsedRatio := fees.map BlockFees.blobGasUsedRatio
        reward := (fees.filterMap BlockFees.reward).map (List.map u64ToHexStr) }

end FeeHistoryRequest
end EthereumRust.Rpc
