import EthereumRust.Engine.Payload

/-! # Fork choice updates: `crates/rpc/engine/fork_choice.rs`, `crates/rpc/types/fork_choice.rs` -/

namespace EthereumRust.Engine
open Rlp Mpt Core Storage Evm Blockchain

structure ForkChoiceState where
  headBlockHash : H256
  safeBlockHash : H256
  finalizedBlockHash : H256

structure PayloadAttributesV3 where
  timestamp : UInt64
  prevRandao : H256
  suggestedFeeRecipient : Address
  withdrawals : List Withdrawal
  parentBeaconBlockRoot : H256

structure ForkChoiceResponse where
  payloadStatus : PayloadStatus
  payloadId : Option UInt64
  deriving DecidableEq

/-- An update that is ignored is answered with a bare status. -/
inductive ForkChoiceAnswer where
  | response (response : ForkChoiceResponse)
  | ignored (status : PayloadStatus)
  deriving DecidableEq

def ForkChoiceAnswer.status : ForkChoiceAnswer → PayloadStatus
  | response r => r.payloadStatus
  | ignored status => status

structure ForkChoiceUpdatedV3 where
  forkChoiceState : ForkChoiceState
  payloadAttributes : Option PayloadAttributesV3

/-! ## The checks of the handler -/

def totalDifficultyCheck {ε : Type} (headBlockHash : H256) (headBlock : BlockHeader)
    (storage : Store) : Outcome ε (Option String) :=
  if headBlock.difficulty ≠ 0 ∨ headBlock.number = 0 then do
    let totalDifficulty := storage.getBlockTotalDifficulty headBlockHash
    let parentTotalDifficulty := storage.getBlockTotalDifficulty headBlock.parentHash
    let chainConfig ← storage.getChainConfig
    match chainConfig.terminalTotalDifficulty, totalDifficulty with
    | some terminalTotalDifficulty, some totalDifficulty =>
      if headBlock.number > 0 ∧ parentTotalDifficulty.isNone then
        pure (some "total difficulties unavailable for terminal total difficulty check")
      else if totalDifficulty.toNat < terminalTotalDifficulty.toNat then
        pure (some "refusing beacon update to pre-merge")
      else if headBlock.number > 0 then
        -- the parent's total difficulty is compared with zero, which it always reaches
        pure (some "parent block is already post terminal total difficulty")
      else pure none
    | _, _ => pure (some "total difficulties unavailable for terminal total difficulty check")
  else .ok none

def setMarkedBlock (kind : String) (update : Store → BlockNumber → Store) (blockHash : H256) :
    Handler Unit := do
  if blockHash = H256.zero then pure ()
  else
    let storage ← Exec.get
    match storage.getBlockByHash blockHash with
    | none => Exec.fail (.invalidForkChoiceState (kind ++ " block not available in database"))
    | some block =>
      if storage.getCanonicalBlockHash block.header.number ≠ some blockHash then
        Exec.fail (.invalidForkChoiceState (kind ++ " block not in canonical chain"))
      else Exec.modify fun storage => update storage block.header.number

def setFinalizedBlock (finalizedBlockHash : H256) : Handler Unit :=
  setMarkedBlock "final" Store.updateFinalizedBlockNumber finalizedBlockHash

def setSafeBlock (safeBlockHash : H256) : Handler Unit :=
  setMarkedBlock "safe" Store.updateSafeBlockNumber safeBlockHash

/-! ## The handler -/

namespace ForkChoiceUpdatedV3

def errorResponse (error : String) : ForkChoiceAnswer :=
  .response ⟨PayloadStatus.invalidWithErr error, none⟩

/-- What an update does to the chain: it is ignored, or it goes on, after the head's entry was
rewritten or with the canonical chain as it is. -/
inductive HeadChange where
  | ignore
  | setCanonical
  | keep
  deriving DecidableEq, Repr

/-- The canonical entry of the head's number decides. A head that the entry does not name takes
the entry over if its parent is canonical. A head without another entry is taken to be in the
canonical chain already, unless it is the current one. -/
def headChange (self : ForkChoiceUpdatedV3) (storage : Store) (headBlock : BlockHeader)
    (currentBlockNumber : BlockNumber) : HeadChange :=
  let head := self.forkChoiceState.headBlockHash
  if (storage.getCanonicalBlockHash headBlock.number).any (· ≠ head) then
    if storage.getCanonicalBlockHash (Rust.saturatingSub headBlock.number 1) =
        some headBlock.parentHash then .setCanonical
    else .keep
  else if (storage.getCanonicalBlockHash currentBlockNumber).any (· ≠ head) then .ignore
  else .keep

section

variable [Keccak256] [Revm]

def buildArgs (head : H256) (attributes : PayloadAttributesV3) : BuildPayloadArgs where
  parent := head
  timestamp := attributes.timestamp
  feeRecipient := attributes.suggestedFeeRecipient
  random := attributes.prevRandao
  withdrawals := attributes.withdrawals
  beaconRoot := some attributes.parentBeaconBlockRoot
  version := 3

def buildError : ChainError → RpcErr
  | .evmError _ => .vm
  | _ => .internal

def startPayload (self : ForkChoiceUpdatedV3) : Handler (Option UInt64) :=
  match self.payloadAttributes with
  | none => pure none
  | some attributes => do
    let args := buildArgs self.forkChoiceState.headBlockHash attributes
    let payload ← Exec.mapErr buildError (buildPayload args)
    Exec.modify fun storage => storage.addPayload args.id payload
    pure (some args.id)

/-- Sets the finalized and safe blocks, and starts the payload. -/
def updateMarkers (self : ForkChoiceUpdatedV3) : Handler ForkChoiceAnswer := do
  setFinalizedBlock self.forkChoiceState.finalizedBlockHash
  setSafeBlock self.forkChoiceState.safeBlockHash
  let payloadId ← startPayload self
  pure (.response ⟨PayloadStatus.validWithHash self.forkChoiceState.headBlockHash, payloadId⟩)

def updateHead (self : ForkChoiceUpdatedV3) (headBlock : BlockHeader) : Handler ForkChoiceAnswer := do
  let storage ← Exec.get
  match storage.getLatestBlockNumber with
  | none => Exec.fail .internal
  | some currentBlockNumber =>
    match self.headChange storage headBlock currentBlockNumber with
    | .ignore => pure (.ignored PayloadStatus.valid)
    | .setCanonical =>
      Exec.modify fun storage =>
        storage.setCanonicalBlock headBlock.number self.forkChoiceState.headBlockHash
      self.updateMarkers
    | .keep => self.updateMarkers

def handle (self : ForkChoiceUpdatedV3) : Handler ForkChoiceAnswer := do
  let head := self.forkChoiceState.headBlockHash
  if head = H256.zero then pure (errorResponse "forkchoice requested update to zero hash")
  else
    let storage ← Exec.get
    match storage.getBlockHeaderByHash head with
    | none => Exec.fail .internal
    | some headBlock =>
      let refusal ← Exec.reads fun storage => totalDifficultyCheck head headBlock storage
      match refusal with
      | some error => pure (errorResponse error)
      | none => self.updateHead headBlock

end
end ForkChoiceUpdatedV3
end EthereumRust.Engine
