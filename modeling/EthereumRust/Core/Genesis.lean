import EthereumRust.Core.Block

/-! # Accounts and the genesis block: `crates/core/types/{account,genesis}.rs`

A `HashMap` is visited in the order of its entries. -/

namespace EthereumRust.Core
open Rlp Mpt

/-! ## Accounts -/

def EMPTY_KECCACK_HASH : H256 :=
  H256.ofNat 0xc5d2460186f7233c927e7db2dcc703c0e500b653ca82273b7bfad8045d85a470

structure AccountInfo where
  codeHash : H256
  balance : U256
  nonce : UInt64
  deriving DecidableEq

structure AccountState where
  nonce : UInt64
  balance : U256
  storageRoot : H256
  codeHash : H256
  deriving DecidableEq

def AccountState.new [Keccak256] : AccountState := ⟨0, 0, EMPTY_TRIE_HASH, EMPTY_KECCACK_HASH⟩

instance : RLPEncode AccountState where
  encode self := ((((Encoder.new.encodeField self.nonce).encodeField self.balance).encodeField
    self.storageRoot).encodeField self.codeHash).finish

instance : RLPDecode AccountState where
  typeName := "ethereum_rust_core::types::account::AccountState"
  decodeUnfinished rlp := do
    let decoder ← Decoder.new rlp
    let (nonce, decoder) ← decoder.decodeField UInt64 "nonce"
    let (balance, decoder) ← decoder.decodeField U256 "balance"
    let (storageRoot, decoder) ← decoder.decodeField H256 "storage_root"
    let (codeHash, decoder) ← decoder.decodeField H256 "code_hash"
    let rest ← decoder.finish
    pure (⟨nonce, balance, storageRoot, codeHash⟩, rest)

structure GenesisAccount where
  code : Bytes
  storage : HashMap H256 U256
  balance : U256
  nonce : UInt64

def codeHash [Keccak256] (code : Bytes) : H256 := digest code.data

/-- The entries of a map, in the order it is visited. -/
def entriesOf {K V : Type} (m : HashMap K V) : List (K × V) := m.entries.map fun e => (e.1, e.2)

def computeStorageRoot {ε : Type} [Keccak256] (storage : HashMap H256 U256) : Outcome ε H256 :=
  Rust.unwrap (Trie.computeHashFromUnsortedIter
    (((entriesOf storage).filter fun (_, v) => v ≠ 0).map fun (k, v) => ((digest k.1).1, encode v)))

def AccountState.ofGenesis {ε : Type} [Keccak256] (value : GenesisAccount) : Outcome ε AccountState := do
  let storageRoot ← computeStorageRoot value.storage
  pure ⟨value.nonce, value.balance, storageRoot, Core.codeHash value.code⟩

/-! ## Chain configuration -/

abbrev U128 := BitVec 128

/-- Blockchain settings; `none` means that the fork never happens. -/
structure ChainConfig where
  chainId : UInt64
  homesteadBlock : Option UInt64 := none
  daoForkBlock : Option UInt64 := none
  daoForkSupport : Bool := false
  eip150Block : Option UInt64 := none
  eip155Block : Option UInt64 := none
  eip158Block : Option UInt64 := none
  byzantiumBlock : Option UInt64 := none
  constantinopleBlock : Option UInt64 := none
  petersburgBlock : Option UInt64 := none
  istanbulBlock : Option UInt64 := none
  muirGlacierBlock : Option UInt64 := none
  berlinBlock : Option UInt64 := none
  londonBlock : Option UInt64 := none
  arrowGlacierBlock : Option UInt64 := none
  grayGlacierBlock : Option UInt64 := none
  mergeNetsplitBlock : Option UInt64 := none
  shanghaiTime : Option UInt64 := none
  cancunTime : Option UInt64 := none
  pragueTime : Option UInt64 := none
  verkleTime : Option UInt64 := none
  terminalTotalDifficulty : Option U128 := none
  terminalTotalDifficultyPassed : Bool := false
  deriving DecidableEq

inductive Fork where
  | paris
  | shanghai
  | cancun
  deriving DecidableEq, Repr

/-- The derived `PartialOrd`: by place in the declaration. -/
instance : LT Fork := ⟨fun a b => a.ctorIdx < b.ctorIdx⟩

instance (a b : Fork) : Decidable (a < b) := inferInstanceAs (Decidable (a.ctorIdx < b.ctorIdx))

namespace ChainConfig

def isShanghaiActivated (self : ChainConfig) (blockTimestamp : UInt64) : Bool :=
  self.shanghaiTime.any (· ≤ blockTimestamp)

def isCancunActivated (self : ChainConfig) (blockTimestamp : UInt64) : Bool :=
  self.cancunTime.any (· ≤ blockTimestamp)

def getFork (self : ChainConfig) (blockTimestamp : UInt64) : Fork :=
  if self.isCancunActivated blockTimestamp then .cancun
  else if self.isShanghaiActivated blockTimestamp then .shanghai
  else .paris

def gatherForks (self : ChainConfig) : List (Option UInt64) × List (Option UInt64) :=
  ([self.homesteadBlock, if self.daoForkSupport then self.daoForkBlock else none, self.eip150Block, self.eip155Block,
    self.eip158Block, self.byzantiumBlock, self.constantinopleBlock, self.petersburgBlock, self.istanbulBlock,
    self.muirGlacierBlock, self.berlinBlock, self.londonBlock, self.arrowGlacierBlock, self.grayGlacierBlock,
    self.mergeNetsplitBlock],
  [self.shanghaiTime, self.cancunTime, self.pragueTime, self.verkleTime])

end ChainConfig

/-! ## Genesis -/

structure Genesis where
  config : ChainConfig
  alloc : HashMap Address GenesisAccount
  coinbase : Address
  difficulty : U256
  extraData : Bytes
  gasLimit : UInt64
  nonce : UInt64
  mixHash : H256
  timestamp : UInt64
  baseFeePerGas : Option UInt64
  blobGasUsed : Option UInt64
  excessBlobGas : Option UInt64

namespace Genesis

variable {ε : Type} [Keccak256]

def stateEntries : List (Address × GenesisAccount) → Outcome ε (List (ByteString × ByteString))
  | [] => .ok []
  | (addr, account) :: rest => do
    let state ← AccountState.ofGenesis account
    let entries ← stateEntries rest
    pure (((digest addr.1).1, encode state) :: entries)

def computeStateRoot (self : Genesis) : Outcome ε H256 := do
  let entries ← stateEntries (entriesOf self.alloc)
  Rust.unwrap (Trie.computeHashFromUnsortedIter entries)

def getBlockHeader (self : Genesis) : Outcome ε BlockHeader := do
  let cancun := self.config.isCancunActivated self.timestamp
  let stateRoot ← self.computeStateRoot
  let transactionsRoot ← computeTransactionsRoot []
  let receiptsRoot ← computeReceiptsRoot []
  let withdrawalsRoot ← computeWithdrawalsRoot []
  pure {
    parentHash := H256.zero
    ommersHash := DEFAULT_OMMERS_HASH
    coinbase := self.coinbase
    stateRoot
    transactionsRoot
    receiptsRoot
    logsBloom := Bloom.zero
    difficulty := self.difficulty
    number := 0
    gasLimit := self.gasLimit
    gasUsed := 0
    timestamp := self.timestamp
    extraData := self.extraData
    prevRandao := self.mixHash
    nonce := self.nonce
    baseFeePerGas := self.baseFeePerGas.or (some INITIAL_BASE_FEE)
    withdrawalsRoot :=
      if self.config.isShanghaiActivated self.timestamp then some withdrawalsRoot else none
    blobGasUsed := if cancun then some (self.blobGasUsed.getD 0) else none
    excessBlobGas := if cancun then some (self.excessBlobGas.getD 0) else none
    parentBeaconBlockRoot := if cancun then some H256.zero else none }

def getBlockBody : BlockBody := ⟨[], [], some []⟩

def getBlock (self : Genesis) : Outcome ε Block := do
  let header ← self.getBlockHeader
  pure ⟨header, getBlockBody⟩

end Genesis
end EthereumRust.Core
