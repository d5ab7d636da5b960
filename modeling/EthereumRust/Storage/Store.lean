import EthereumRust.Core.Genesis

/-! # The store: `crates/storage/storage.rs` over `engines/in_memory.rs`

The maps of the in-memory engine as one record, and the calls of `Store` over it. A trie
is opened on a node table and writes to it when it is hashed: the table is put back then.
The transaction pool and the proofs are left out. -/

namespace EthereumRust.Storage
open Rlp Mpt Core

inductive StoreError where
  | decodeError
  | custom (message : String)
  | rlpDecode (e : RLPDecodeError)
  | trie (e : TrieError)
  deriving DecidableEq, Repr

def StoreError.toString : StoreError → String
  | decodeError => "DecodeError"
  | custom message => message
  | rlpDecode e => e.toString
  | trie (.libmdbxError message) => "Libmdbx error: " ++ message
  | trie (.rlpDecode e) => e.toString

abbrev NodeMap := InMemoryTrieDB

structure ChainData where
  chainConfig : Option ChainConfig
  earliestBlockNumber : Option BlockNumber
  finalizedBlockNumber : Option BlockNumber
  safeBlockNumber : Option BlockNumber
  latestBlockNumber : Option BlockNumber
  latestTotalDifficulty : Option U256
  pendingBlockNumber : Option BlockNumber

/-- `encodings` collects the records of the tries that were opened on the node tables. -/
structure Store where
  chainData : ChainData
  blockNumbers : HashMap BlockHash BlockNumber
  canonicalHashes : HashMap BlockNumber BlockHash
  bodies : HashMap BlockHash BlockBody
  headers : HashMap BlockHash BlockHeader
  accountCodes : HashMap H256 Bytes
  transactionLocations : HashMap H256 (List (BlockNumber × BlockHash × Index))
  receipts : HashMap BlockHash (HashMap Index Receipt)
  stateTrieNodes : NodeMap
  storageTrieNodes : HashMap Address NodeMap
  blockTotalDifficulties : HashMap BlockHash U256
  payloads : HashMap UInt64 Block
  encodings : List ByteString

/-- Changes to an account that a block makes. -/
structure AccountUpdate where
  address : Address
  removed : Bool
  info : Option AccountInfo
  code : Option Bytes
  addedStorage : HashMap H256 U256

def AccountUpdate.new (address : Address) : AccountUpdate := ⟨address, false, none, none, ∅⟩

/-- `AccountUpdate::removed`: an account removal. -/
def AccountUpdate.removal (address : Address) : AccountUpdate := ⟨address, true, none, none, ∅⟩

section

variable [Keccak256]

def hashAddress (address : Address) : ByteString := (digest address.1).1

def hashKey (key : H256) : ByteString := (digest key.1).1

end

namespace Store

def new : Store where
  chainData := ⟨none, none, none, none, none, none, none⟩
  blockNumbers := ∅
  canonicalHashes := ∅
  bodies := ∅
  headers := ∅
  accountCodes := ∅
  transactionLocations := ∅
  receipts := ∅
  stateTrieNodes := ⟨∅⟩
  storageTrieNodes := ∅
  blockTotalDifficulties := ∅
  payloads := ∅
  encodings := []

/-! ## Blocks and chain data -/

def getCanonicalBlockHash (self : Store) (blockNumber : BlockNumber) : Option BlockHash :=
  self.canonicalHashes.lookup blockNumber

def getBlockHeaderByHash (self : Store) (blockHash : BlockHash) : Option BlockHeader :=
  self.headers.lookup blockHash

def getBlockHeader (self : Store) (blockNumber : BlockNumber) : Option BlockHeader := do
  let hash ← self.getCanonicalBlockHash blockNumber
  self.getBlockHeaderByHash hash

def getBlockBodyByHash (self : Store) (blockHash : BlockHash) : Option BlockBody :=
  self.bodies.lookup blockHash

def getBlockBody (self : Store) (blockNumber : BlockNumber) : Option BlockBody := do
  let hash ← self.getCanonicalBlockHash blockNumber
  self.getBlockBodyByHash hash

def getBlockByHash (self : Store) (blockHash : BlockHash) : Option Block := do
  let header ← self.getBlockHeaderByHash blockHash
  let body ← self.getBlockBodyByHash blockHash
  some ⟨header, body⟩

def getBlockNumber (self : Store) (blockHash : BlockHash) : Option BlockNumber :=
  self.blockNumbers.lookup blockHash

def getBlockTotalDifficulty (self : Store) (blockHash : BlockHash) : Option U256 :=
  self.blockTotalDifficulties.lookup blockHash

def getLatestBlockNumber (self : Store) : Option BlockNumber := self.chainData.latestBlockNumber

def getFinalizedBlockNumber (self : Store) : Option BlockNumber := self.chainData.finalizedBlockNumber

def getSafeBlockNumber (self : Store) : Option BlockNumber := self.chainData.safeBlockNumber

def getEarliestBlockNumber (self : Store) : Option BlockNumber := self.chainData.earliestBlockNumber

def getPendingBlockNumber (self : Store) : Option BlockNumber := self.chainData.pendingBlockNumber

def getPayload (self : Store) (payloadId : UInt64) : Option Block := self.payloads.lookup payloadId

def getReceipt (self : Store) (blockNumber : BlockNumber) (index : Index) : Option Receipt := do
  let hash ← self.getCanonicalBlockHash blockNumber
  let entry ← self.receipts.lookup hash
  entry.lookup index

/-- The location of a transaction in the canonical chain: the first of its locations whose block
is canonical. -/
def getTransactionLocation (self : Store) (transactionHash : H256) :
    Option (BlockNumber × BlockHash × Index) := do
  let locations ← self.transactionLocations.lookup transactionHash
  locations.find? fun (number, hash, _) => self.canonicalHashes.lookup number = some hash

def getTransactionByLocation (self : Store) (blockHash : BlockHash) (index : Index) :
    Option Transaction := do
  let blockBody ← self.getBlockBodyByHash blockHash
  blockBody.transactions[index.toNat]?

def getTransactionByHash (self : Store) (transactionHash : H256) : Option Transaction := do
  let (_, blockHash, index) ← self.getTransactionLocation transactionHash
  self.getTransactionByLocation blockHash index

/-- A store whose genesis was not stored has no configuration. -/
def getChainConfig {ε : Type} (self : Store) : Outcome ε ChainConfig :=
  Rust.expect self.chainData.chainConfig "called `Option::unwrap()` on a `None` value"

def addBlockHeader (self : Store) (blockHash : BlockHash) (header : BlockHeader) : Store :=
  { self with headers := self.headers.insert blockHash header }

def addBlockBody (self : Store) (blockHash : BlockHash) (body : BlockBody) : Store :=
  { self with bodies := self.bodies.insert blockHash body }

def addBlockNumber (self : Store) (blockHash : BlockHash) (number : BlockNumber) : Store :=
  { self with blockNumbers := self.blockNumbers.insert blockHash number }

def addBlockTotalDifficulty (self : Store) (blockHash : BlockHash) (difficulty : U256) : Store :=
  { self with blockTotalDifficulties := self.blockTotalDifficulties.insert blockHash difficulty }

def addTransactionLocation (self : Store) (transactionHash : H256) (number : BlockNumber)
    (blockHash : BlockHash) (index : Index) : Store :=
  let locations := (self.transactionLocations.lookup transactionHash).getD []
  { self with transactionLocations :=
      self.transactionLocations.insert transactionHash (locations ++ [(number, blockHash, index)]) }

def addReceipt (self : Store) (blockHash : BlockHash) (index : Index) (receipt : Receipt) : Store :=
  let entry := (self.receipts.lookup blockHash).getD ∅
  { self with receipts := self.receipts.insert blockHash (entry.insert index receipt) }

def addPayload (self : Store) (payloadId : UInt64) (block : Block) : Store :=
  { self with payloads := self.payloads.insert payloadId block }

def setCanonicalBlock (self : Store) (number : BlockNumber) (hash : BlockHash) : Store :=
  { self with canonicalHashes := self.canonicalHashes.insert number hash }

def setChainConfig (self : Store) (config : ChainConfig) : Store :=
  { self with chainData := { self.chainData with chainConfig := some config } }

def updateEarliestBlockNumber (self : Store) (number : BlockNumber) : Store :=
  { self with chainData := { self.chainData with earliestBlockNumber := some number } }

def updateFinalizedBlockNumber (self : Store) (number : BlockNumber) : Store :=
  { self with chainData := { self.chainData with finalizedBlockNumber := some number } }

def updateSafeBlockNumber (self : Store) (number : BlockNumber) : Store :=
  { self with chainData := { self.chainData with safeBlockNumber := some number } }

def updateLatestBlockNumber (self : Store) (number : BlockNumber) : Store :=
  { self with chainData := { self.chainData with latestBlockNumber := some number } }

def updateLatestTotalDifficulty (self : Store) (difficulty : U256) : Store :=
  { self with chainData := { self.chainData with latestTotalDifficulty := some difficulty } }

def addAccountCode (self : Store) (codeHash : H256) (code : Bytes) : Store :=
  { self with accountCodes := self.accountCodes.insert codeHash code }

def getAccountCode (self : Store) (codeHash : H256) : Option Bytes := self.accountCodes.lookup codeHash

section

variable [Keccak256]

def addTransactionLocations (self : Store) (transactions : List Transaction) (number : BlockNumber)
    (blockHash : BlockHash) : Store :=
  transactions.zipIdx.foldl (fun store (transaction, index) =>
    store.addTransactionLocation transaction.computeHash number blockHash (UInt64.ofNat index)) self

def withBlock (self : Store) (block : Block) (totalDifficulty : U256) : Store :=
  let number := block.header.number
  let hash := block.header.computeBlockHash
  let store := self.addTransactionLocations block.body.transactions number hash
  let store := store.addBlockBody hash block.body
  let store := store.addBlockHeader hash block.header
  let store := store.addBlockNumber hash number
  let store := store.updateLatestBlockNumber number
  let store := store.addBlockTotalDifficulty hash totalDifficulty
  store.updateLatestTotalDifficulty totalDifficulty

def u256Add {ε : Type} (a b : U256) : Outcome ε U256 :=
  if a.toNat + b.toNat < 2 ^ 256 then .ok (a + b) else Outcome.panic "arithmetic operation overflow"

def addBlock (block : Block) : Exec Store StoreError Unit := do
  let blockTotalDifficulty ← Exec.reads fun store =>
    u256Add (store.chainData.latestTotalDifficulty.getD 0) block.header.difficulty
  Exec.modify fun store => store.withBlock block blockTotalDifficulty

end

/-! ## The state -/

def storageNodes (self : Store) (address : Address) : NodeMap :=
  (self.storageTrieNodes.lookup address).getD ⟨∅⟩

section

variable [Keccak256]

def stateTrie (self : Store) (blockHash : BlockHash) : Option (Trie NodeMap) :=
  (self.getBlockHeaderByHash blockHash).map fun header =>
    Trie.openAt self.stateTrieNodes header.stateRoot

def newStateTrie (self : Store) : Trie NodeMap := Trie.new self.stateTrieNodes

def openStorageTrie (self : Store) (address : Address) (storageRoot : H256) : Trie NodeMap :=
  Trie.openAt (self.storageNodes address) storageRoot

def accountIn (stateTrie : Trie NodeMap) (address : Address) :
    Outcome StoreError (Option AccountState) := do
  let encoded ← (stateTrie.get (hashAddress address)).mapErr StoreError.trie
  match encoded with
  | none => pure none
  | some encodedState =>
    let state ← (decode encodedState : Decode AccountState).mapErr StoreError.rlpDecode
    pure (some state)

def accountByHash (self : Store) (blockHash : BlockHash) (address : Address) :
    Outcome StoreError (Option AccountState) :=
  match self.stateTrie blockHash with
  | none => .ok none
  | some stateTrie => accountIn stateTrie address

def getAccountInfoByHash (self : Store) (blockHash : BlockHash) (address : Address) :
    Outcome StoreError (Option AccountInfo) := do
  let account ← self.accountByHash blockHash address
  pure (account.map fun state => ⟨state.codeHash, state.balance, state.nonce⟩)

def getAccountState (self : Store) (blockNumber : BlockNumber) (address : Address) :
    Outcome StoreError (Option AccountState) :=
  match self.getCanonicalBlockHash blockNumber with
  | some blockHash => self.accountByHash blockHash address
  | none => .ok none

def getCodeByAccountAddress (self : Store) (blockNumber : BlockNumber) (address : Address) :
    Outcome StoreError (Option Bytes) := do
  let account ← self.getAccountState blockNumber address
  pure (account.bind fun state => self.getAccountCode state.codeHash)

def slotIn (storageTrie : Trie NodeMap) (storageKey : H256) : Outcome StoreError (Option U256) := do
  let encoded ← (storageTrie.get (hashKey storageKey)).mapErr StoreError.trie
  match encoded with
  | none => pure none
  | some rlp =>
    let value ← (decode rlp : Decode U256).mapErr StoreError.rlpDecode
    pure (some value)

def getStorageAtHash (self : Store) (blockHash : BlockHash) (address : Address) (storageKey : H256) :
    Outcome StoreError (Option U256) := do
  let account ← self.accountByHash blockHash address
  match account with
  | none => pure none
  | some state => slotIn (self.openStorageTrie address state.storageRoot) storageKey

/-! ### Writing tries -/

/-- A call on the storage trie of an account, which is then hashed. -/
def onStorageTrie (address : Address) (storageRoot : H256) (x : Exec (Trie NodeMap) TrieError Unit) :
    Exec Store StoreError H256 := fun store =>
  let (res, trie) := (do x; Trie.hash : Exec (Trie NodeMap) TrieError H256)
    (store.openStorageTrie address storageRoot)
  (res.mapErr StoreError.trie, { store with
    storageTrieNodes := store.storageTrieNodes.insert address trie.state.db
    encodings := trie.state.encodings ++ store.encodings })

def onTrie {α : Type} (x : Exec (Trie NodeMap) TrieError α) :
    Exec (Store × Trie NodeMap) StoreError α :=
  Exec.mapErr StoreError.trie (Exec.zoom Prod.snd (fun p t => (p.1, t)) x)

def onStore {α : Type} (x : Exec Store StoreError α) : Exec (Store × Trie NodeMap) StoreError α :=
  Exec.zoom Prod.fst (fun p s => (s, p.2)) x

/-- A call on a state trie and on the store next to it; the trie is then hashed. -/
def onStateTrie (stateTrie : Trie NodeMap) (x : Exec (Store × Trie NodeMap) StoreError Unit) :
    Exec Store StoreError H256 := fun store =>
  let (res, store, trie) := (do x; onTrie Trie.hash : Exec (Store × Trie NodeMap) StoreError H256)
    (store, stateTrie)
  (res, { store with
    stateTrieNodes := trie.state.db
    encodings := trie.state.encodings ++ store.encodings })

/-- A slot set to zero is removed. -/
def updateSlot (storageKey : H256) (storageValue : U256) : Exec (Trie NodeMap) TrieError Unit := do
  if storageValue = 0 then
    let _ ← Trie.remove (hashKey storageKey)
    pure ()
  else Trie.insert (hashKey storageKey) (encode storageValue)

def updateInfo (update : AccountUpdate) (state : AccountState) : Exec Store StoreError AccountState :=
  match update.info with
  | none => pure state
  | some info => do
    match update.code with
    | some code => Exec.modify fun store => store.addAccountCode info.codeHash code
    | none => pure ()
    pure { state with nonce := info.nonce, balance := info.balance, codeHash := info.codeHash }

def updateStorage (update : AccountUpdate) (state : AccountState) :
    Exec Store StoreError AccountState := do
  if (entriesOf update.addedStorage).isEmpty then pure state
  else
    let storageRoot ← onStorageTrie update.address state.storageRoot
      (Exec.forEach (fun (key, value) => updateSlot key value) (entriesOf update.addedStorage))
    pure { state with storageRoot }

def applyAccountUpdate (update : AccountUpdate) : Exec (Store × Trie NodeMap) StoreError Unit := do
  if update.removed then
    let _ ← onTrie (Trie.remove (hashAddress update.address))
    pure ()
  else
    let found ← Exec.reads fun p => accountIn p.2 update.address
    let state ← onStore (updateInfo update (found.getD AccountState.new))
    let state ← onStore (updateStorage update state)
    onTrie (Trie.insert (hashAddress update.address) (encode state))

/-- Applies account updates to the state of a block and returns the new state root. -/
def applyAccountUpdates (blockHash : BlockHash) (accountUpdates : List AccountUpdate) :
    Exec Store StoreError (Option H256) := do
  let store ← Exec.get
  match store.stateTrie blockHash with
  | none => pure none
  | some stateTrie =>
    let root ← onStateTrie stateTrie (Exec.forEach applyAccountUpdate accountUpdates)
    pure (some root)

/-! ### Genesis -/

def genesisSlot (storageKey : H256) (storageValue : U256) : Exec (Trie NodeMap) TrieError Unit :=
  if storageValue = 0 then pure () else Trie.insert (hashKey storageKey) (encode storageValue)

def addGenesisAccount (address : Address) (account : GenesisAccount) :
    Exec (Store × Trie NodeMap) StoreError Unit := do
  let codeHash := Core.codeHash account.code
  onStore (Exec.modify fun store => store.addAccountCode codeHash account.code)
  let storageRoot ← onStore (onStorageTrie address EMPTY_TRIE_HASH
    (Exec.forEach (fun (key, value) => genesisSlot key value) (entriesOf account.storage)))
  let state : AccountState := ⟨account.nonce, account.balance, storageRoot, codeHash⟩
  onTrie (Trie.insert (hashAddress address) (encode state))

/-- Adds all genesis accounts and returns the genesis block's state root. -/
def setupGenesisStateTrie (genesisAccounts : HashMap Address GenesisAccount) :
    Exec Store StoreError H256 := do
  let store ← Exec.get
  onStateTrie store.newStateTrie
    (Exec.forEach (fun (address, account) => addGenesisAccount address account) (entriesOf genesisAccounts))

/-- Stores the genesis block, unless a canonical block 0 is there. -/
def addInitialState (genesis : Genesis) : Exec Store StoreError Unit := do
  let genesisBlock ← Exec.reads fun _ => genesis.getBlock
  let genesisHash := genesisBlock.header.computeBlockHash
  let store ← Exec.get
  match store.getBlockHeader genesisBlock.header.number with
  | some header =>
    if header.computeBlockHash = genesisHash then pure ()
    else Exec.panic "tried to run genesis twice with different blocks"
  | none =>
    let genesisStateRoot ← setupGenesisStateTrie genesis.alloc
    Exec.reads fun _ => Rust.assert (genesisStateRoot = genesisBlock.header.stateRoot)
      "assertion `left == right` failed"
    Exec.modify fun store => store.updateEarliestBlockNumber genesisBlock.header.number
    addBlock genesisBlock
    Exec.modify fun store =>
      (store.setCanonicalBlock genesisBlock.header.number genesisHash).setChainConfig genesis.config

end
end Store
end EthereumRust.Storage
