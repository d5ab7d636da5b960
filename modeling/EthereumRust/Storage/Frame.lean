import EthereumRust.Lib.Ledger
import EthereumRust.Storage.Store

/-! # What the calls of the store leave alone

The state of the accounts lives in the node tables and the codes, the chain in the other
maps. -/

namespace EthereumRust.Storage
open Rlp Mpt Core

namespace Store

/-! ## Frames -/

/-- The store without the state of the accounts. -/
def chainPart (self : Store) : Store :=
  { self with accountCodes := ∅, stateTrieNodes := ⟨∅⟩, storageTrieNodes := ∅, encodings := [] }

section

variable [Keccak256]

theorem keeps_onStorageTrie (address : Address) (root : H256) (x : Exec (Trie NodeMap) TrieError Unit) :
    Exec.Keeps chainPart (onStorageTrie address root x) := fun _ => rfl

variable (update : AccountUpdate)

omit [Keccak256] in
theorem keeps_updateInfo (state : AccountState) :
    Exec.Keeps chainPart (updateInfo update state) := by
  intro s
  unfold updateInfo
  cases update.info with
  | none => rfl
  | some info => cases update.code <;> rfl

theorem keeps_updateStorage (state : AccountState) :
    Exec.Keeps chainPart (updateStorage update state) :=
  .ite (.pure _) (.bind (keeps_onStorageTrie _ _ _) fun _ => .pure _)

omit [Keccak256] in
theorem keeps_onTrie {α : Type} (x : Exec (Trie NodeMap) TrieError α) :
    Exec.Keeps (fun p => chainPart p.1) (onTrie x) := fun _ => rfl

omit [Keccak256] in
theorem keeps_onStore {α : Type} {x : Exec Store StoreError α} (h : Exec.Keeps chainPart x) :
    Exec.Keeps (fun p => chainPart p.1) (onStore x) := fun p => h p.1

theorem keeps_applyAccountUpdate :
    Exec.Keeps (fun p => chainPart p.1) (applyAccountUpdate update) :=
  .ite (.bind (keeps_onTrie _) fun _ => .pure _) <|
    .bind (.reads _) fun _ => .bind (keeps_onStore (keeps_updateInfo _ _)) fun _ =>
      .bind (keeps_onStore (keeps_updateStorage _ _)) fun _ => keeps_onTrie _

theorem keeps_onStateTrie (trie : Trie NodeMap)
    (h : Exec.Keeps (fun p => chainPart p.1) x) : Exec.Keeps chainPart (onStateTrie trie x) :=
  fun s => (h.bind fun _ => keeps_onTrie Trie.hash) (s, trie)

theorem keeps_applyAccountUpdates (blockHash : BlockHash) (updates : List AccountUpdate) :
    Exec.Keeps chainPart (applyAccountUpdates blockHash updates) := by
  refine .bind .get fun store => ?_
  cases store.stateTrie blockHash with
  | none => exact .pure _
  | some trie =>
    exact .bind (keeps_onStateTrie trie (.forEach keeps_applyAccountUpdate updates)) fun _ => .pure _

theorem keeps_setupGenesisStateTrie (accounts : HashMap Address GenesisAccount) :
    Exec.Keeps chainPart (setupGenesisStateTrie accounts) := by
  refine .bind .get fun store => keeps_onStateTrie _ (.forEach (fun entry => ?_) _)
  exact .bind (keeps_onStore (.modify fun _ => rfl)) fun _ =>
    .bind (keeps_onStore (keeps_onStorageTrie _ _ _)) fun _ => keeps_onTrie _

end

/-! ## The chain -/

/-- The part of the store that says which blocks there are, and which are canonical. -/
structure Chain where
  headers : HashMap BlockHash BlockHeader
  bodies : HashMap BlockHash BlockBody
  blockNumbers : HashMap BlockHash BlockNumber
  canonicalHashes : HashMap BlockNumber BlockHash
  latestBlockNumber : Option BlockNumber
  chainConfig : Option ChainConfig

def chain (self : Store) : Chain where
  headers := self.headers
  bodies := self.bodies
  blockNumbers := self.blockNumbers
  canonicalHashes := self.canonicalHashes
  latestBlockNumber := self.chainData.latestBlockNumber
  chainConfig := self.chainData.chainConfig

theorem chain_of_chainPart {s s' : Store} (h : s'.chainPart = s.chainPart) : s'.chain = s.chain :=
  show s'.chainPart.chain = s.chainPart.chain from congrArg chain h

section

variable [Keccak256]

theorem addTransactionLocations_eq (self : Store) (transactions : List Transaction)
    (number : BlockNumber) (blockHash : BlockHash) :
    ∃ l, self.addTransactionLocations transactions number blockHash =
      { self with transactionLocations := l } := by
  unfold addTransactionLocations
  generalize transactions.zipIdx = indexed
  induction indexed generalizing self with
  | nil => exact ⟨_, rfl⟩
  | cons entry rest ih =>
    obtain ⟨l, hl⟩ := ih (self.addTransactionLocation entry.1.computeHash number blockHash
      (UInt64.ofNat entry.2))
    exact ⟨l, hl⟩

/-- The chain after a block was stored. -/
def Chain.withBlock (self : Chain) (block : Block) : Chain :=
  let hash := block.header.computeBlockHash
  { self with
    headers := self.headers.insert hash block.header
    bodies := self.bodies.insert hash block.body
    blockNumbers := self.blockNumbers.insert hash block.header.number
    latestBlockNumber := some block.header.number }

theorem chain_withBlock (self : Store) (block : Block) (difficulty : U256) :
    (self.withBlock block difficulty).chain = self.chain.withBlock block := by
  obtain ⟨l, hl⟩ := self.addTransactionLocations_eq block.body.transactions block.header.number
    block.header.computeBlockHash
  rw [withBlock, hl]
  rfl

end

def Chain.setCanonicalBlock (self : Chain) (number : BlockNumber) (hash : BlockHash) : Chain :=
  { self with canonicalHashes := self.canonicalHashes.insert number hash }

theorem chain_setCanonicalBlock (self : Store) (number : BlockNumber) (hash : BlockHash) :
    (self.setCanonicalBlock number hash).chain = self.chain.setCanonicalBlock number hash := rfl

/-! ## The ledger -/

section

variable [Keccak256]

/-- Headers are identified by their hash. -/
def scheme : Scheme BlockHash BlockHeader where
  hash := BlockHeader.computeBlockHash
  parent := BlockHeader.parentHash
  number header := header.number.toNat

end

def Chain.ledger (self : Chain) : Ledger BlockHash BlockHeader where
  blocks := self.headers.lookup
  canon n := if n < Rust.wordSize then self.canonicalHashes.lookup (UInt64.ofNat n) else none
  latest := (self.latestBlockNumber.getD 0).toNat

theorem ledger_latest {s : Store} (h : s.getLatestBlockNumber = some latest) :
    s.chain.ledger.latest = latest.toNat := by
  rw [Chain.ledger, show s.chain.latestBlockNumber = some latest from h]
  rfl

variable (self : Chain)

theorem Chain.canon_toNat (n : BlockNumber) :
    self.ledger.canon n.toNat = self.canonicalHashes.lookup n := by
  rw [Chain.ledger]
  simp only [if_pos (Rust.toNat_lt_wordSize n)]
  rw [UInt64.ofNat_toNat]

theorem ofNat_eq_iff (hk : k < Rust.wordSize) : UInt64.ofNat k = n ↔ k = n.toNat := by
  constructor
  · rintro rfl
    exact (UInt64.toNat_ofNat_of_lt hk).symm
  · rintro rfl
    exact UInt64.ofNat_toNat

theorem Chain.canon_pred (n : BlockNumber) :
    self.ledger.canon (n.toNat - 1) = self.canonicalHashes.lookup (Rust.saturatingSub n 1) := by
  rw [← Chain.canon_toNat, Rust.toNat_saturatingSub]
  rfl

theorem Chain.ledger_setCanonicalBlock (number : BlockNumber) (hash : BlockHash) :
    (self.setCanonicalBlock number hash).ledger =
      { self.ledger with canon := Function.update self.ledger.canon number.toNat (some hash) } := by
  unfold Chain.ledger Chain.setCanonicalBlock
  simp only [Ledger.mk.injEq, true_and, and_true]
  funext n
  by_cases hn : n = number.toNat
  · subst hn
    rw [Function.update_self, if_pos (Rust.toNat_lt_wordSize number), UInt64.ofNat_toNat, AList.lookup_insert]
  · rw [Function.update_of_ne hn]
    split
    · rename_i hlt
      rw [AList.lookup_insert_ne fun h => hn ((ofNat_eq_iff hlt).mp h)]
    · rfl

theorem Chain.ledger_extend [Keccak256] (self : Chain) (block : Block) :
    ((self.withBlock block).setCanonicalBlock block.header.number block.header.computeBlockHash).ledger =
      self.ledger.extend scheme block.header := by
  rw [Chain.ledger_setCanonicalBlock]
  have hblocks : (self.withBlock block).headers.lookup =
      Function.update self.headers.lookup block.header.computeBlockHash (some block.header) := by
    funext hash
    by_cases hh : hash = block.header.computeBlockHash
    · subst hh
      rw [Function.update_self]
      exact AList.lookup_insert _
    · rw [Function.update_of_ne hh]
      exact AList.lookup_insert_ne hh
  simp only [Chain.ledger, hblocks]
  rfl

theorem Chain.ledger_repoint [Keccak256] (self : Chain) (header : BlockHeader) (hash : BlockHash) :
    (self.setCanonicalBlock header.number hash).ledger = self.ledger.repoint scheme hash header :=
  self.ledger_setCanonicalBlock header.number hash

end Store
end EthereumRust.Storage
