import EthereumRust.Storage.Frame

/-! # Transaction lookup

The store keeps a location for every block in which a transaction was ever added, and
looks for one whose block is canonical. -/

namespace EthereumRust.Storage
open Rlp Mpt Core List

namespace Store

variable [Keccak256] {s : Store} {hash : BlockHash}

/-- The stores that are reached from an empty one by adding blocks, of which `blocks` is the list,
giving canonical entries to stored blocks of their number, and adding receipts. -/
inductive Reachable : List Block → Store → Prop
  | new : Reachable [] Store.new
  | addBlock {blocks : List Block} {s s' : Store} {block : Block} (h : Reachable blocks s)
    (added : Store.addBlock block s = (.ok (), s')) : Reachable (block :: blocks) s'
  | setCanonicalBlock {blocks : List Block} {s : Store} {hash : BlockHash} {block : Block}
    (h : Reachable blocks s) (stored : s.getBlockByHash hash = some block) :
    Reachable blocks (s.setCanonicalBlock block.header.number hash)
  | addReceipt {blocks : List Block} {s : Store} (h : Reachable blocks s) (hash : BlockHash) (index : Index)
    (receipt : Receipt) : Reachable blocks (s.addReceipt hash index receipt)

/-! ## Locations -/

omit [Keccak256] in
/-- All locations of a transaction, canonical or not. -/
def locationsOf (self : Store) (transactionHash : H256) : List (BlockNumber × BlockHash × Index) :=
  (self.transactionLocations.lookup transactionHash).getD []

omit [Keccak256] in
theorem getTransactionLocation_eq (self : Store) (transactionHash : H256) :
    self.getTransactionLocation transactionHash = (self.locationsOf transactionHash).find?
      fun (number, hash, _) => self.canonicalHashes.lookup number = some hash := by
  unfold getTransactionLocation locationsOf
  cases self.transactionLocations.lookup transactionHash <;> rfl

omit [Keccak256] in
theorem locationsOf_addTransactionLocation (self : Store) (hash t : H256) (number : BlockNumber)
    (blockHash : BlockHash) (index : Index) :
    (self.addTransactionLocation hash number blockHash index).locationsOf t =
      self.locationsOf t ++ if hash = t then [(number, blockHash, index)] else [] := by
  unfold addTransactionLocation locationsOf
  by_cases h : hash = t
  · subst h
    rw [if_pos rfl, AList.lookup_insert]
    rfl
  · rw [if_neg h, AList.lookup_insert_ne (Ne.symm h), append_nil]

theorem mem_locationsOf_addTransactionLocations {self : Store} :
    location ∈ (self.addTransactionLocations transactions number blockHash).locationsOf t ↔
      location ∈ self.locationsOf t ∨ ∃ i tx, transactions[i]? = some tx ∧ tx.computeHash = t ∧
        location = (number, blockHash, UInt64.ofNat i) := by
  unfold addTransactionLocations
  -- the loop, over transactions whose indices start anywhere
  suffices h : ∀ (k : Nat) (txs : List Transaction) (s : Store),
      location ∈ ((txs.zipIdx k).foldl (fun store (p : Transaction × Nat) =>
        store.addTransactionLocation p.1.computeHash number blockHash (UInt64.ofNat p.2)) s).locationsOf t ↔
      location ∈ s.locationsOf t ∨ ∃ i tx, txs[i]? = some tx ∧ tx.computeHash = t ∧
        location = (number, blockHash, UInt64.ofNat (k + i)) by
    simpa using h 0 transactions self
  intro k txs
  induction txs generalizing k with
  | nil => simp
  | cons tx txs ih =>
    intro s
    rw [zipIdx_cons, foldl_cons, ih, locationsOf_addTransactionLocation, mem_append, or_assoc]
    refine or_congr_right ?_
    constructor
    · rintro (hhead | ⟨i, tx', htx, ht, rfl⟩)
      · split at hhead
        · rename_i ht
          exact ⟨0, tx, rfl, ht, by simpa using hhead⟩
        · cases hhead
      · exact ⟨i + 1, tx', htx, ht, by rw [Nat.add_right_comm, Nat.add_assoc]⟩
    · rintro ⟨i, tx', htx, ht, rfl⟩
      cases i with
      | zero =>
        obtain rfl : tx = tx' := Option.some.inj htx
        exact .inl (by rw [if_pos ht]; simp)
      | succ i => exact .inr ⟨i, tx', htx, ht, by rw [Nat.add_right_comm, Nat.add_assoc]⟩

/-! ## The invariant -/

/-- The tables of the blocks, the canonical entries and the locations agree with each other and with
the blocks that were added. -/
structure Located (blocks : List Block) (s : Store) : Prop where
  stored : ∀ hash block, s.getBlockByHash hash = some block →
    block ∈ blocks ∧ block.header.computeBlockHash = hash
  numbers : ∀ hash, s.getBlockNumber hash = (s.getBlockByHash hash).map fun block => block.header.number
  canonical : ∀ number hash, s.getCanonicalBlockHash number = some hash →
    (s.getBlockByHash hash).isSome ∧
      ∃ block ∈ blocks, block.header.computeBlockHash = hash ∧ block.header.number = number
  located : ∀ t number hash index, (number, hash, index) ∈ s.locationsOf t →
    ∃ block ∈ blocks, block.header.computeBlockHash = hash ∧ block.header.number = number ∧
      ∃ i tx, block.body.transactions[i]? = some tx ∧ tx.computeHash = t ∧ index = UInt64.ofNat i
  complete : ∀ hash block, s.getBlockByHash hash = some block →
    ∀ i tx, block.body.transactions[i]? = some tx →
      (block.header.number, hash, UInt64.ofNat i) ∈ s.locationsOf tx.computeHash

theorem getBlockByHash_withBlock (s : Store) (block : Block) (difficulty : U256) (hash : BlockHash) :
    (s.withBlock block difficulty).getBlockByHash hash =
      if hash = block.header.computeBlockHash then some block else s.getBlockByHash hash := by
  have hchain := chain_withBlock s block difficulty
  have hheaders := congrArg Chain.headers hchain
  have hbodies := congrArg Chain.bodies hchain
  simp only [chain, Chain.withBlock] at hheaders hbodies
  unfold getBlockByHash getBlockHeaderByHash getBlockBodyByHash
  rw [hheaders, hbodies]
  split
  · rename_i h
    subst h
    rw [AList.lookup_insert, AList.lookup_insert]
    rfl
  · rename_i h
    rw [AList.lookup_insert_ne h, AList.lookup_insert_ne h]

theorem getBlockNumber_withBlock (s : Store) (block : Block) (difficulty : U256) (hash : BlockHash) :
    (s.withBlock block difficulty).getBlockNumber hash =
      if hash = block.header.computeBlockHash then some block.header.number else s.getBlockNumber hash := by
  have hnumbers := congrArg Chain.blockNumbers (chain_withBlock s block difficulty)
  simp only [chain, Chain.withBlock] at hnumbers
  unfold getBlockNumber
  rw [hnumbers]
  split
  · rename_i h
    subst h
    rw [AList.lookup_insert]
  · rename_i h
    rw [AList.lookup_insert_ne h]

theorem locationsOf_withBlock (s : Store) (block : Block) (difficulty : U256) (t : H256) :
    (s.withBlock block difficulty).locationsOf t = (s.addTransactionLocations block.body.transactions
      block.header.number block.header.computeBlockHash).locationsOf t := rfl

theorem Located.withBlock (h : Located blocks s) (block : Block)
    (difficulty : U256) : Located (block :: blocks) (s.withBlock block difficulty) := by
  have hcanon : (s.withBlock block difficulty).canonicalHashes = s.canonicalHashes :=
    congrArg Chain.canonicalHashes (chain_withBlock s block difficulty)
  refine ⟨?_, ?_, ?_, ?_, ?_⟩
  · intro hash b hb
    rw [getBlockByHash_withBlock] at hb
    split at hb
    · rename_i heq
      obtain rfl : block = b := Option.some.inj hb
      exact ⟨mem_cons_self, heq.symm⟩
    · exact ⟨mem_cons_of_mem _ (h.stored hash b hb).1, (h.stored hash b hb).2⟩
  · intro hash
    rw [getBlockNumber_withBlock, getBlockByHash_withBlock]
    split
    · rfl
    · exact h.numbers hash
  · intro number hash hhash
    rw [getCanonicalBlockHash, hcanon] at hhash
    obtain ⟨hsome, b, hb, hrest⟩ := h.canonical number hash hhash
    refine ⟨?_, b, mem_cons_of_mem _ hb, hrest⟩
    rw [getBlockByHash_withBlock]
    split
    · rfl
    · exact hsome
  · intro t number hash index hmem
    rw [locationsOf_withBlock, mem_locationsOf_addTransactionLocations] at hmem
    rcases hmem with hmem | ⟨i, tx, htx, ht, heq⟩
    · obtain ⟨b, hb, hrest⟩ := h.located t number hash index hmem
      exact ⟨b, mem_cons_of_mem _ hb, hrest⟩
    · obtain ⟨rfl, rfl, rfl⟩ : number = _ ∧ hash = _ ∧ index = _ := by simpa using heq
      exact ⟨block, mem_cons_self, rfl, rfl, i, tx, htx, ht, rfl⟩
  · intro hash b hb i tx htx
    rw [locationsOf_withBlock, mem_locationsOf_addTransactionLocations]
    rw [getBlockByHash_withBlock] at hb
    split at hb
    · rename_i heq
      obtain rfl : block = b := Option.some.inj hb
      exact .inr ⟨i, tx, htx, rfl, by rw [heq]⟩
    · exact .inl (h.complete hash b hb i tx htx)

theorem Located.setCanonicalBlock (h : Located blocks s)
    (hstored : s.getBlockByHash hash = some block) :
    Located blocks (s.setCanonicalBlock block.header.number hash) := by
  refine ⟨h.stored, h.numbers, ?_, h.located, h.complete⟩
  intro number hash' hhash
  change (s.canonicalHashes.insert _ _).lookup number = some hash' at hhash
  by_cases hn : number = block.header.number
  · subst hn
    rw [AList.lookup_insert] at hhash
    obtain rfl : hash = hash' := Option.some.inj hhash
    obtain ⟨hmem, hkey⟩ := h.stored hash block hstored
    exact ⟨Option.isSome_iff_exists.mpr ⟨block, hstored⟩, block, hmem, hkey, rfl⟩
  · rw [AList.lookup_insert_ne hn] at hhash
    exact h.canonical number hash' hhash

theorem Reachable.located (h : Reachable blocks s) : Located blocks s := by
  induction h with
  | new =>
    refine ⟨?_, fun _ => rfl, ?_, ?_, ?_⟩
    · intro hash block hb
      cases hb
    · intro number hash hc
      cases hc
    · intro t number hash index hm
      cases hm
    · intro hash block hb
      cases hb
  | addBlock _ hadd ih =>
    obtain ⟨difficulty, -, hadd⟩ := Exec.reads_bind_ok_inv hadd
    obtain rfl := congrArg Prod.snd hadd
    exact ih.withBlock _ difficulty
  | setCanonicalBlock _ hstored ih => exact ih.setCanonicalBlock hstored
  | addReceipt _ hash index receipt ih => exact ⟨ih.stored, ih.numbers, ih.canonical, ih.located, ih.complete⟩

/-! ## Lookup -/

omit [Keccak256] in
theorem getTransactionByLocation_of_stored
    (h : s.getBlockByHash hash = some block) (index : Index) :
    s.getTransactionByLocation hash index = block.body.transactions[index.toNat]? := by
  obtain ⟨header, -, h⟩ := Option.bind_eq_some_iff.mp h
  obtain ⟨body, hbody, h⟩ := Option.bind_eq_some_iff.mp h
  obtain rfl : (⟨header, body⟩ : Block) = block := Option.some.inj h
  rw [getTransactionByLocation, hbody]
  rfl

/-- The transaction with hash `t` is at an index of the canonical block with a number. -/
def LocatedAt (s : Store) (t : H256) (number : BlockNumber) (hash : BlockHash) (index : Nat) : Prop :=
  s.getCanonicalBlockHash number = some hash ∧ ∃ block tx, s.getBlockByHash hash = some block ∧
    block.header.number = number ∧ block.body.transactions[index]? = some tx ∧ tx.computeHash = t

section

theorem Located.locatedAt (hl : Located blocks s)
    (hhash : ∀ a ∈ blocks, ∀ b ∈ blocks, a.header.computeBlockHash = b.header.computeBlockHash → a = b)
    (hsize : ∀ block ∈ blocks, block.body.transactions.length < Rust.wordSize)
    (h : s.getTransactionLocation t = some (number, hash, index)) : LocatedAt s t number hash index.toNat := by
  rw [getTransactionLocation_eq] at h
  have hfound := List.find?_some h
  have hcanonical : s.getCanonicalBlockHash number = some hash := of_decide_eq_true hfound
  obtain ⟨block, hmem, hkey, hnumber, i, tx, htx, ht, rfl⟩ :=
    hl.located t number hash index (mem_of_find?_eq_some h)
  obtain ⟨hsome, -⟩ := hl.canonical number hash hcanonical
  obtain ⟨stored, hstored⟩ := Option.isSome_iff_exists.mp hsome
  obtain ⟨hmem', hkey'⟩ := hl.stored hash stored hstored
  obtain rfl : stored = block := hhash _ hmem' _ hmem (hkey'.trans hkey.symm)
  have hi : i < Rust.wordSize := by
    have := (List.getElem?_eq_some_iff.mp htx).1
    exact this.trans (hsize _ hmem)
  refine ⟨hcanonical, stored, tx, hstored, hnumber, ?_, ht⟩
  rwa [show (UInt64.ofNat i).toNat = i from UInt64.toNat_ofNat_of_lt hi]

theorem Located.isSome_location (hl : Located blocks s) (h : LocatedAt s t number hash index) :
    (s.getTransactionLocation t).isSome := by
  obtain ⟨hcanonical, block, tx, hstored, rfl, htx, rfl⟩ := h
  rw [getTransactionLocation_eq, List.find?_isSome]
  exact ⟨_, hl.complete hash block hstored index tx htx, decide_eq_true hcanonical⟩

end

/-- **Transaction lookup** over any order of added blocks and of canonical changes, where the hash of a
block tells it from the other blocks. -/
theorem transaction_lookup (blocks : List Block) (s : Store) (hs : Reachable blocks s)
    (hhash : ∀ a ∈ blocks, ∀ b ∈ blocks,
      a.header.computeBlockHash = b.header.computeBlockHash → a = b)
    (hsize : ∀ block ∈ blocks, block.body.transactions.length < Rust.wordSize) (t : H256) :
    (∀ number hash index, s.getTransactionLocation t = some (number, hash, index) →
      LocatedAt s t number hash index.toNat) ∧
    ((∃ number hash index, LocatedAt s t number hash index) → (s.getTransactionLocation t).isSome) ∧
    ((s.getTransactionLocation t).isSome →
      ∃ tx, s.getTransactionByHash t = some tx ∧ tx.computeHash = t) := by
  have hl := hs.located
  refine ⟨fun _ _ _ h => hl.locatedAt hhash hsize h, ?_, ?_⟩
  · rintro ⟨number, hash, index, h⟩
    exact hl.isSome_location h
  · intro hsome
    obtain ⟨⟨number, hash, index⟩, hlocation⟩ := Option.isSome_iff_exists.mp hsome
    obtain ⟨-, block, tx, hstored, -, htx, ht⟩ := hl.locatedAt hhash hsize hlocation
    refine ⟨tx, ?_, ht⟩
    rw [getTransactionByHash, hlocation]
    exact (getTransactionByLocation_of_stored hstored index).trans htx

end Store

/-! ### A header with two bodies -/

def plainTransaction (nonce : UInt64) : Transaction :=
  .legacyTransaction ⟨nonce, 0, 0, .create, 0, ⟨[]⟩, 0, 0, 0⟩

def plainBlock (nonce : UInt64) : Block := ⟨plainHeader, [plainTransaction nonce], [], none⟩

/-- Another block with the same number. -/
def siblingBlock : Block := ⟨{ plainHeader with timestamp := 1 }, [plainTransaction 1, plainTransaction 0], [], none⟩

@[reducible] def plainKeccak : Keccak256 := Keccak256.ofTable [
  (encode plainHeader, 0xe9a9676da1a84a448e698de377f74e257659a1c063195f7a170310ab6baca831),
  ((plainTransaction 0).encodeCanonicalToVec,
    0xc5b2c658f5fa236c598a6e7fbf7f21413dc42e2a41dd982eb772b30707cba2eb),
  ((plainTransaction 1).encodeCanonicalToVec,
    0x8a84686634729c57532b9ffa4e632e241b2de5c880c771c5c214d5e7ec465b1c),
  (encode siblingBlock.header, 0xba80ac42ab4578372f78290a4a60e7f0f45c3df9d3d52d0f1245dd42cc957395)]

attribute [local instance] plainKeccak

/-- The store with one block, which is canonical. -/
def oneBody : Store :=
  (Store.addBlock (plainBlock 0) Store.new).2.setCanonicalBlock 1 plainHeader.computeBlockHash

/-- The store after the block was added again with another body. -/
def twoBodies : Store :=
  (Store.addBlock (plainBlock 1) oneBody).2

theorem oneBody_reachable :
    Store.Reachable [plainBlock 0] oneBody := by
  have hadded : Store.Reachable [plainBlock 0] (Store.addBlock (plainBlock 0) Store.new).2 :=
    Store.Reachable.new.addBlock (Exec.eq_of_fst (by decide +kernel))
  have hstored : (Store.addBlock (plainBlock 0) Store.new).2.getBlockByHash plainHeader.computeBlockHash =
      some (plainBlock 0) := by
    decide +kernel
  exact hadded.setCanonicalBlock hstored

/-- The location of a transaction of the first body is still there. -/
theorem transaction_lookup_two_bodies :
    Store.Reachable [plainBlock 1, plainBlock 0] twoBodies ∧
      twoBodies.getTransactionLocation (plainTransaction 0).computeHash =
        some (1, plainHeader.computeBlockHash, 0) ∧
      ¬ Store.LocatedAt twoBodies (plainTransaction 0).computeHash 1 plainHeader.computeBlockHash 0 := by
  have hfacts : (Store.addBlock (plainBlock 1) oneBody).1 = .ok () ∧
      twoBodies.getTransactionLocation (plainTransaction 0).computeHash =
        some (1, plainHeader.computeBlockHash, 0) ∧
      (twoBodies.getTransactionByLocation plainHeader.computeBlockHash 0).map Transaction.computeHash ≠
        some (plainTransaction 0).computeHash := by
    decide +kernel
  refine ⟨oneBody_reachable.addBlock (Exec.eq_of_fst hfacts.1), hfacts.2.1, ?_⟩
  rintro ⟨-, block, tx, hstored, -, htx, ht⟩
  refine hfacts.2.2 ?_
  rw [Store.getTransactionByLocation_of_stored hstored, show (0 : Index).toNat = 0 from rfl, htx,
    Option.map_some, ht]

/-! ### Another block becomes canonical -/

/-- The store after a second block with the number was added and made canonical. -/
def reorganised : Store :=
  (Store.addBlock siblingBlock oneBody).2.setCanonicalBlock 1 siblingBlock.header.computeBlockHash

theorem transaction_lookup_reorganised :
    oneBody.getTransactionLocation (plainTransaction 0).computeHash = some (1, plainHeader.computeBlockHash, 0) ∧
      Store.LocatedAt reorganised (plainTransaction 0).computeHash 1 siblingBlock.header.computeBlockHash 1 ∧
      ∃ tx, reorganised.getTransactionByHash (plainTransaction 0).computeHash = some tx ∧
        tx.computeHash = (plainTransaction 0).computeHash := by
  have hadded : Store.Reachable [siblingBlock, plainBlock 0] (Store.addBlock siblingBlock oneBody).2 :=
    oneBody_reachable.addBlock (Exec.eq_of_fst (by decide +kernel))
  have hstored : (Store.addBlock siblingBlock oneBody).2.getBlockByHash siblingBlock.header.computeBlockHash =
      some siblingBlock := by
    decide +kernel
  have hlocation : reorganised.getTransactionLocation (plainTransaction 0).computeHash =
      some (1, siblingBlock.header.computeBlockHash, 1) := by
    decide +kernel
  obtain ⟨hlocated, -, hfound⟩ := Store.transaction_lookup [siblingBlock, plainBlock 0] reorganised
    (hadded.setCanonicalBlock hstored) (by decide +kernel) (by decide) (plainTransaction 0).computeHash
  exact ⟨by decide +kernel, hlocated _ _ _ hlocation, hfound (by rw [hlocation]; rfl)⟩

end EthereumRust.Storage
