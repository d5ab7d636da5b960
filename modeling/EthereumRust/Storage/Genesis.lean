import EthereumRust.Core.Codec
import EthereumRust.Storage.Frame
import EthereumRust.Trie.Build

/-! # The genesis state

`Genesis::compute_state_root` builds the tries of the accounts without a store,
`Store::setup_genesis_state_trie` in the node tables. Both give the root of the same map. -/

namespace EthereumRust.Storage
open Rlp Mpt Core List Exec

/-! ## Entries of maps -/

section

variable {X V : Type} [DecidableEq X] {m : HashMap X V}

theorem mem_entriesOf : (x, v) ∈ entriesOf m ↔ m.lookup x = some v := by
  constructor
  · intro h
    obtain ⟨e, he, hpair⟩ := mem_map.mp h
    cases hpair
    exact AList.mem_lookup_iff.mpr he
  · intro h
    exact mem_map.mpr ⟨⟨x, v⟩, AList.mem_lookup_iff.mp h, rfl⟩

omit [DecidableEq X] in
theorem nodup_keys_entriesOf (m : HashMap X V) : ((entriesOf m).map Prod.fst).Nodup := by
  rw [entriesOf, map_map]
  exact m.nodupKeys

theorem lookup_ofPairs {pairs : List (Path 32 × Value 32)} (hpairs : (pairs.map Prod.fst).Nodup) :
    (PathMap.ofPairs pairs).lookup p = some v ↔ (p, v) ∈ pairs := by
  induction pairs using List.reverseRecOn with
  | nil => exact ⟨nofun, nofun⟩
  | append_singleton pairs pair ih =>
    obtain ⟨q, w⟩ := pair
    rw [map_append, nodup_append] at hpairs
    obtain ⟨hpairs, -, hnew⟩ := hpairs
    rw [PathMap.ofPairs, foldl_append, mem_append, mem_singleton]
    change ((PathMap.ofPairs pairs).insert q w).lookup p = some v ↔ _
    by_cases hp : p = q
    · subst hp
      have hold : (p, v) ∉ pairs := fun h => hnew p (mem_map_of_mem h) p mem_cons_self rfl
      simp [hold, eq_comm]
    · rw [AList.lookup_insert_ne hp, ih hpairs]
      simp [hp]

theorem root_ofPairs_congr [Keccak256] {pairs pairs' : List (Path 32 × Value 32)}
    (hpairs : (pairs.map Prod.fst).Nodup) (hpairs' : (pairs'.map Prod.fst).Nodup)
    (h : ∀ pair, pair ∈ pairs ↔ pair ∈ pairs') : (PathMap.ofPairs pairs).root = (PathMap.ofPairs pairs').root := by
  refine Subtype.ext (congrArg (trieRoot kec) (PathMap.items_congr fun p => Option.ext fun v => ?_))
  rw [lookup_ofPairs hpairs, lookup_ofPairs hpairs', h]

end

section

variable [Keccak256] {ε : Type}

/-! ## The pairs in the tries -/

def addressPath (address : Address) : Path 32 := ⟨hashAddress address, (digest address.1).2⟩

def slotPath (key : H256) : Path 32 := ⟨hashKey key, (digest key.1).2⟩

omit [Keccak256] in
def slotValue (value : U256) : Value 32 :=
  ⟨encode value, List.length_pos_iff.mp (encode_pos value), by have := length_encode_u256_le value; omega⟩

omit [Keccak256] in
def accountValue (state : AccountState) : Value 32 :=
  ⟨encode state, List.length_pos_iff.mp (encode_pos state), by have := length_encode_accountState_le state; omega⟩

def slotPairs (storage : HashMap H256 U256) : List (Path 32 × Value 32) :=
  ((entriesOf storage).filter fun (_, v) => v ≠ 0).map fun (k, v) => (slotPath k, slotValue v)

abbrev slotMap (storage : HashMap H256 U256) : PathMap 32 := .ofPairs (slotPairs storage)

/-- The account in the state trie, with the root of its slots. -/
noncomputable def stateOf (account : GenesisAccount) : AccountState :=
  ⟨account.nonce, account.balance, (slotMap account.storage).root, Core.codeHash account.code⟩

noncomputable def accountPairs (entries : List (Address × GenesisAccount)) : List (Path 32 × Value 32) :=
  entries.map fun (address, account) => (addressPath address, accountValue (stateOf account))

noncomputable abbrev allocMap (alloc : HashMap Address GenesisAccount) : PathMap 32 :=
  .ofPairs (accountPairs (entriesOf alloc))

theorem mem_slotPairs : pair ∈ slotPairs storage ↔
    ∃ key value, storage.lookup key = some value ∧ value ≠ 0 ∧ (slotPath key, slotValue value) = pair := by
  simp only [slotPairs, mem_map, mem_filter, Prod.exists, mem_entriesOf, decide_eq_true_eq, and_assoc]

theorem mem_accountPairs :
    pair ∈ accountPairs (entriesOf alloc) ↔ ∃ address account, alloc.lookup address = some account ∧
      (addressPath address, accountValue (stateOf account)) = pair := by
  simp only [accountPairs, mem_map, Prod.exists, mem_entriesOf]

theorem nodup_slotPairs (hslot : Function.Injective slotPath) (storage : HashMap H256 U256) :
    ((slotPairs storage).map Prod.fst).Nodup := by
  have hkeys : ((((entriesOf storage).filter fun (_, v) => v ≠ 0).map Prod.fst).map slotPath).Nodup :=
    ((nodup_keys_entriesOf storage).sublist (filter_sublist.map _)).map hslot
  rw [slotPairs, map_map]
  rwa [map_map] at hkeys

theorem nodup_accountPairs (haddress : Function.Injective addressPath) (alloc : HashMap Address GenesisAccount) :
    ((accountPairs (entriesOf alloc)).map Prod.fst).Nodup := by
  have hkeys := (nodup_keys_entriesOf alloc).map haddress
  rw [accountPairs, map_map]
  rwa [map_map] at hkeys

/-! ## The root without a store -/

def hashEncodings (iter : List (ByteString × ByteString)) : List ByteString :=
  iter.inits.flatMap fun a => (Trie.insertAll a (Trie.new NullTrieDB.mk)).2.state.encodings

def storageEntries (storage : HashMap H256 U256) : List (ByteString × ByteString) :=
  ((entriesOf storage).filter fun (_, v) => v ≠ 0).map fun (k, v) => ((digest k.1).1, encode v)

/-- The encodings that occur in `compute_state_root`. -/
def stateRootEncodings (alloc : HashMap Address GenesisAccount) : List ByteString :=
  ((entriesOf alloc).flatMap fun entry => hashEncodings (storageEntries entry.2.storage)) ++
    match (Genesis.stateEntries (entriesOf alloc) : Outcome StoreError _) with
    | .ok entries => hashEncodings entries
    | .error _ => []

theorem computeHash_run (pairs : List (Path 32 × Value 32))
    (hkec : Set.InjOn kec {e | e ∈ hashEncodings (rawPairs pairs)}) :
    Trie.computeHashFromUnsortedIter (rawPairs pairs) = .ok (PathMap.ofPairs pairs).root := by
  have henc : insertEncodings pairs = hashEncodings (rawPairs pairs) := by
    rw [hashEncodings, rawPairs, map_inits, flatMap_map]
    rfl
  obtain ⟨root, hrun, hroot⟩ := computeHashFromUnsortedIter_canonical.1 pairs (henc ▸ hkec)
  rw [hrun]
  exact congrArg Except.ok (Subtype.ext hroot)

theorem rawPairs_slotPairs (storage : HashMap H256 U256) : rawPairs (slotPairs storage) = storageEntries storage := by
  rw [rawPairs, slotPairs, map_map]
  rfl

theorem stateEntries_ok
    (hkec : ∀ entry ∈ entries, Set.InjOn kec {e | e ∈ hashEncodings (storageEntries entry.2.storage)}) :
    (Genesis.stateEntries entries : Outcome ε _) = .ok (rawPairs (accountPairs entries)) := by
  induction entries with
  | nil => rfl
  | cons entry entries ih =>
    obtain ⟨address, account⟩ := entry
    have hfirst := hkec _ mem_cons_self
    rw [← rawPairs_slotPairs] at hfirst
    have hroot : (computeStorageRoot account.storage : Outcome ε H256) = .ok (stateOf account).storageRoot := by
      change Rust.unwrap (Trie.computeHashFromUnsortedIter (storageEntries account.storage)) = _
      rw [← rawPairs_slotPairs, computeHash_run _ hfirst]
      rfl
    rw [Genesis.stateEntries, AccountState.ofGenesis, hroot, ih fun entry he => hkec entry (mem_cons_of_mem _ he)]
    rfl

theorem computeStateRoot_ok (genesis : Genesis) (hkec : Set.InjOn kec {e | e ∈ stateRootEncodings genesis.alloc}) :
    (genesis.computeStateRoot : Outcome ε H256) = .ok (allocMap genesis.alloc).root := by
  have hentries : ∀ {ε : Type}, (Genesis.stateEntries (entriesOf genesis.alloc) : Outcome ε _) = .ok _ :=
    stateEntries_ok fun entry hentry =>
      hkec.mono fun e he => mem_append_left _ (mem_flatMap.mpr ⟨entry, hentry, he⟩)
  have hstate : Set.InjOn kec {e | e ∈ hashEncodings (rawPairs (accountPairs (entriesOf genesis.alloc)))} := by
    refine hkec.mono fun e he => mem_append_right _ ?_
    rw [hentries]
    exact he
  rw [Genesis.computeStateRoot, hentries, Outcome.bind_ok, computeHash_run _ hstate]
  rfl

/-! ## The root in a store -/

section

variable {α : Type}

/-- The encodings seen by a state trie and the store next to it. -/
def seen (p : Store × Trie NodeMap) : List ByteString := p.2.state.encodings ++ p.1.encodings

omit [Keccak256] in
theorem grows_onStore {x : Exec Store StoreError α} (hx : Exec.Grows Store.encodings x) :
    Exec.Grows seen (Store.onStore x) := fun p =>
  append_subset.mpr ⟨subset_append_left _ _, subset_append_of_subset_right _ (hx p.1)⟩

omit [Keccak256] in
theorem grows_onTrie {x : Exec (Trie NodeMap) TrieError α}
    (hx : Exec.Grows (fun trie => trie.state.encodings) x) : Exec.Grows seen (Store.onTrie x) := fun p =>
  append_subset.mpr ⟨subset_append_of_subset_left _ (hx p.2), subset_append_right _ _⟩

theorem grows_addGenesisAccount (address : Address) (account : GenesisAccount) :
    Exec.Grows seen (Store.addGenesisAccount address account) :=
  .bind (grows_onStore fun _ => List.Subset.refl _) fun _ =>
    .bind (grows_onStore fun _ => subset_append_right _ _) fun _ => grows_onTrie (Trie.records_insert _ _)

def genesisSlots (storage : HashMap H256 U256) : Exec (Trie NodeMap) TrieError Unit :=
  Exec.forEach (fun (key, value) => Store.genesisSlot key value) (entriesOf storage)

/-- A slot that is zero is not written. -/
theorem genesisSlots_eq (storage : HashMap H256 U256) :
    genesisSlots storage = Exec.forEach (fun (p, v) => Trie.insert p.1 v.1) (slotPairs storage) := by
  rw [genesisSlots, slotPairs]
  induction entriesOf storage with
  | nil => rfl
  | cons entry entries ih =>
    obtain ⟨key, value⟩ := entry
    rw [Exec.forEach, ih, filter_cons]
    change (Store.genesisSlot key value >>= fun _ => _) = _
    by_cases hv : value = 0
    · subst hv
      rfl
    · have hslot : Store.genesisSlot key value = Trie.insert (hashKey key) (encode value) := if_neg hv
      rw [if_pos (by simpa using hv), hslot]
      rfl

theorem genesisSlots_run {s : Store} (hE : NoCollision E)
    (hempty : s.storageNodes address = ⟨∅⟩)
    (hrec : (Store.onStorageTrie address EMPTY_TRIE_HASH (genesisSlots storage) s).2.encodings ⊆ E) :
    ∃ db F, Store.onStorageTrie address EMPTY_TRIE_HASH (genesisSlots storage) s =
      (.ok (slotMap storage).root, { s with
        storageTrieNodes := s.storageTrieNodes.insert address db, encodings := F }) ∧
      Rooted db (slotMap storage) := by
  have hopen : s.openStorageTrie address EMPTY_TRIE_HASH = Trie.new ⟨∅⟩ := by
    rw [Store.openStorageTrie, hempty, Trie.openAt, if_neg (not_not.mpr rfl)]
    rfl
  rw [Store.onStorageTrie, hopen, genesisSlots_eq] at hrec ⊢
  obtain ⟨trie, hrun, hrooted⟩ := build_run (fun key => (rfl : TrieDB.get (⟨∅⟩ : NodeMap) key = .ok none))
    (slotPairs storage)
    (hE.mono (List.Subset.trans (subset_append_left _ _) hrec))
  refine ⟨trie.state.db, trie.state.encodings ++ s.encodings, ?_, hrooted⟩
  rw [hrun]
  rfl

omit [Keccak256] in
theorem storageNodes_insert (store : Store) (address other : Address) (db : NodeMap) (E : List ByteString) :
    Store.storageNodes { store with
        storageTrieNodes := store.storageTrieNodes.insert address db, encodings := E } other =
      if other = address then db else store.storageNodes other := by
  unfold Store.storageNodes
  by_cases h : other = address
  · subst h
    simp
  · simp only [AList.lookup_insert_ne h, if_neg h]

/-- The store has the accounts' slots and codes. -/
structure HasAccounts (store : Store) (entries : List (Address × GenesisAccount)) : Prop where
  storage : ∀ entry ∈ entries, Rooted (store.storageNodes entry.1) (slotMap entry.2.storage)
  codes : ∀ entry ∈ entries, store.getAccountCode (Core.codeHash entry.2.code) = some entry.2.code

/-- The accounts that were added are in the state trie, and all other storage is empty. -/
structure Progress (entries : List (Address × GenesisAccount)) (p : Store × Trie NodeMap) : Prop where
  map : ∃ t, MapInv (PathMap.ofPairs (accountPairs entries)) p.2 t
  accounts : HasAccounts p.1 entries
  fresh : ∀ address ∉ entries.map Prod.fst, p.1.storageNodes address = ⟨∅⟩

theorem Progress.add (h : Progress entries p)
    {account : GenesisAccount} (hnew : address ∉ entries.map Prod.fst)
    (hcodes : ∀ entry ∈ entries, Core.codeHash entry.2.code = Core.codeHash account.code →
      entry.2.code = account.code) (hE : NoCollision E)
    (hrec : seen (Store.addGenesisAccount address account p).2 ⊆ E) :
    ∃ p', Store.addGenesisAccount address account p = (.ok (), p') ∧ Progress (entries ++ [(address, account)]) p' := by
  obtain ⟨store, trie⟩ := p
  let coded := store.addAccountCode (Core.codeHash account.code) account.code
  let write : H256 → Exec (Store × Trie NodeMap) StoreError Unit := fun storageRoot =>
    Store.onTrie (Trie.insert (hashAddress address)
      (encode (⟨account.nonce, account.balance, storageRoot, Core.codeHash account.code⟩ : AccountState)))
  have hform : Store.addGenesisAccount address account (store, trie) =
      (Store.onStore (Store.onStorageTrie address EMPTY_TRIE_HASH (genesisSlots account.storage)) >>= write)
        (coded, trie) := rfl
  rw [hform] at hrec ⊢
  -- the slots
  have hmid := Exec.Grows.rest (k := write) (fun _ => grows_onTrie (Trie.records_insert _ _))
    (Store.onStore (Store.onStorageTrie address EMPTY_TRIE_HASH (genesisSlots account.storage))) (coded, trie)
  obtain ⟨db, F, hslots, hrooted⟩ := genesisSlots_run (s := coded) hE (h.fresh address hnew)
    (List.Subset.trans (subset_append_right _ _) (List.Subset.trans hmid hrec))
  have hon : Store.onStore (Store.onStorageTrie address EMPTY_TRIE_HASH (genesisSlots account.storage)) (coded, trie) =
    _ := congrArg (fun r => (r.1, (r.2, trie))) hslots
  rw [run_bind_ok hon] at hrec ⊢
  -- the account
  obtain ⟨t, hinv⟩ := h.map
  obtain ⟨trie', t', hins, hinv'⟩ := hinv.insert (addressPath address) (accountValue (stateOf account))
    (hE.mono (List.Subset.trans (subset_append_left _ _) hrec)).injOn
  have hwrite : ∀ store', write (stateOf account).storageRoot (store', trie) = (.ok (), (store', trie')) := by
    intro store'
    have hins' : Trie.insert (hashAddress address) (encode (stateOf account)) trie = (.ok (), trie') := hins
    change Store.onTrie (Trie.insert (hashAddress address) (encode (stateOf account))) (store', trie) = _
    rw [Store.onTrie, run_mapErr, run_zoom, hins']
    rfl
  have hnodes := fun other => storageNodes_insert coded address other db F
  refine ⟨_, hwrite _, ⟨t', ?_⟩, ⟨fun entry hentry => ?_, fun entry hentry => ?_⟩, fun other hother => ?_⟩
  · rw [accountPairs, map_append, PathMap.ofPairs, foldl_append]
    exact hinv'
  · rw [hnodes]
    rcases mem_append.mp hentry with hentry | hentry
    · have hne : entry.1 ≠ address := fun he => hnew (he ▸ mem_map_of_mem hentry)
      rw [if_neg hne]
      exact h.accounts.storage entry hentry
    · rw [mem_singleton.mp hentry, if_pos rfl]
      exact hrooted
  · change (store.accountCodes.insert (Core.codeHash account.code) account.code).lookup _ = _
    rcases mem_append.mp hentry with hentry | hentry
    · by_cases hhash : Core.codeHash entry.2.code = Core.codeHash account.code
      · rw [hhash, AList.lookup_insert, hcodes entry hentry hhash]
      · rw [AList.lookup_insert_ne hhash]
        exact h.accounts.codes entry hentry
    · rw [mem_singleton.mp hentry, AList.lookup_insert]
  · rw [map_append, mem_append, not_or] at hother
    rw [hnodes, if_neg fun he => hother.2 (by rw [he]; exact mem_cons_self)]
    exact h.fresh other hother.1

/-- The tables hold the allocated accounts afterwards. -/
theorem setupGenesisStateTrie_run (hE : NoCollision E)
    (hcodes : Set.InjOn Core.codeHash {code | ∃ address account, alloc.lookup address = some account ∧
      account.code = code})
    (hrec : (Store.setupGenesisStateTrie alloc Store.new).2.encodings ⊆ E) :
    ∃ store, Store.setupGenesisStateTrie alloc Store.new =
        (.ok (allocMap alloc).root, store) ∧
      Rooted store.stateTrieNodes (allocMap alloc) ∧
      HasAccounts store (entriesOf alloc) := by
  let add : Address × GenesisAccount → Exec (Store × Trie NodeMap) StoreError Unit := fun entry =>
    Store.addGenesisAccount entry.1 entry.2
  have hgrows : ∀ entry, Exec.Grows seen (add entry) := fun entry => grows_addGenesisAccount entry.1 entry.2
  have hform : Store.setupGenesisStateTrie alloc Store.new =
      Store.onStateTrie (Trie.new ⟨∅⟩) (Exec.forEach add (entriesOf alloc)) Store.new := rfl
  rw [hform] at hrec ⊢
  have hmid : seen (Exec.forEach add (entriesOf alloc) (Store.new, Trie.new ⟨∅⟩)).2 ⊆ E :=
    List.Subset.trans (Exec.Grows.rest (fun _ => grows_onTrie Trie.records_hash) _ _) hrec
  have hstart : Progress [] (Store.new, Trie.new ⟨∅⟩) :=
    ⟨⟨.nil, .new _, .nil, .new fun _ => rfl⟩, ⟨nofun, nofun⟩, fun _ _ => rfl⟩
  have hstep : ∀ as entry p, as ++ [entry] <+: entriesOf alloc →
      Exec.forEach add as (Store.new, Trie.new ⟨∅⟩) = (.ok (), p) → Progress as p →
      ∃ b p', add entry p = (.ok b, p') ∧ Progress (as ++ [entry]) p' := by
    intro as entry p has hrun hp
    have hfound : ∀ other ∈ as ++ [entry], alloc.lookup other.1 = some other.2 := fun other hother =>
      mem_entriesOf.mp (has.subset hother)
    have hnodup := (nodup_keys_entriesOf alloc).sublist (has.sublist.map Prod.fst)
    rw [map_append, nodup_append] at hnodup
    obtain ⟨p', hadd, hp'⟩ := hp.add (fun hmem => hnodup.2.2 _ hmem _ mem_cons_self rfl)
      (fun other hother => hcodes ⟨_, _, hfound other (mem_append_left _ hother), rfl⟩
        ⟨_, _, hfound entry (mem_append_right _ mem_cons_self), rfl⟩)
      hE (List.Subset.trans (Exec.Grows.step hgrows has hrun) hmid)
    exact ⟨(), p', hadd, hp'⟩
  obtain ⟨⟨store, trie⟩, hrun, ⟨t, hinv⟩, haccounts, -⟩ := forEach_invariant Progress hstart hstep _ prefix_rfl
  rw [hrun] at hmid
  obtain ⟨trie', hhash, -, hrooted⟩ := hinv.hash (hE.mono (List.Subset.trans (subset_append_left _ _) hmid))
  have hboth : (do Exec.forEach add (entriesOf alloc); Store.onTrie Trie.hash :
      Exec (Store × Trie NodeMap) StoreError H256) (Store.new, Trie.new ⟨∅⟩) =
        (.ok (allocMap alloc).root, (store, trie')) := by
    rw [run_bind_ok hrun, Store.onTrie, run_mapErr, run_zoom, hhash]
    rfl
  refine ⟨{ store with stateTrieNodes := trie'.state.db, encodings := trie'.state.encodings ++ store.encodings },
    ?_, hrooted, haccounts.storage, haccounts.codes⟩
  rw [Store.onStateTrie, hboth]

/-- Storing the genesis block adds it to the store with the genesis state. -/
theorem addInitialState_run {genesis : Genesis}
    (hroot : (genesis.computeStateRoot : Outcome StoreError H256) = .ok root)
    (hsetup : Store.setupGenesisStateTrie genesis.alloc Store.new = (.ok root, store)) :
    ∃ header store', Store.addInitialState genesis Store.new = (.ok (), store') ∧ header.stateRoot = root ∧
      store'.getCanonicalBlockHash 0 = some header.computeBlockHash ∧
      store'.headers.lookup header.computeBlockHash = some header ∧ store'.stateTrieNodes = store.stateTrieNodes ∧
      store'.storageTrieNodes = store.storageTrieNodes ∧ store'.accountCodes = store.accountCodes := by
  obtain ⟨block, hblock, hstateRoot, hnumber, hbody⟩ : ∃ block : Block,
      (genesis.getBlock : Outcome StoreError Block) = .ok block ∧ block.header.stateRoot = root ∧
        block.header.number = 0 ∧ block.body = Genesis.getBlockBody := by
    rw [Genesis.getBlock, Genesis.getBlockHeader, hroot]
    exact ⟨_, rfl, rfl, rfl, rfl⟩
  have hreads : Exec.reads (fun _ => genesis.getBlock) Store.new = (.ok block, Store.new) :=
    congrArg (·, Store.new) hblock
  have hassert : Exec.reads (fun _ : Store => (Rust.assert (root = block.header.stateRoot)
      "assertion `left == right` failed" : Outcome StoreError Unit)) store = (.ok (), store) := by
    rw [hstateRoot]
    exact congrArg (·, store) (if_pos (decide_eq_true rfl))
  have hnone : Store.new.getBlockHeader block.header.number = none := rfl
  -- the total difficulty is that of the block, as no other block is there
  have htotal : (store.updateEarliestBlockNumber block.header.number).chainData.latestTotalDifficulty = none := by
    have hkept := Store.keeps_setupGenesisStateTrie genesis.alloc Store.new
    rw [hsetup] at hkept
    exact congrArg (fun s : Store => s.chainData.latestTotalDifficulty) hkept
  have hadd : Store.addBlock block (store.updateEarliestBlockNumber block.header.number) =
      (.ok (), (store.updateEarliestBlockNumber block.header.number).withBlock block
        (0 + block.header.difficulty)) := by
    have hfits : Store.u256Add (ε := StoreError) 0 block.header.difficulty = .ok (0 + block.header.difficulty) := by
      rw [Store.u256Add, if_pos]
      simpa using block.header.difficulty.isLt
    have hread : Exec.reads (fun s : Store => (Store.u256Add (s.chainData.latestTotalDifficulty.getD 0)
        block.header.difficulty : Outcome StoreError U256)) (store.updateEarliestBlockNumber block.header.number) =
          (.ok (0 + block.header.difficulty), store.updateEarliestBlockNumber block.header.number) := by
      rw [run_reads, htotal]
      exact congrArg (·, _) hfits
    rw [Store.addBlock, run_bind_ok hread]
    rfl
  refine ⟨block.header, (((store.updateEarliestBlockNumber block.header.number).withBlock block
    (0 + block.header.difficulty)).setCanonicalBlock block.header.number
      block.header.computeBlockHash).setChainConfig genesis.config, ?_, hstateRoot, ?_⟩
  · rw [Store.addInitialState, run_bind_ok hreads, run_bind_ok (run_get Store.new), hnone]
    refine (run_bind_ok hsetup _).trans ?_
    rw [run_bind_ok hassert, run_bind_ok (run_modify _ store), run_bind_ok hadd]
    rfl
  · obtain ⟨header, body⟩ := block
    obtain rfl : body = Genesis.getBlockBody := hbody
    have hzero : header.number = 0 := hnumber
    refine ⟨?_, ?_, rfl, rfl, rfl⟩
    · change (store.canonicalHashes.insert header.number header.computeBlockHash).lookup 0 = _
      rw [hzero, AList.lookup_insert]
    · change (store.headers.insert header.computeBlockHash header).lookup header.computeBlockHash = _
      rw [AList.lookup_insert]

end

/-! ## Agreement -/

structure SameAccount (account account' : GenesisAccount) : Prop where
  code : account.code = account'.code
  storage : ∀ key, account.storage.lookup key = account'.storage.lookup key
  balance : account.balance = account'.balance
  nonce : account.nonce = account'.nonce

/-- The same accounts, whatever the order in which accounts and slots are visited. -/
def SameAlloc (alloc alloc' : HashMap Address GenesisAccount) : Prop :=
  ∀ address, Option.Rel SameAccount (alloc.lookup address) (alloc'.lookup address)

theorem SameAccount.stateOf_eq (hslot : Function.Injective slotPath)
    (h : SameAccount account account') : stateOf account = stateOf account' := by
  have hroot := root_ofPairs_congr (nodup_slotPairs hslot account.storage) (nodup_slotPairs hslot account'.storage)
    fun pair => by rw [mem_slotPairs, mem_slotPairs]; simp only [h.storage]
  rw [stateOf, stateOf, h.nonce, h.balance, h.code, hroot]

theorem SameAlloc.root_eq (haddress : Function.Injective addressPath)
    (hslot : Function.Injective slotPath) (h : SameAlloc alloc alloc') :
    (allocMap alloc).root = (allocMap alloc').root := by
  refine root_ofPairs_congr (nodup_accountPairs haddress alloc) (nodup_accountPairs haddress alloc') fun pair => ?_
  rw [mem_accountPairs, mem_accountPairs]
  refine exists_congr fun address => ?_
  have hsame := h address
  generalize alloc.lookup address = found at hsame ⊢
  generalize alloc'.lookup address = found' at hsame ⊢
  cases hsame with
  | none => simp
  | some hsame => simp [hsame.stateOf_eq hslot]

/-- The encodings that occur in `compute_state_root` and in `setup_genesis_state_trie` on an empty
store, for two orders of the accounts. -/
def genesisEncodings (genesis : Genesis) (alloc : HashMap Address GenesisAccount) : List ByteString :=
  stateRootEncodings genesis.alloc ++ (Store.setupGenesisStateTrie genesis.alloc Store.new).2.encodings ++
    (Store.setupGenesisStateTrie alloc Store.new).2.encodings

/-- The store reads the allocated accounts at the block. A slot that is zero is not stored. -/
structure ReadsAlloc (store : Store) (number : BlockNumber) (hash : BlockHash)
    (alloc : HashMap Address GenesisAccount) : Prop where
  canonical : store.getCanonicalBlockHash number = some hash
  info : ∀ address, store.getAccountInfoByHash hash address = .ok ((alloc.lookup address).map fun account =>
    ⟨Core.codeHash account.code, account.balance, account.nonce⟩)
  code : ∀ address, store.getCodeByAccountAddress number address = .ok ((alloc.lookup address).map GenesisAccount.code)
  slot : ∀ address key, store.getStorageAtHash hash address key = .ok ((alloc.lookup address).bind fun account =>
    (account.storage.lookup key).filter (· ≠ 0))

section

variable {store : Store}

theorem accountIn_eq (haddress : Function.Injective addressPath)
    (h : Rooted store.stateTrieNodes (allocMap alloc)) (address : Address) :
    Store.accountIn (Trie.openAt store.stateTrieNodes (allocMap alloc).root) address =
      .ok ((alloc.lookup address).map stateOf) := by
  have hget : (Trie.openAt store.stateTrieNodes _).get (hashAddress address) = _ := h (addressPath address)
  have hlookup : (allocMap alloc).lookup (addressPath address) =
      (alloc.lookup address).map fun account => accountValue (stateOf account) := by
    refine Option.ext fun v => ?_
    rw [lookup_ofPairs (nodup_accountPairs haddress alloc), mem_accountPairs]
    constructor
    · rintro ⟨other, account, hfound, hpair⟩
      obtain ⟨hpath, rfl⟩ := Prod.mk.inj hpair
      rw [haddress hpath] at hfound
      rw [hfound]
      rfl
    · intro hmap
      obtain ⟨account, hfound, rfl⟩ := Option.map_eq_some_iff.mp hmap
      exact ⟨address, account, hfound, rfl⟩
  rw [Store.accountIn, hget, hlookup]
  cases alloc.lookup address with
  | none => rfl
  | some account =>
    have hdecode : decode (encode (stateOf account)) = .ok (stateOf account) :=
      (roundTrip (stateOf account) (length_encode_accountState _)).decode
    change ((decode (encode (stateOf account)) : Decode AccountState).mapErr _ >>= _) = _
    rw [hdecode]
    rfl

theorem slotIn_eq (hslot : Function.Injective slotPath)
    (h : Rooted db (slotMap storage)) (key : H256) :
    Store.slotIn (Trie.openAt db (slotMap storage).root) key =
      .ok ((storage.lookup key).filter (· ≠ 0)) := by
  have hget : (Trie.openAt db _).get (hashKey key) = _ := h (slotPath key)
  have hlookup : (slotMap storage).lookup (slotPath key) =
      ((storage.lookup key).filter (· ≠ 0)).map slotValue := by
    refine Option.ext fun v => ?_
    rw [lookup_ofPairs (nodup_slotPairs hslot storage), mem_slotPairs]
    constructor
    · rintro ⟨other, value, hfound, hv, hpair⟩
      obtain ⟨hpath, rfl⟩ := Prod.mk.inj hpair
      rw [hslot hpath] at hfound
      rw [hfound, Option.filter_some, if_pos (decide_eq_true hv)]
      rfl
    · intro hmap
      obtain ⟨value, hfilter, rfl⟩ := Option.map_eq_some_iff.mp hmap
      obtain ⟨hfound, hv⟩ := Option.filter_eq_some_iff.mp hfilter
      exact ⟨key, value, hfound, of_decide_eq_true hv, rfl⟩
  rw [Store.slotIn, hget, hlookup]
  cases (storage.lookup key).filter (· ≠ 0) with
  | none => rfl
  | some value =>
    have hdecode : decode (encode value) = .ok value :=
      (roundTrip value ((length_encode_u256_le value).trans_lt (by norm_num))).decode
    change ((decode (encode value) : Decode U256).mapErr _ >>= _) = _
    rw [hdecode]
    rfl

theorem HasAccounts.readsAlloc (haddress : Function.Injective addressPath) (hslot : Function.Injective slotPath)
    (h : HasAccounts store (entriesOf alloc)) {header : BlockHeader} {number hash}
    (hrooted : Rooted store.stateTrieNodes (allocMap alloc))
    (hroot : header.stateRoot = (allocMap alloc).root)
    (hcanonical : store.getCanonicalBlockHash number = some hash)
    (hheader : store.headers.lookup hash = some header) : ReadsAlloc store number hash alloc := by
  have haccount : ∀ address, store.accountByHash hash address = .ok ((alloc.lookup address).map stateOf) := by
    intro address
    rw [← accountIn_eq haddress hrooted, ← hroot, Store.accountByHash, Store.stateTrie, Store.getBlockHeaderByHash,
      hheader]
    rfl
  refine ⟨hcanonical, fun address => ?_, fun address => ?_, fun address key => ?_⟩
  · rw [Store.getAccountInfoByHash, haccount]
    exact congrArg Except.ok (Option.map_map _ _ _)
  · have hstate : store.getAccountState number address = store.accountByHash hash address := by
      rw [Store.getAccountState, hcanonical]
    rw [Store.getCodeByAccountAddress, hstate, haccount]
    cases hfound : alloc.lookup address with
    | none => rfl
    | some account => exact congrArg Except.ok (h.codes _ (mem_entriesOf.mpr hfound))
  · rw [Store.getStorageAtHash, haccount]
    cases hfound : alloc.lookup address with
    | none => rfl
    | some account => exact slotIn_eq hslot (h.storage _ (mem_entriesOf.mpr hfound)) key

end

/-- Both ways to compute the genesis state root agree, and the genesis block reads as allocated. -/
theorem genesis_roots_agree (haddress : Function.Injective hashAddress) (hkey : Function.Injective hashKey)
    (genesis : Genesis) (alloc : HashMap Address GenesisAccount) (hsame : SameAlloc genesis.alloc alloc)
    (hE : NoCollision (genesisEncodings genesis alloc))
    (hcodes : Set.InjOn Core.codeHash
      {code | ∃ address account, genesis.alloc.lookup address = some account ∧ account.code = code}) :
    ∃ root store hash, (genesis.computeStateRoot : Outcome StoreError H256) = .ok root ∧
      (Store.setupGenesisStateTrie alloc Store.new).1 = .ok root ∧
      Store.addInitialState genesis Store.new = (.ok (), store) ∧ ReadsAlloc store 0 hash genesis.alloc := by
  have haddress' : Function.Injective addressPath := fun _ _ h => haddress (congrArg Subtype.val h)
  have hslot : Function.Injective slotPath := fun _ _ h => hkey (congrArg Subtype.val h)
  -- the same codes occur in the other order
  have hcodes' : Set.InjOn Core.codeHash
      {code | ∃ address account, alloc.lookup address = some account ∧ account.code = code} := by
    refine hcodes.mono ?_
    rintro code ⟨address, account, hfound, rfl⟩
    have hother := hsame address
    rw [hfound] at hother
    generalize hfound' : genesis.alloc.lookup address = found at hother
    cases hother with
    | some hother => exact ⟨address, _, hfound', hother.code⟩
  have hroot := computeStateRoot_ok (ε := StoreError) genesis
    (hE.injOn.mono fun e he => List.mem_append_left _ (List.mem_append_left _ he))
  obtain ⟨store₁, hrun₁, hrooted, haccounts⟩ := setupGenesisStateTrie_run hE hcodes
    fun e he => List.mem_append_left _ (List.mem_append_right _ he)
  obtain ⟨store₂, hrun₂, -, -⟩ := setupGenesisStateTrie_run hE hcodes' fun e he => List.mem_append_right _ he
  rw [← hsame.root_eq haddress' hslot] at hrun₂
  -- the genesis block has this root
  obtain ⟨header, store, hadd, hstateRoot, hcanonical, hheader, hnodes, hstorage, hcode⟩ :=
    addInitialState_run hroot hrun₁
  have haccounts' : HasAccounts store (entriesOf genesis.alloc) := by
    refine ⟨fun entry hentry => ?_, fun entry hentry => ?_⟩
    · rw [Store.storageNodes, hstorage]
      exact haccounts.storage entry hentry
    · rw [Store.getAccountCode, hcode]
      exact haccounts.codes entry hentry
  exact ⟨_, store, _, hroot, congrArg Prod.fst hrun₂, hadd,
    haccounts'.readsAlloc haddress' hslot (hnodes ▸ hrooted) hstateRoot hcanonical hheader⟩

end

/-! Two accounts with two slots each, one of which is zero, in both orders. -/

/-- A hash that keeps strings of up to 32 bytes apart. -/
@[reducible] def foldedKeccak : Keccak256 where
  digest b := ⟨beBytes 32 (if b.length ≤ 32 then beNat b else beNat b % (2 ^ 256 - 189)), length_beBytes _ _⟩

theorem foldedKeccak_injective (hn : n ≤ 32) :
    Function.Injective fun b : FixedBytes n => (foldedKeccak.digest b.1).1 := by
  intro a b h
  have hdigest : beBytes 32 (if a.1.length ≤ 32 then beNat a.1 else _) =
    beBytes 32 (if b.1.length ≤ 32 then beNat b.1 else _) := h
  rw [if_pos (by rw [a.2]; exact hn), if_pos (by rw [b.2]; exact hn)] at hdigest
  have hlt : ∀ c : FixedBytes n, beNat c.1 < 256 ^ 32 := fun c =>
    (beNat_lt c.1).trans_le (Nat.pow_le_pow_right (by omega) (by rw [c.2]; exact hn))
  have hnat : beNat a.1 = beNat b.1 := by
    have := congrArg beNat hdigest
    rwa [beNat_beBytes, beNat_beBytes, Nat.mod_eq_of_lt (hlt a), Nat.mod_eq_of_lt (hlt b)] at this
  apply Subtype.ext
  rw [← beBytes_beNat a.1, ← beBytes_beNat b.1, a.2, b.2, hnat]

def slotsInOrder : HashMap H256 U256 := ((∅ : HashMap H256 U256).insert (H256.ofNat 1) 7).insert (H256.ofNat 2) 0

def slotsReversed : HashMap H256 U256 := ((∅ : HashMap H256 U256).insert (H256.ofNat 2) 0).insert (H256.ofNat 1) 7

def firstAccount (storage : HashMap H256 U256) : GenesisAccount := ⟨⟨[0x60]⟩, storage, 5, 1⟩

def secondAccount (storage : HashMap H256 U256) : GenesisAccount := ⟨⟨[]⟩, storage, 9, 0⟩

def accountsInOrder : HashMap Address GenesisAccount :=
  ((∅ : HashMap Address GenesisAccount).insert (Address.ofNat 10) (firstAccount slotsInOrder)).insert
    (Address.ofNat 11) (secondAccount slotsReversed)

def accountsReversed : HashMap Address GenesisAccount :=
  ((∅ : HashMap Address GenesisAccount).insert (Address.ofNat 11) (secondAccount slotsInOrder)).insert
    (Address.ofNat 10) (firstAccount slotsReversed)

def twoAccounts : Genesis where
  config := { chainId := 1 }
  alloc := accountsInOrder
  coinbase := Address.ofNat 0
  difficulty := 0
  extraData := ⟨[]⟩
  gasLimit := 30000000
  nonce := 0
  mixHash := H256.zero
  timestamp := 0
  baseFeePerGas := none
  blobGasUsed := none
  excessBlobGas := none

theorem slots_same (key : H256) : slotsInOrder.lookup key = slotsReversed.lookup key :=
  AList.perm_lookup (by decide +kernel)

theorem accounts_same : SameAlloc accountsInOrder accountsReversed := by
  intro address
  unfold accountsInOrder accountsReversed
  by_cases hfirst : address = Address.ofNat 10
  · subst hfirst
    exact .some ⟨rfl, slots_same, rfl, rfl⟩
  · rw [AList.lookup_insert_ne hfirst]
    by_cases hsecond : address = Address.ofNat 11
    · subst hsecond
      exact .some ⟨rfl, fun key => (slots_same key).symm, rfl, rfl⟩
    · rw [AList.lookup_insert_ne hsecond, AList.lookup_insert_ne hfirst, AList.lookup_insert_ne hsecond]
      exact .none

theorem genesis_roots_agree_twoAccounts :
    letI := foldedKeccak
    ∃ root store hash, (twoAccounts.computeStateRoot : Outcome StoreError H256) = .ok root ∧
      (Store.setupGenesisStateTrie accountsReversed Store.new).1 = .ok root ∧
      Store.addInitialState twoAccounts Store.new = (.ok (), store) ∧ ReadsAlloc store 0 hash accountsInOrder := by
  let := foldedKeccak
  have hE : ∀ x ∈ [RLP_NULL] :: genesisEncodings twoAccounts accountsReversed,
      ∀ y ∈ [RLP_NULL] :: genesisEncodings twoAccounts accountsReversed, kec x = kec y → x = y := by decide +kernel
  have hcodes : ∀ c ∈ (entriesOf accountsInOrder).map fun entry => entry.2.code,
      ∀ d ∈ (entriesOf accountsInOrder).map fun entry => entry.2.code, Core.codeHash c = Core.codeHash d → c = d := by
    decide +kernel
  refine genesis_roots_agree (foldedKeccak_injective (by decide)) (foldedKeccak_injective (by decide)) twoAccounts
    accountsReversed accounts_same (fun x hx y hy => hE x hx y hy) fun c hc d hd => hcodes c ?_ d ?_
  · obtain ⟨address, account, haccount, rfl⟩ := hc
    exact List.mem_map_of_mem (mem_entriesOf.mpr haccount)
  · obtain ⟨address, account, haccount, rfl⟩ := hd
    exact List.mem_map_of_mem (mem_entriesOf.mpr haccount)

end EthereumRust.Storage
