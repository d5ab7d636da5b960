import EthereumRust.Blockchain.AddBlock
import EthereumRust.Storage.Frame

/-! # What `add_block` accepts, and what it writes

An accepted block passed every check and is the latest one. A rejected one leaves the chain alone. -/

namespace EthereumRust.Blockchain
open Rlp Mpt Core Storage Evm Outcome

/-! ## Headers that pass -/

section

variable [Keccak256] {ε : Type}

/-- What the checks say about a header and its parent's, apart from the fees. -/
structure HeaderFollows (header parent : BlockHeader) : Prop where
  number : header.number.toNat = parent.number.toNat + 1
  timestamp : parent.timestamp < header.timestamp
  parentHash : header.parentHash = parent.computeBlockHash
  difficulty : header.difficulty = 0

theorem fieldsFollow_true
    (h : (fieldsFollow header parent fee : Outcome ε Bool) = .ok true) : HeaderFollows header parent := by
  unfold fieldsFollow at h
  split at h
  · rename_i hc
    obtain ⟨next, hnext, h⟩ := bind_ok_inv h
    simp only [pure_eq, Except.ok.injEq, Bool.and_eq_true, decide_eq_true_eq] at h
    obtain ⟨⟨⟨⟨⟨hnum, -⟩, hdiff⟩, -⟩, -⟩, hparent⟩ := h
    exact ⟨by rw [hnum, Rust.u64Add_eq_ok.mp hnext]; rfl, hc.2, hparent, hdiff⟩
  · cases h

theorem validateBlockHeader_true
    (h : (validateBlockHeader header parent : Outcome ε Bool) = .ok true) :
    HeaderFollows header parent := by
  unfold validateBlockHeader at h
  split at h
  · cases h
  · obtain ⟨baseFee, -, h⟩ := bind_ok_inv h
    cases baseFee with
    | none => cases h
    | some fee => exact fieldsFollow_true h

theorem validHeader_true
    (h : validHeader spec header parent = .ok true) : HeaderFollows header parent := by
  obtain ⟨valid, hvalid, h⟩ := bind_ok_inv h
  cases valid with
  | false => cases h
  | true => exact validateBlockHeader_true hvalid

theorem validateBlock_ok
    (h : validateBlock block parent s = .ok ()) : HeaderFollows block.header parent := by
  obtain ⟨spec, -, h⟩ := bind_ok_inv h
  obtain ⟨valid, hvalid, h⟩ := bind_ok_inv h
  cases valid with
  | false => cases h
  | true => exact validHeader_true hvalid

omit [Keccak256] in
theorem findParentHeader_ok
    (h : findParentHeader header s = .ok parent) :
    ∃ n, s.getBlockNumber header.parentHash = some n ∧ s.getBlockHeader n = some parent := by
  unfold findParentHeader at h
  split at h
  · rename_i n hn
    split at h
    · rename_i p hp
      obtain rfl : p = parent := by simpa using h
      exact ⟨n, hn, hp⟩
    · cases h
  · cases h

end

/-! ## Blocks that pass -/

section

variable [Keccak256] [Secp256k1] [EthBloom] [Revm]

/-- The checks that `block` passes in the state `s`, what it executed to, and the state `s'` in
which it is stored. -/
structure Passes (s s' : Store) (block : Block) (parent : BlockHeader) (receipts : List Receipt)
    (updates : List AccountUpdate) (root : Option H256) : Prop where
  parentCanonical : validateParentCanonical block s = .ok ()
  found : findParentHeader block.header s = .ok parent
  valid : validateBlock block parent s = .ok ()
  executed : executeOver s block = .ok (receipts, updates)
  gasUsed : validateGasUsed receipts block.header = .ok ()
  applied : Store.applyAccountUpdates block.header.parentHash updates s = (.ok root, s')
  stateRoot : validateStateRoot block.header (root.getD H256.zero) = .ok ()

theorem checkBlock_ok
    (h : checkBlock block s = (.ok receipts, s')) :
    ∃ parent updates root, Passes s s' block parent receipts updates root := by
  obtain ⟨_, hcanonical, h⟩ := Exec.reads_bind_ok_inv h
  obtain ⟨parent, hparent, h⟩ := Exec.reads_bind_ok_inv h
  obtain ⟨_, hvalid, h⟩ := Exec.reads_bind_ok_inv h
  obtain ⟨⟨receipts', updates⟩, hexec, h⟩ := Exec.reads_bind_ok_inv h
  obtain ⟨_, hgas, h⟩ := Exec.reads_bind_ok_inv h
  obtain ⟨root, s₁, happlied, h⟩ := Exec.bind_ok_inv h
  obtain ⟨_, hroot, h⟩ := Exec.reads_bind_ok_inv h
  obtain ⟨hr, rfl⟩ := Prod.mk.inj h
  obtain rfl : receipts' = receipts := by simpa using hr
  exact ⟨parent, updates, root, hcanonical, hparent, hvalid, hexec, hgas,
    Exec.mapErr_ok_inv happlied, hroot⟩

theorem keeps_checkBlock (block : Block) : Exec.Keeps Store.chainPart (checkBlock block) :=
  .bind (.reads _) fun _ => .bind (.reads _) fun _ => .bind (.reads _) fun _ => .bind (.reads _) fun _ =>
    .bind (.reads _) fun _ => .bind (.mapErr (Store.keeps_applyAccountUpdates _ _) _) fun _ =>
      .bind (.reads _) fun _ => .pure _

omit [Keccak256] [Secp256k1] [EthBloom] [Revm] in
theorem storeReceipts_eq (self : Store) (receipts : List Receipt) (blockHash : BlockHash) :
    ∃ r, storeReceipts self receipts blockHash = { self with receipts := r } := by
  unfold storeReceipts
  generalize receipts.zipIdx = indexed
  induction indexed generalizing self with
  | nil => exact ⟨_, rfl⟩
  | cons entry rest ih =>
    obtain ⟨r, hr⟩ := ih (self.addReceipt blockHash (UInt64.ofNat entry.2) entry.1)
    exact ⟨r, hr⟩

/-- An added block passed the checks and is stored in the state that its execution left. -/
structure Added (s s' : Store) (block : Block) : Prop where
  passes : ∃ s₁ parent receipts updates root, Passes s s₁ block parent receipts updates root ∧
    s₁.chainPart = s.chainPart ∧
    ∃ difficulty, s' = storeReceipts (s₁.withBlock block difficulty) receipts block.header.computeBlockHash

theorem addBlock_ok (h : addBlock block s = (.ok (), s')) :
    Added s s' block := by
  obtain ⟨receipts, s₁, hcheck, h⟩ := Exec.bind_ok_inv h
  obtain ⟨_, s₂, hstore, h⟩ := Exec.bind_ok_inv h
  obtain ⟨difficulty, -, hmod⟩ := Exec.reads_bind_ok_inv (Exec.mapErr_ok_inv hstore)
  obtain rfl : s₁.withBlock block difficulty = s₂ := congrArg Prod.snd hmod
  obtain ⟨parent, updates, root, hpass⟩ := checkBlock_ok hcheck
  have hkeeps : s₁.chainPart = s.chainPart := by
    have := keeps_checkBlock block s
    rwa [hcheck] at this
  exact ⟨s₁, parent, receipts, updates, root, hpass, hkeeps, difficulty, (congrArg Prod.snd h).symm⟩

theorem Added.chain (h : Added s s' block) :
    s'.chain = s.chain.withBlock block := by
  obtain ⟨s₁, -, receipts, -, -, -, hkeeps, difficulty, rfl⟩ := h.passes
  obtain ⟨r, hr⟩ := storeReceipts_eq (s₁.withBlock block difficulty) receipts block.header.computeBlockHash
  rw [hr, ← Store.chain_of_chainPart hkeeps, ← Store.chain_withBlock]
  rfl

theorem addBlock_error
    (h : addBlock block s = (.error e, s')) : s'.chainPart = s.chainPart := by
  rcases Exec.bind_error_inv h with hcheck | ⟨receipts, s₁, hcheck, h⟩
  · have := keeps_checkBlock block s
    rwa [hcheck] at this
  · have hkeep : s₁.chainPart = s.chainPart := by
      have := keeps_checkBlock block s
      rwa [hcheck] at this
    -- after the checks only the sum of the difficulties can fail
    rcases Exec.bind_error_inv h with hstore | ⟨_, _, -, hreceipts⟩
    · obtain ⟨e', hstore⟩ := Exec.mapErr_error_inv hstore
      rcases Exec.bind_error_inv hstore with hsum | ⟨_, _, -, hwrite⟩
      · have hs : s₁ = s' := congrArg Prod.snd hsum
        exact hs ▸ hkeep
      · cases hwrite
    · cases hreceipts

/-! ## What an accepted header says -/

def transactionResults (header : BlockHeader) (spec : SpecId) : List Transaction → EvmM (List ExecutionResult)
  | [] => pure []
  | transaction :: transactions => do
    let result ← executeTx transaction header spec
    let results ← transactionResults header spec transactions
    pure (result :: results)

def blockResults (block : Block) : EvmM (List ExecutionResult) := do
  let spec ← Exec.reads fun s => specId s.store block.header.timestamp
  beaconRootCall block.header spec
  transactionResults block.header spec block.body.transactions

def totalGas (results : List ExecutionResult) : Nat := (results.map fun result => result.gasUsed.toNat).sum

theorem executeTransactions_ok :
    ∀ {gas : UInt64} {s s' : EvmState} {receipts : List Receipt},
    executeTransactions header spec gas transactions s = (.ok receipts, s') →
    ∃ results, transactionResults header spec transactions s = (.ok results, s') ∧
      receipts.length = transactions.length ∧
      ∀ last ∈ receipts.getLast?, last.cumulativeGasUsed.toNat = gas.toNat + totalGas results := by
  induction transactions with
  | nil =>
    intro gas s s' receipts h
    cases h
    exact ⟨[], rfl, rfl, nofun⟩
  | cons transaction transactions ih =>
    intro gas s s' receipts h
    obtain ⟨result, s₁, hresult, h⟩ := Exec.bind_ok_inv h
    obtain ⟨gas', hgas, h⟩ := Exec.reads_bind_ok_inv h
    obtain ⟨receipts', s₂, hrest, h⟩ := Exec.bind_ok_inv h
    obtain ⟨results, hresults, hlength, hlast⟩ := ih hrest
    obtain ⟨hr, rfl⟩ := Prod.mk.inj h
    cases hr
    refine ⟨result :: results, ?_, by simp [hlength], ?_⟩
    · rw [transactionResults, Exec.run_bind_ok hresult, Exec.run_bind_ok hresults]
      rfl
    · intro last hmem
      have hgas := Rust.u64Add_eq_ok.mp hgas
      have htotal : totalGas (result :: results) = result.gasUsed.toNat + totalGas results := by
        simp [totalGas]
      rcases List.eq_nil_or_concat receipts' with rfl | ⟨front, back, rfl⟩
      · -- the last transaction: its receipt has the gas of the ones before and its own
        obtain rfl : transactions = [] := by simpa using hlength.symm
        cases hresults
        obtain rfl : Receipt.new transaction.txType result.isSuccess gas' result.logs = last := by
          simpa using hmem
        exact hgas
      · rw [List.getLast?_cons_of_ne_nil (by simp)] at hmem
        rw [hlast last hmem, hgas]
        omega

theorem executeBlock_ok {s s'}
    (h : executeBlock block s = (.ok receipts, s')) :
    ∃ results, (blockResults block s).1 = .ok results ∧ receipts.length = block.body.transactions.length ∧
      ∀ last ∈ receipts.getLast?, last.cumulativeGasUsed.toNat = totalGas results := by
  obtain ⟨spec, hspec, h⟩ := Exec.reads_bind_ok_inv h
  obtain ⟨_, s₁, hcall, h⟩ := Exec.bind_ok_inv h
  obtain ⟨receipts', s₂, hrun, h⟩ := Exec.bind_ok_inv h
  obtain rfl : receipts' = receipts := by
    cases hw : block.body.withdrawals with
    | none =>
      rw [hw] at h
      simpa using congrArg Prod.fst h
    | some withdrawals =>
      rw [hw] at h
      obtain ⟨_, s₃, -, h⟩ := Exec.bind_ok_inv h
      simpa using congrArg Prod.fst h
  obtain ⟨results, hresults, hlength, hlast⟩ := executeTransactions_ok hrun
  refine ⟨results, ?_, hlength, fun last hmem => by simpa using hlast last hmem⟩
  rw [blockResults, Exec.run_bind, Exec.run_reads, hspec]
  simp only
  rw [Exec.run_bind_ok hcall, hresults]

theorem executeOver_ok
    (h : executeOver s block = .ok (receipts, updates)) :
    ∃ s', executeBlock block (evmState s block.header.parentHash) = (.ok receipts, s') := by
  unfold executeOver at h
  split at h
  · rename_i receipts' s' hrun
    cases h
    exact ⟨s', hrun⟩
  · rename_i e _ _
    rcases e with e | m | _ <;> cases h

/-- The state root of an accepted block is that of its execution, and the gas it names is what its
transactions used, if it has any. Nothing is said about the other roots and the bloom filter: no
check reads them. -/
theorem accepted_block_commits (block : Block) (s s' : Store) (h : addBlock block s = (.ok (), s')) :
    (∃ receipts updates root, executeOver s block = .ok (receipts, updates) ∧
      (Store.applyAccountUpdates block.header.parentHash updates s).1 = .ok root ∧
      block.header.stateRoot = root.getD H256.zero) ∧
    ∃ results, (blockResults block (evmState s block.header.parentHash)).1 = .ok results ∧
      (block.body.transactions ≠ [] → block.header.gasUsed.toNat = totalGas results) := by
  obtain ⟨s₁, _, receipts, updates, root, hpass, -, -⟩ := (addBlock_ok h).passes
  refine ⟨⟨receipts, updates, root, hpass.executed, by rw [hpass.applied], ?_⟩, ?_⟩
  · have hroot := hpass.stateRoot
    unfold validateStateRoot at hroot
    split at hroot
    · rename_i heq
      exact heq.symm
    · cases hroot
  · obtain ⟨s₂, hrun⟩ := executeOver_ok hpass.executed
    obtain ⟨results, hresults, hlength, hlast⟩ := executeBlock_ok hrun
    refine ⟨results, hresults, fun hne => ?_⟩
    obtain ⟨last, hmem⟩ : ∃ last, receipts.getLast? = some last := by
      cases hr : receipts.getLast? with
      | some last => exact ⟨last, rfl⟩
      | none =>
        obtain rfl := List.getLast?_eq_none_iff.mp hr
        exact absurd (List.eq_nil_of_length_eq_zero hlength.symm) hne
    have hgas := hpass.gasUsed
    rw [validateGasUsed, hmem] at hgas
    simp only [ne_eq, ite_not] at hgas
    split at hgas
    · rename_i heq
      rw [← heq]
      exact hlast last hmem
    · cases hgas

/-! ## The head -/

/-- An added block leaves the canonical entries alone, but its number becomes the latest one. -/
theorem addBlock_keeps_head_iff (block : Block) (s s' : Store) (h : addBlock block s = (.ok (), s')) :
    s'.getCanonicalBlockHash = s.getCanonicalBlockHash ∧
    (s'.getLatestBlockNumber = s.getLatestBlockNumber ↔
      s.getLatestBlockNumber = some block.header.number) := by
  have hchain := (addBlock_ok h).chain
  have hcanonical : s'.canonicalHashes = s.canonicalHashes := congrArg Store.Chain.canonicalHashes hchain
  have hlatest : s'.getLatestBlockNumber = some block.header.number :=
    congrArg Store.Chain.latestBlockNumber hchain
  refine ⟨?_, ?_⟩
  · funext n
    rw [Store.getCanonicalBlockHash, Store.getCanonicalBlockHash, hcanonical]
  · rw [hlatest, eq_comm]

end

/-! ## A small chain -/

def emptyRoot : Nat := 0x56e81f171bcc55a6ff8345e692c0f86e5b48e01b996cadc001622fb5e363b421

def sampleBlock (parentHash : Nat) (number timestamp : UInt64) : Block where
  header := { plainHeader with
    parentHash := H256.ofNat parentHash
    ommersHash := DEFAULT_OMMERS_HASH
    stateRoot := H256.ofNat emptyRoot
    transactionsRoot := H256.ofNat emptyRoot
    receiptsRoot := H256.ofNat emptyRoot
    number
    gasLimit := 30000000
    timestamp
    baseFeePerGas := some 7
    withdrawalsRoot := some (H256.ofNat emptyRoot)
    blobGasUsed := some 0
    excessBlobGas := some 0
    parentBeaconBlockRoot := some H256.zero }
  body := ⟨[], [], some []⟩

def sampleGenesis : Genesis where
  config := { chainId := 1, shanghaiTime := some 0, cancunTime := some 0, terminalTotalDifficulty := some 0 }
  alloc := ∅
  coinbase := Address.ofNat 0
  difficulty := 0
  extraData := ⟨[]⟩
  gasLimit := 30000000
  nonce := 0
  mixHash := H256.zero
  timestamp := 0
  baseFeePerGas := some 7
  blobGasUsed := none
  excessBlobGas := none

def genesisHash : Nat := 0x1ddcf3eacc1d036a75b7fa79d9fadff02ba28735e50e21b883e19d1afeb16416
def hashA1 : Nat := 0xef9b52f818c51510ec9e91871682a6caa05bbee6aec603ab9b909ded15d8f4ca
def hashA2 : Nat := 0x0e5f1b24d451202fe264fe36bcc4db167ee7d2abf0c0a0fb0a1b5d3a39e108a1
def hashB1 : Nat := 0xc57d103e20a5bd7d118b165cb81c4dbe10aaaca53007820ff6ae1779eab08add
def hashC3 : Nat := 0x434b4ea37aeed7d6c20bb4c7d737480ea1954922087dc24f5cfa09b94ea21c9c
def hashUnchecked : Nat := 0x64d04144d6d465898e57840355ccab9be30591f99eb2d0b5686b82ba0505c3ee

def blockA1 : Block := sampleBlock genesisHash 1 12
def blockA2 : Block := sampleBlock hashA1 2 24

def blockB1 : Block := sampleBlock genesisHash 1 13

def blockC3 : Block := sampleBlock hashA2 3 36

def blockUnchecked : Block :=
  { blockA1 with header := { blockA1.header with
      transactionsRoot := H256.zero
      receiptsRoot := H256.zero
      logsBloom := ⟨List.replicate 256 255, List.length_replicate⟩
      gasUsed := 1
      withdrawalsRoot := some H256.zero } }

/-- One wei for the address 7, signed with the key 1. -/
def transfer : LegacyTransaction where
  nonce := 0
  gasPrice := 7
  gas := 21000
  recipient := .call (Address.ofNat 7)
  value := 1
  data := ⟨[]⟩
  v := 27
  r := 0x79be667ef9dcbbac55a06295ce870b07029bfcdb2dce28d959f2815b16f81798
  s := 0x5f2fe60295c923e698b817364678955c8f8968af1b5452845568a0f343982734

def publicKey : FixedBytes 64 :=
  ⟨beBytes 32 0x79be667ef9dcbbac55a06295ce870b07029bfcdb2dce28d959f2815b16f81798 ++
    beBytes 32 0x483ada7726a3c4655da4fbfc0e1108a8fd17b448a68554199c47d08ffb10d4b8, rfl⟩

def creditedRoot : Nat := 0xaeee512eefbfe09b55d290e8a8ad594e5b9c8b3e2c9626b6fefcf809c5922df0

def blockTransfer : Block where
  header := { blockA1.header with stateRoot := H256.ofNat creditedRoot, gasUsed := 21000 }
  body := ⟨[.legacyTransaction transfer], [], some []⟩

@[reducible] def forkKeccak : Keccak256 := Keccak256.ofTable [
  ([0x80], emptyRoot),
  (encode (sampleBlock 0 0 0).header, genesisHash),
  (encode blockA1.header, hashA1),
  (encode blockA2.header, hashA2),
  (encode blockB1.header, hashB1),
  (encode blockC3.header, hashC3),
  (encode blockUnchecked.header, hashUnchecked),
  (encode blockTransfer.header, 0x56ee0f01e234a656c9de1cc7d9eacebde7362accf07482418baceaac68f198d1),
  (transfer.payload.finish, 0xe5717f839bec683a4317b4a077f18a54479c48ba9ccec9e6bb487e24fcd650dd),
  (publicKey.1, 0xc0a6c424ac7157ae408398df7e5f4552091a69125d5dfcb7b8c2659029395bdf),
  (beBytes 20 7, 0x8c3ab0970b73895b8c9959bae685c3a19f45eb5ad89d42b52a340ec4ac204d19),
  (beBytes 36 0xf86aa1208c3ab0970b73895b8c9959bae685c3a19f45eb5ad89d42b52a340ec4ac204d19 ++
    encodeSlice (encode (⟨0, 1, H256.ofNat emptyRoot, EMPTY_KECCACK_HASH⟩ : AccountState)), creditedRoot)]

@[reducible] def noRecovery : Secp256k1 where
  recover _ _ _ := none

@[reducible] def idleRevm : Revm where
  State := Unit
  Account := Unit
  initial := ()
  transact _ _ _ _ _ s := (.ok (.success .stop 0 0 [] (.call ⟨[]⟩), ∅), s)
  commit _ s := s
  incrementBalances _ _ s := (.ok (), s)
  takeBundle s := (∅, s)

/-- Every transaction uses 21000 gas, and the address 7 has one wei in the end. -/
@[reducible] def creditRevm : Revm where
  State := Unit
  Account := Unit
  initial := ()
  transact _ _ _ _ _ s := (.ok (.success .stop 21000 0 [] (.call ⟨[]⟩), ∅), s)
  commit _ s := s
  incrementBalances _ _ s := (.ok (), s)
  takeBundle s := (AList.insert (Address.ofNat 7)
    ⟨some ⟨1, 0, EMPTY_KECCACK_HASH, none⟩, none, ∅, .inMemoryChange⟩ ∅, s)

@[reducible] def oneSigner : Secp256k1 where
  recover _ _ _ := some publicKey

/-- There are no logs. -/
@[reducible] def noBloom : EthBloom where
  accrue bloom _ := bloom

attribute [local instance] forkKeccak noRecovery noBloom idleRevm

def genesisStore : Store :=
  (Store.addInitialState sampleGenesis Store.new).2

def importedStore (blocks : List Block) : Store :=
  blocks.foldl (fun store block => (importBlock block store).2) genesisStore

theorem accepted_block_unchecked :
    (addBlock blockUnchecked genesisStore).1 = .ok () ∧
      (computeTransactionsRoot [] : Outcome ChainError H256) ≠ .ok blockUnchecked.header.transactionsRoot ∧
      (computeReceiptsRoot [] : Outcome ChainError H256) ≠ .ok blockUnchecked.header.receiptsRoot ∧
      (computeWithdrawalsRoot [] : Outcome ChainError H256).map some ≠ .ok blockUnchecked.header.withdrawalsRoot ∧
      blockUnchecked.header.logsBloom ≠ Bloom.zero ∧ blockUnchecked.header.gasUsed ≠ 0 := by
  decide +kernel

theorem accepted_block_commits_sample :
    letI := oneSigner
    letI := creditRevm
    (∃ receipts updates root, executeOver genesisStore blockTransfer = .ok (receipts, updates) ∧
      (Store.applyAccountUpdates blockTransfer.header.parentHash updates genesisStore).1 = .ok root ∧
      blockTransfer.header.stateRoot = root.getD H256.zero) ∧
    ∃ results, (blockResults blockTransfer (evmState genesisStore blockTransfer.header.parentHash)).1 = .ok results ∧
      blockTransfer.header.gasUsed.toNat = totalGas results := by
  let := oneSigner
  let := creditRevm
  obtain ⟨hroot, results, hresults, hgas⟩ :=
    accepted_block_commits blockTransfer genesisStore _ (Exec.eq_of_fst (by decide +kernel))
  exact ⟨hroot, results, hresults, hgas (List.cons_ne_nil _ _)⟩

theorem addBlock_moves_head :
    (addBlock blockA1 genesisStore).1 = .ok () ∧ genesisStore.getLatestBlockNumber = some 0 ∧
      (addBlock blockA1 genesisStore).2.getLatestBlockNumber = some 1 := by
  decide +kernel

theorem addBlock_keeps_head_sample :
    ((addBlock blockB1 (importedStore [blockA1])).2.getLatestBlockNumber = some 1) :=
  ((addBlock_keeps_head_iff blockB1 (importedStore [blockA1]) _
    (Exec.eq_of_fst (by decide +kernel))).2.mpr (by decide +kernel)).trans (by decide +kernel)

end EthereumRust.Blockchain
