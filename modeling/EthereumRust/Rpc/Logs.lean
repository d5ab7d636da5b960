import EthereumRust.Core.Fees
import EthereumRust.Rpc.Eth
import EthereumRust.Rpc.Params

/-! # Queries for logs: `crates/rpc/eth/logs.rs`

`eth_getLogs` on a request that was parsed, and that it agrees with the receipts of `eth_getBlockReceipts`. -/

namespace EthereumRust.Rpc
open Rlp Mpt Core Storage Evm Blockchain Engine List Outcome

inductive AddressFilter where
  | single (address : Address)
  | many (addresses : List Address)
  deriving DecidableEq

inductive TopicFilter where
  | topic (topic : Option H256)
  | topics (topics : List (Option H256))
  deriving DecidableEq

structure LogsRequest where
  fromBlock : BlockIdentifier
  toBlock : BlockIdentifier
  addressFilters : Option AddressFilter
  topics : List TopicFilter
  deriving DecidableEq

/-- The addresses of the filter; the set of the source is a list here. -/
def AddressFilter.addresses : Option AddressFilter → List Address
  | some (.single address) => [address]
  | some (.many addresses) => addresses
  | none => []

def passesAddress (addressFilter : List Address) (log : RpcLog) : Bool :=
  addressFilter.isEmpty || addressFilter.contains log.log.address

def TopicFilter.passes (topic : H256) : TopicFilter → Bool
  | .topic none => true
  | .topic (some t) => topic == t
  | .topics subTopics => subTopics.isEmpty || subTopics.any fun st => st.all (topic == ·)

def passesTopics (topics : List TopicFilter) (log : RpcLog) : Bool :=
  if topics.length > log.log.topics.length then false
  else (topics.zip log.log.topics).all fun (filter, topic) => filter.passes topic

/-- The loop over the logs of a receipt, and the number of the next log. -/
def receiptLogs (addressFilter : List Address) (rpcLog : Log → UInt64 → RpcLog) (blockLogIndex : UInt64) :
    List Log → Outcome RpcErr (List RpcLog × UInt64)
  | [] => .ok ([], blockLogIndex)
  | log :: rest => do
    let next ← Rust.u64Add blockLogIndex 1
    let (logs, last) ← receiptLogs addressFilter rpcLog next rest
    let pushed := rpcLog log blockLogIndex
    pure (if passesAddress addressFilter pushed then pushed :: logs else logs, last)

section

variable [Keccak256]

/-- The loop over the transactions of a block from an index on. Failed ones are left out. -/
def transactionLogs (addressFilter : List Address) (receiptAt : Index → Option Receipt) (blockNum : BlockNumber)
    (blockHash : BlockHash) (blockLogIndex : UInt64) (txIndex : Nat) : List Transaction → Outcome RpcErr (List RpcLog)
  | [] => .ok []
  | tx :: transactions =>
    match receiptAt (UInt64.ofNat txIndex) with
    | none => .error (.error .internal)
    | some receipt =>
      if receipt.succeeded then do
        let rpcLog (log : Log) (logIndex : UInt64) : RpcLog :=
          ⟨log, logIndex, false, tx.computeHash, UInt64.ofNat txIndex, blockHash, blockNum⟩
        let (logs, blockLogIndex) ← receiptLogs addressFilter rpcLog blockLogIndex receipt.logs
        let rest ← transactionLogs addressFilter receiptAt blockNum blockHash blockLogIndex (txIndex + 1) transactions
        pure (logs ++ rest)
      else transactionLogs addressFilter receiptAt blockNum blockHash blockLogIndex (txIndex + 1) transactions

def blockLogs (addressFilter : List Address) (storage : Store) : List BlockNumber → Outcome RpcErr (List RpcLog)
  | [] => .ok []
  | blockNum :: blocks =>
    match storage.getBlockBody blockNum, storage.getBlockHeader blockNum with
    | some blockBody, some blockHeader => do
      let logs ← transactionLogs addressFilter (storage.getReceipt blockNum) blockNum blockHeader.computeBlockHash 0 0
        blockBody.transactions
      let rest ← blockLogs addressFilter storage blocks
      pure (logs ++ rest)
    | _, _ => .error (.error .internal)

def LogsRequest.handle (self : LogsRequest) (storage : Store) : Outcome RpcErr (List RpcLog) :=
  match self.fromBlock.resolveBlockNumber storage, self.toBlock.resolveBlockNumber storage with
  | none, _ => .error (.error (.wrongParam "fromBlock"))
  | some _, none => .error (.error (.wrongParam "toBlock"))
  | some first, some last => do
    let logs ← blockLogs (AddressFilter.addresses self.addressFilters) storage
      (blockNumbers first.toNat (last.toNat + 1 - first.toNat))
    pure (if self.topics.isEmpty then logs else logs.filter (passesTopics self.topics))

end

/-! ## What a filter selects -/

/-- A missing topic and an empty list of alternatives stand for any topic. -/
def TopicFilter.Admits (topic : H256) : TopicFilter → Prop
  | .topic expected => expected = none ∨ expected = some topic
  | .topics alternatives => alternatives = [] ∨ none ∈ alternatives ∨ some topic ∈ alternatives

structure LogsRequest.Selects (request : LogsRequest) (log : RpcLog) : Prop where
  address : AddressFilter.addresses request.addressFilters = [] ∨
    log.log.address ∈ AddressFilter.addresses request.addressFilters
  positions : request.topics.length ≤ log.log.topics.length
  topics : ∀ (i : Nat) filter topic,
    request.topics[i]? = some filter → log.log.topics[i]? = some topic → filter.Admits topic

section

variable {request : LogsRequest}

theorem TopicFilter.passes_iff {filter : TopicFilter} {topic} : filter.passes topic ↔ filter.Admits topic := by
  match filter with
  | .topic none => simp [passes, Admits]
  | .topic (some t) =>
    rw [passes, Admits, beq_iff_eq, Option.some_inj]
    exact ⟨fun h => .inr h.symm, fun h => (h.resolve_left nofun).symm⟩
  | .topics alternatives =>
    simp only [passes, Bool.or_eq_true, List.isEmpty_iff, List.any_eq_true]
    refine or_congr_right ⟨?_, ?_⟩
    · rintro ⟨_ | t, hmem, h⟩
      · exact .inl hmem
      · obtain rfl : topic = t := beq_iff_eq.mp h
        exact .inr hmem
    · rintro (hmem | hmem)
      · exact ⟨none, hmem, rfl⟩
      · exact ⟨some topic, hmem, beq_self_eq_true topic⟩

theorem passesTopics_iff {topics} :
    passesTopics topics log ↔ topics.length ≤ log.log.topics.length ∧
      ∀ (i : Nat) filter topic, topics[i]? = some filter → log.log.topics[i]? = some topic → filter.Admits topic := by
  unfold passesTopics
  split_ifs with hlength
  · simp only [false_iff]
    omega
  · simp only [all_eq_true, TopicFilter.passes_iff, Prod.forall, not_lt.mp hlength, true_and]
    constructor
    · intro h i filter topic hfilter htopic
      exact h filter topic (mem_of_getElem? (List.getElem?_zip_eq_some.mpr ⟨hfilter, htopic⟩))
    · intro h filter topic hmem
      obtain ⟨i, hi⟩ := List.getElem?_of_mem hmem
      obtain ⟨hfilter, htopic⟩ := List.getElem?_zip_eq_some.mp hi
      exact h i filter topic hfilter htopic

theorem LogsRequest.selects_iff :
    request.Selects log ↔
      passesAddress (AddressFilter.addresses request.addressFilters) log && passesTopics request.topics log := by
  rw [Bool.and_eq_true, passesTopics_iff, passesAddress, Bool.or_eq_true, List.isEmpty_iff, List.contains_iff_mem]
  exact ⟨fun h => ⟨h.address, h.positions, h.topics⟩, fun h => ⟨h.1, h.2.1, h.2.2⟩⟩

instance (request : LogsRequest) : DecidablePred request.Selects := fun _ => decidable_of_iff' _ LogsRequest.selects_iff

end

/-! ## Agreement with the receipts -/

/-- What is known of the blocks and receipts that a store holds. A receipt's logs are counted by a `u64`. -/
structure StoredChain (storage : Store) : Prop where
  numbers : ∀ number header, storage.getBlockHeader number = some header → header.number = number
  genesis : ∀ number header body, storage.getBlockHeader number = some header →
    storage.getBlockBody number = some body → header.parentHash = H256.zero → body.transactions = []
  failed : ∀ number index receipt, storage.getReceipt number index = some receipt →
    receipt.succeeded = false → receipt.logs = []
  counted : ∀ number index receipt, storage.getReceipt number index = some receipt → receipt.logs.length < 2 ^ 64

section

variable [Keccak256] [Secp256k1] [Alloy]

def Listed (storage : Store) (number : BlockNumber) (receipts : List RpcReceipt) : Prop :=
  ∃ header body, storage.getBlockHeader number = some header ∧ storage.getBlockBody number = some body ∧
    getAllBlockRpcReceipts number header body storage = .ok receipts

omit [Keccak256] [Secp256k1] [Alloy] in
theorem receiptLogs_eq {rpcLog : Log → UInt64 → RpcLog} {logs : List Log} {index : UInt64}
    (h : index.toNat + logs.length < Rust.wordSize) :
    receiptLogs addressFilter rpcLog index logs =
      .ok ((logs.zipIdx.map fun (log, i) => rpcLog log (index + UInt64.ofNat i)).filter (passesAddress addressFilter),
        index + UInt64.ofNat logs.length) := by
  induction logs generalizing index with
  | nil => simp [receiptLogs]
  | cons log logs ih =>
    rw [length_cons] at h ⊢
    have hnext : (index + 1).toNat = index.toNat + 1 :=
      Nat.mod_eq_of_lt (show index.toNat + 1 < 2 ^ 64 by unfold Rust.wordSize at h; omega)
    have hshift (i : Nat) : index + 1 + UInt64.ofNat i = index + UInt64.ofNat (i + 1) := by
      rw [UInt64.ofNat_add, UInt64.add_assoc, UInt64.add_comm 1]
      rfl
    have hfirst : index + UInt64.ofNat 0 = index := UInt64.add_zero index
    rw [receiptLogs, Rust.u64Add_eq_ok.mpr hnext, bind_ok, ih (by omega)]
    simp only [hshift, hfirst, zipIdx_cons, zipIdx_succ, map_cons, map_map, filter_cons]
    rfl

/-- The receipts of a block and the loop over its transactions number the logs alike: a failed transaction has none. -/
theorem transactionLogs_eq (addressFilter : List Address) {receiptAt : Index → Option Receipt}
    (hfailed : ∀ i receipt, receiptAt i = some receipt → receipt.succeeded = false → receipt.logs = [])
    (hcounted : ∀ i receipt, receiptAt i = some receipt → receipt.logs.length < 2 ^ 64)
    (h : rpcReceiptsFrom receiptAt blobGasPrice blockInfo last current index transactions = .ok receipts) :
    transactionLogs addressFilter receiptAt blockInfo.blockNumber blockInfo.blockHash current index transactions =
      .ok ((receipts.flatMap RpcReceipt.logs).filter (passesAddress addressFilter)) := by
  induction transactions generalizing last current index receipts with
  | nil =>
    cases h
    rfl
  | cons tx transactions ih =>
    rw [rpcReceiptsFrom] at h
    rw [transactionLogs]
    cases hreceipt : receiptAt (UInt64.ofNat index) with
    | none =>
      rw [hreceipt] at h
      cases h
    | some receipt =>
      rw [hreceipt] at h
      obtain ⟨gasUsed, -, h⟩ := bind_ok_inv h
      obtain ⟨txInfo, htxInfo, h⟩ := bind_ok_inv h
      obtain ⟨last', -, h⟩ := bind_ok_inv h
      obtain ⟨current', hcurrent, h⟩ := bind_ok_inv h
      obtain ⟨rest, hrest, h⟩ := bind_ok_inv h
      cases h
      obtain ⟨sender, -, htxInfo⟩ := bind_ok_inv htxInfo
      cases htxInfo
      have hcount := hcounted _ _ hreceipt
      have hlength : (UInt64.ofNat receipt.logs.length).toNat = receipt.logs.length := UInt64.toNat_ofNat_of_lt hcount
      simp only [RpcReceipt.new, length_map, length_zipIdx] at hcurrent
      have hnext := Rust.u64Add_eq_ok.mp hcurrent
      have hword := Rust.toNat_lt_wordSize current'
      obtain rfl : current + UInt64.ofNat receipt.logs.length = current' := by
        rw [Rust.u64Add, if_pos (by omega)] at hcurrent
        exact Except.ok.inj hcurrent
      rw [flatMap_cons, filter_append]
      cases hsucceeded : receipt.succeeded with
      | true =>
        simp only [hsucceeded]
        rw [receiptLogs_eq (by omega), bind_ok, ih hrest]
        rfl
      | false =>
        have hnone := hfailed _ _ hreceipt hsucceeded
        have hsame : current + UInt64.ofNat receipt.logs.length = current := by simp [hnone]
        rw [hsame] at hrest
        simp only [hsucceeded, ih hrest, RpcReceipt.new, hnone]
        rfl

theorem blockLogs_eq (chain : StoredChain storage)
    (h : List.Forall₂ (Listed storage) blocks listed) :
    blockLogs addressFilter storage blocks =
      .ok ((listed.flatten.flatMap RpcReceipt.logs).filter (passesAddress addressFilter)) := by
  induction h with
  | nil => rfl
  | @cons number receipts blocks listed hfirst hrest ih =>
    obtain ⟨header, body, hheader, hbody, hreceipts⟩ := hfirst
    have hlogs : transactionLogs addressFilter (storage.getReceipt number) number header.computeBlockHash 0 0
        body.transactions = .ok ((receipts.flatMap RpcReceipt.logs).filter (passesAddress addressFilter)) := by
      unfold getAllBlockRpcReceipts at hreceipts
      split_ifs at hreceipts with hgenesis
      · cases hreceipts
        rw [chain.genesis number header body hheader hbody hgenesis]
        rfl
      · obtain ⟨parent, -, hreceipts⟩ := bind_ok_inv hreceipts
        obtain ⟨blobGasPrice, -, hreceipts⟩ := bind_ok_inv hreceipts
        have hblock := transactionLogs_eq addressFilter (chain.failed number) (chain.counted number) hreceipts
        rwa [RpcReceiptBlockInfo.fromBlockHeader, chain.numbers number header hheader] at hblock
    simp only [blockLogs, hbody, hheader, hlogs, ih]
    rw [flatten_cons, flatMap_append, filter_append]
    rfl

end

/-- The logs of a range of blocks are those of its receipts that the filter selects, in the same order and with the same
numbers. -/
theorem logs_agree_with_receipts [Keccak256] [Secp256k1] [Alloy] {storage : Store} (chain : StoredChain storage)
    (request : LogsRequest) {first last : BlockNumber}
    (hfirst : request.fromBlock.resolveBlockNumber storage = some first)
    (hlast : request.toBlock.resolveBlockNumber storage = some last) {listed : List (List RpcReceipt)}
    (hlisted : List.Forall₂ (Listed storage) (blockNumbers first.toNat (last.toNat + 1 - first.toNat)) listed) :
    request.handle storage = .ok ((listed.flatten.flatMap RpcReceipt.logs).filter request.Selects) := by
  have hselects : (fun log => decide (request.Selects log)) = fun log =>
      passesTopics request.topics log && passesAddress (AddressFilter.addresses request.addressFilters) log := by
    funext log
    rw [Bool.and_comm, Bool.eq_iff_iff, decide_eq_true_iff, LogsRequest.selects_iff]
  simp only [LogsRequest.handle, hfirst, hlast, blockLogs_eq chain hlisted, hselects,
    ← List.filter_filter]
  split_ifs with htopics
  · have hall : passesTopics request.topics = fun _ => true := by
      funext log
      rw [List.isEmpty_iff.mp htopics]
      rfl
    rw [hall, List.filter_true]
    rfl
  · rfl

def receiptWithLogs : Receipt :=
  ⟨.eip1559, true, 21000, Bloom.zero, [⟨Address.ofNat 7, [], ⟨[]⟩⟩, ⟨Address.ofNat 7, [H256.ofNat 5], ⟨[]⟩⟩]⟩

def storeWithLogs : Store :=
  { Store.new with
    blockNumbers := AList.insert (H256.ofNat 10) 0 ∅
    canonicalHashes := AList.insert 0 (H256.ofNat 10) (AList.insert 1 (H256.ofNat 11) ∅)
    headers := AList.insert (H256.ofNat 10) { headerWithExcess 0 with number := 0 }
      (AList.insert (H256.ofNat 11) { headerWithExcess 0 with parentHash := H256.ofNat 10 } ∅)
    bodies := AList.insert (H256.ofNat 10) ⟨[], [], none⟩ (AList.insert (H256.ofNat 11)
      ⟨[.eip1559Transaction ⟨1, 0, 1, 1, 21000, .call (Address.ofNat 7), 0, ⟨[]⟩, [], false, 0, 0⟩], [], none⟩ ∅)
    receipts := AList.insert (H256.ofNat 11) (AList.insert 0 receiptWithLogs ∅) ∅ }

theorem getCanonicalBlockHash_storeWithLogs {number hash}
    (h : storeWithLogs.getCanonicalBlockHash number = some hash) : number = 0 ∨ number = 1 := by
  by_contra hother
  rw [not_or] at hother
  have hnone : storeWithLogs.getCanonicalBlockHash number = none := by
    change (AList.insert 0 (H256.ofNat 10) (AList.insert 1 (H256.ofNat 11) ∅) :
      HashMap BlockNumber BlockHash).lookup number = none
    rw [AList.lookup_insert_ne hother.1, AList.lookup_insert_ne hother.2]
    rfl
  rw [hnone] at h
  cases h

theorem getReceipt_storeWithLogs {number index receipt}
    (h : storeWithLogs.getReceipt number index = some receipt) : receipt = receiptWithLogs := by
  obtain ⟨hash, hhash, -⟩ := Option.bind_eq_some_iff.mp h
  rcases getCanonicalBlockHash_storeWithLogs hhash with rfl | rfl
  · cases h
  · change (AList.insert 0 receiptWithLogs ∅ : HashMap Index Receipt).lookup index = some receipt at h
    by_cases hindex : index = 0
    · rw [hindex] at h
      exact (Option.some.inj h).symm
    · rw [AList.lookup_insert_ne hindex] at h
      cases h

theorem storedChain_storeWithLogs : StoredChain storeWithLogs where
  numbers number header h := by
    obtain ⟨hash, hhash, -⟩ := Option.bind_eq_some_iff.mp h
    rcases getCanonicalBlockHash_storeWithLogs hhash with rfl | rfl <;> exact Option.some.inj h ▸ rfl
  genesis number header body hheader hbody hzero := by
    obtain ⟨hash, hhash, -⟩ := Option.bind_eq_some_iff.mp hheader
    rcases getCanonicalBlockHash_storeWithLogs hhash with rfl | rfl
    · exact Option.some.inj hbody ▸ rfl
    · cases hheader
      exact absurd hzero (by decide)
  failed number index receipt h hsucceeded := by
    rw [getReceipt_storeWithLogs h] at hsucceeded
    cases hsucceeded
  counted number index receipt h := by
    rw [getReceipt_storeWithLogs h]
    decide

@[reducible] def oneKey : Secp256k1 where
  recover _ _ _ := some ⟨List.replicate 64 0, rfl⟩

def requestForTopic : LogsRequest := ⟨.number 0, .number 1, none, [.topics [some (H256.ofNat 5)]]⟩

/-- One of the two logs is selected. -/
theorem logs_agree_with_receipts_storeWithLogs :
    letI := Keccak256.ofTable []
    letI := oneKey
    letI := noCreation
    StoredChain storeWithLogs ∧ ∃ listed,
      List.Forall₂ (Listed storeWithLogs) (blockNumbers (0 : BlockNumber).toNat 2) listed ∧
      (listed.flatten.flatMap RpcReceipt.logs).length = 2 ∧
      requestForTopic.handle storeWithLogs =
        .ok ((listed.flatten.flatMap RpcReceipt.logs).filter requestForTopic.Selects) := by
  let := Keccak256.ofTable []
  let := oneKey
  let := noCreation
  have hfirst : getAllBlockRpcReceipts 0 { headerWithExcess 0 with number := 0 }
      ⟨[], [], none⟩ storeWithLogs = .ok [] :=
    rfl
  have hsecond : (do
      let receipts ← getAllBlockRpcReceipts 1 { headerWithExcess 0 with parentHash := H256.ofNat 10 }
        ⟨[.eip1559Transaction ⟨1, 0, 1, 1, 21000, .call (Address.ofNat 7), 0, ⟨[]⟩, [], false, 0, 0⟩],
          [], none⟩ storeWithLogs
      pure (receipts.flatMap RpcReceipt.logs).length) = .ok 2 := by
    decide +kernel
  obtain ⟨receipts, hreceipts, hcount⟩ := Outcome.bind_ok_inv hsecond
  have hlisted : List.Forall₂ (Listed storeWithLogs) (blockNumbers (0 : BlockNumber).toNat 2) [[], receipts] :=
    .cons ⟨_, _, rfl, rfl, hfirst⟩ (.cons ⟨_, _, rfl, rfl, hreceipts⟩ .nil)
  exact ⟨storedChain_storeWithLogs, [[], receipts], hlisted, by simpa using Except.ok.inj hcount,
    logs_agree_with_receipts storedChain_storeWithLogs requestForTopic rfl rfl hlisted⟩

end EthereumRust.Rpc
