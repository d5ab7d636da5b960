import EthereumRust.Blockchain.Accepted
import EthereumRust.Rpc.Eth
import EthereumRust.Storage.Locations

/-! # Which block a query by hash answers for

The handlers read the canonical block with the number of the block. -/

namespace EthereumRust.Rpc
open Rlp Mpt Core Storage Evm Blockchain Engine Outcome

section

variable [Keccak256] [Secp256k1] [Alloy]

def receiptOf (s : Store) (hash : BlockHash) (index : Index) : Option Receipt :=
  (s.receipts.lookup hash).bind fun entry => entry.lookup index

/-- Each query that returns data returns that of the stored block with the hash: the header, body and
total difficulty of the block, a transaction of its body, the number of its transactions, and the
receipts stored for it. The price of blob gas in the receipts is left open: it is not the block's own. -/
structure AnswersFor (s : Store) (hash : BlockHash) : Prop where
  block : ∀ hydrated answer, GetBlockByHashRequest.handle ⟨hash, hydrated⟩ s = .ok (some answer) →
    ∃ block, s.getBlockByHash hash = some block ∧ (RpcBlock.build block.header block.body hash hydrated
      ((s.getBlockTotalDifficulty hash).getD 0) : Outcome RpcErr RpcBlock) = .ok answer
  transaction : ∀ index answer,
    GetTransactionByBlockHashAndIndexRequest.handle ⟨hash, index⟩ s = .ok (some answer) →
    ∃ block tx, s.getBlockByHash hash = some block ∧ block.body.transactions[index]? = some tx ∧
      (RpcTransaction.build tx block.header.number hash index : Outcome RpcErr RpcTransaction) = .ok answer
  transactionCount : ∀ answer, GetBlockTransactionCountRequest.handle ⟨hash⟩ s = .ok (some answer) →
    ∃ block, s.getBlockByHash hash = some block ∧ block.body.transactions.length = answer
  receipts : ∀ answer, GetBlockReceiptsRequest.handle ⟨hash⟩ s = .ok (some answer) →
    ∃ block, s.getBlockByHash hash = some block ∧
      (block.header.parentHash = H256.zero ∧ answer = [] ∨
        ∃ price, rpcReceiptsFrom (receiptOf s hash) price (RpcReceiptBlockInfo.fromBlockHeader block.header)
          0 0 0 block.body.transactions = .ok answer)

variable {s : Store} {hash : BlockHash}

omit [Keccak256] [Secp256k1] [Alloy] in
theorem canonicalBlock (h : s.getCanonicalBlockHash number = some hash) :
    s.getBlockHeader number = s.getBlockHeaderByHash hash ∧
      s.getBlockBody number = s.getBlockBodyByHash hash ∧ s.getReceipt number = receiptOf s hash := by
  refine ⟨?_, ?_, ?_⟩
  · rw [Store.getBlockHeader, h]
    rfl
  · rw [Store.getBlockBody, h]
    rfl
  · funext index
    rw [Store.getReceipt, h]
    rfl

omit [Keccak256] [Secp256k1] [Alloy] in
theorem block_parts (h : s.getBlockByHash hash = some block) :
    s.getBlockHeaderByHash hash = some block.header ∧ s.getBlockBodyByHash hash = some block.body := by
  obtain ⟨header, hheader, h⟩ := Option.bind_eq_some_iff.mp h
  obtain ⟨body, hbody, h⟩ := Option.bind_eq_some_iff.mp h
  obtain rfl : (⟨header, body⟩ : Block) = block := Option.some.inj h
  exact ⟨hheader, hbody⟩

theorem getAllBlockRpcReceipts_ok
    (h : getAllBlockRpcReceipts number header body s = .ok answer) :
    header.parentHash = H256.zero ∧ answer = [] ∨ ∃ price, rpcReceiptsFrom (s.getReceipt number) price
      (RpcReceiptBlockInfo.fromBlockHeader header) 0 0 0 body.transactions = .ok answer := by
  unfold getAllBlockRpcReceipts at h
  split at h
  · rename_i hzero
    exact .inl ⟨hzero, by simpa using h.symm⟩
  · obtain ⟨parent, -, h⟩ := bind_ok_inv h
    obtain ⟨price, -, h⟩ := bind_ok_inv h
    exact .inr ⟨price, h⟩

theorem answersFor_canonical (hs : Store.Reachable blocks s)
    (hstored : s.getBlockByHash hash = some block)
    (hcanonical : s.getCanonicalBlockHash block.header.number = some hash) : AnswersFor s hash := by
  have hkey := (hs.located.stored hash block hstored).2
  have hnumber : s.getBlockNumber hash = some block.header.number := by
    rw [hs.located.numbers, hstored]
    rfl
  obtain ⟨hheader, hbody⟩ := block_parts hstored
  obtain ⟨hh, hb, hr⟩ := canonicalBlock hcanonical
  rw [hheader] at hh
  rw [hbody] at hb
  refine ⟨?_, ?_, ?_, ?_⟩
  · intro hydrated answer h
    simp only [GetBlockByHashRequest.handle, hnumber, hh, hb, hkey] at h
    obtain ⟨rpcBlock, hbuild, h⟩ := bind_ok_inv h
    obtain rfl : rpcBlock = answer := by simpa using h
    exact ⟨block, hstored, hbuild⟩
  · intro index answer h
    simp only [GetTransactionByBlockHashAndIndexRequest.handle, hnumber, hb] at h
    split at h
    · cases h
    · rename_i tx htx
      obtain ⟨transaction, hbuild, h⟩ := bind_ok_inv h
      obtain rfl : transaction = answer := by simpa using h
      exact ⟨block, tx, hstored, htx, hbuild⟩
  · intro answer h
    simp only [GetBlockTransactionCountRequest.handle, hnumber, hb] at h
    exact ⟨block, hstored, by simpa using h⟩
  · intro answer h
    simp only [GetBlockReceiptsRequest.handle, hnumber, hh, hb] at h
    obtain ⟨receipts, hreceipts, h⟩ := bind_ok_inv h
    obtain rfl : receipts = answer := by simpa using h
    refine ⟨block, hstored, ?_⟩
    rw [← hr]
    exact getAllBlockRpcReceipts_ok hreceipts

theorem answersFor_none (h : ∀ number, s.getBlockNumber hash = some number →
    s.getCanonicalBlockHash number = none) : AnswersFor s hash := by
  rcases hnumber : s.getBlockNumber hash with _ | number
  · refine ⟨?_, ?_, ?_, ?_⟩
    · intro hydrated answer ha
      simp [GetBlockByHashRequest.handle, hnumber] at ha
    · intro index answer ha
      simp [GetTransactionByBlockHashAndIndexRequest.handle, hnumber] at ha
    · intro answer ha
      simp [GetBlockTransactionCountRequest.handle, hnumber] at ha
    · intro answer ha
      simp [GetBlockReceiptsRequest.handle, hnumber] at ha
  · have hheader : s.getBlockHeader number = none := by
      rw [Store.getBlockHeader, h number hnumber]
      rfl
    have hbody : s.getBlockBody number = none := by
      rw [Store.getBlockBody, h number hnumber]
      rfl
    refine ⟨?_, ?_, ?_, ?_⟩
    · intro hydrated answer ha
      simp [GetBlockByHashRequest.handle, hnumber, hheader] at ha
    · intro index answer ha
      simp [GetTransactionByBlockHashAndIndexRequest.handle, hnumber, hbody] at ha
    · intro answer ha
      simp [GetBlockTransactionCountRequest.handle, hnumber, hbody] at ha
    · intro answer ha
      simp [GetBlockReceiptsRequest.handle, hnumber, hheader] at ha

/-- **Queries by hash answer for the block** exactly if no other block is canonical at its number. -/
theorem answersFor_iff (blocks : List Block) (s : Store) (hs : Store.Reachable blocks s) (hash : BlockHash) :
    AnswersFor s hash ↔ ∀ number, s.getBlockNumber hash = some number →
      ∀ canonical, s.getCanonicalBlockHash number = some canonical → canonical = hash := by
  constructor
  · intro h number hnumber canonical hcanonical
    obtain ⟨hsome, -⟩ := hs.located.canonical number canonical hcanonical
    obtain ⟨block, hstored⟩ := Option.isSome_iff_exists.mp hsome
    obtain ⟨hheader, hbody⟩ := block_parts hstored
    obtain ⟨hh, hb, -⟩ := canonicalBlock hcanonical
    rw [hheader] at hh
    rw [hbody] at hb
    have hkey := (hs.located.stored canonical block hstored).2
    -- the answer without full transactions always comes, and shows the hash of its block
    obtain ⟨block', -, hbuild⟩ := h.block false
      ⟨canonical, _, _, block.header, _⟩ (by
        simp only [GetBlockByHashRequest.handle, hnumber, hh, hb, hkey]
        rfl)
    exact (congrArg RpcBlock.hash (Except.ok.inj hbuild)).symm
  · intro h
    rcases hblock : s.getBlockByHash hash with _ | block
    · refine answersFor_none fun number hnumber => ?_
      rw [hs.located.numbers, hblock] at hnumber
      cases hnumber
    · have hnumber : s.getBlockNumber hash = some block.header.number := by
        rw [hs.located.numbers, hblock]
        rfl
      rcases hcanonical : s.getCanonicalBlockHash block.header.number with _ | canonical
      · refine answersFor_none fun number hn => ?_
        obtain rfl : block.header.number = number := Option.some.inj (hnumber.symm.trans hn)
        exact hcanonical
      · rw [h _ hnumber canonical hcanonical] at hcanonical
        exact answersFor_canonical hs hblock hcanonical

end

attribute [local instance] forkKeccak noRecovery

/-- Two blocks with the same number, of which `blockA1` is canonical. -/
def siblingStore : Store :=
  (Store.addBlock blockB1 (Store.addBlock blockA1 Store.new).2).2.setCanonicalBlock 1 (H256.ofNat hashA1)

theorem siblingStore_reachable :
    Store.Reachable [blockB1, blockA1] siblingStore := by
  have hfacts : (Store.addBlock blockA1 Store.new).1 = .ok () ∧
      (Store.addBlock blockB1 (Store.addBlock blockA1 Store.new).2).1 = .ok () ∧
      (Store.addBlock blockB1 (Store.addBlock blockA1 Store.new).2).2.getBlockByHash (H256.ofNat hashA1) =
        some blockA1 := by
    decide +kernel
  have hA := Store.Reachable.new.addBlock (Exec.eq_of_fst hfacts.1)
  have hB := hA.addBlock (Exec.eq_of_fst hfacts.2.1)
  exact hB.setCanonicalBlock hfacts.2.2

/-- The query for `blockB1` shows `blockA1`. -/
theorem answersFor_sibling :
    Store.Reachable [blockB1, blockA1] siblingStore ∧
      siblingStore.getBlockByHash (H256.ofNat hashB1) = some blockB1 ∧
      (GetBlockByHashRequest.handle ⟨H256.ofNat hashB1, false⟩ siblingStore).toOption.join.map
        (fun answer => answer.hash) = some (H256.ofNat hashA1) :=
  ⟨siblingStore_reachable, by decide +kernel, by decide +kernel⟩

theorem answersFor_canonical_sibling :
    letI := noCreation
    AnswersFor siblingStore (H256.ofNat hashA1) := by
  let := noCreation
  have hfacts : siblingStore.getBlockNumber (H256.ofNat hashA1) = some 1 ∧
      siblingStore.getCanonicalBlockHash 1 = some (H256.ofNat hashA1) := by
    decide +kernel
  refine (answersFor_iff [blockB1, blockA1] siblingStore siblingStore_reachable (H256.ofNat hashA1)).mpr ?_
  intro number hnumber canonical hcanonical
  obtain rfl : 1 = number := Option.some.inj (hfacts.1.symm.trans hnumber)
  exact (Option.some.inj (hfacts.2.symm.trans hcanonical)).symm

end EthereumRust.Rpc
