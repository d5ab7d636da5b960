import EthereumRust.Rpc.SerdeUtils
import EthereumRust.Storage.Genesis
import EthereumRust.Storage.Locations

/-! # `debug_getRawTransaction`: `crates/rpc/eth/transaction.rs`

The answer is the encoding that a transaction has in a list, its hash that of the
canonical encoding. -/

namespace EthereumRust.Rpc
open Rlp Mpt Core Storage Engine

/-! ## The handler -/

structure GetRawTransaction where
  transactionHash : H256

def GetRawTransaction.handle [Hex] (self : GetRawTransaction) (storage : Store) : Outcome RpcErr (Option String) :=
  match storage.getTransactionByHash self.transactionHash with
  | some tx => .ok (some (hexText (encode tx)))
  | none => .ok none

/-! ## What the answer stands for -/

theorem hexText_injective [Hex] : Function.Injective hexText := by
  intro as bs h
  have hbytes := SerdeUtils.Bytes.decode_hexText ⟨as⟩
  rw [h, SerdeUtils.Bytes.decode_hexText ⟨bs⟩] at hbytes
  exact congrArg Bytes.data (Except.ok.inj hbytes.symm)

/-- A transaction with a type is wrapped in a string, which no canonical encoding starts with. -/
theorem decodeCanonical_encode_typed {tx : Transaction} (htyped : ∀ t, tx ≠ .legacyTransaction t)
    (h : (encode tx).length < 2 ^ 63) :
    Transaction.decodeCanonical (encode tx) = Decode.fail .unexpectedString := by
  obtain ⟨henc, h2⟩ := Transaction.encodeCanonicalToVec_typed htyped
  have hlength := le_length_encodeSlice tx.encodeCanonicalToVec
  rw [← henc] at hlength
  have hbytes : encode tx = rlpBytes tx.encodeCanonicalToVec := henc.trans (encodeSlice_eq (by omega))
  have hlegacy : (decode (encode tx) : Decode LegacyTransaction) = Decode.fail .unexpectedString := by
    change ((Decoder.new (encode tx) >>= _) >>= _) = _
    rw [Decoder.new, hbytes, ← List.append_nil (rlpBytes _), decodeRlpItem_rlpBytes (by omega)]
    rfl
  have hlen : tx.encodeCanonicalToVec.length < 2 ^ 64 := by omega
  obtain ⟨x, tl, hx, hlo, -⟩ := rlpHeader_first 0x80 (by norm_num) hlen
  have hcons : encode tx = x :: (tl ++ tx.encodeCanonicalToVec) := by
    rw [hbytes, rlpBytes_of_length (by omega), hx]
    rfl
  have hnot : ¬ x < 0x7f := by
    change ¬ x.toNat < 0x7f
    omega
  rw [hcons] at hlegacy ⊢
  rw [Transaction.decodeCanonical, if_neg hnot, hlegacy]
  rfl

section

variable [Keccak256]

/-- The location that is on record for the hash of the transaction holds the transaction. -/
def HeldAtLocation (s : Store) (tx : Transaction) : Prop :=
  ∃ number hash index body, s.getTransactionLocation tx.computeHash = some (number, hash, index) ∧
    s.getBlockBodyByHash hash = some body ∧ body.transactions[index.toNat]? = some tx

theorem heldAtLocation_iff {s : Store} :
    HeldAtLocation s tx ↔ s.getTransactionByHash tx.computeHash = some tx := by
  constructor
  · rintro ⟨number, hash, index, body, hlocation, hbody, htx⟩
    rw [Store.getTransactionByHash, hlocation]
    change s.getTransactionByLocation hash index = some tx
    exact Option.bind_eq_some_iff.mpr ⟨body, hbody, htx⟩
  · intro h
    obtain ⟨⟨number, hash, index⟩, hlocation, h⟩ := Option.bind_eq_some_iff.mp h
    obtain ⟨body, hbody, htx⟩ := Option.bind_eq_some_iff.mp h
    exact ⟨number, hash, index, body, hlocation, hbody, htx⟩

/-- The transactions of canonical blocks are held at their locations, where a header was added with one body only and
hashes tell headers and transactions apart. -/
theorem heldAtLocation_of_canonical {blocks s} (hs : Store.Reachable blocks s)
    (hhash : ∀ a ∈ blocks, ∀ b ∈ blocks, a.header.computeBlockHash = b.header.computeBlockHash → a = b)
    (hsize : ∀ block ∈ blocks, block.body.transactions.length < Rust.wordSize)
    (htxs : ∀ a ∈ blocks, ∀ b ∈ blocks, ∀ tx ∈ a.body.transactions, ∀ tx' ∈ b.body.transactions,
      tx.computeHash = tx'.computeHash → tx = tx')
    {number hash block tx}
    (hcanonical : s.getCanonicalBlockHash number = some hash) (hstored : s.getBlockByHash hash = some block)
    (hmem : tx ∈ block.body.transactions) : HeldAtLocation s tx := by
  have hl := hs.located
  obtain ⟨hblock, hkey⟩ := hl.stored hash block hstored
  obtain ⟨-, numbered, hnumbered, hkey', hnumber⟩ := hl.canonical number hash hcanonical
  obtain rfl := hhash numbered hnumbered block hblock (hkey'.trans hkey.symm)
  obtain ⟨index, hindex⟩ := List.getElem?_of_mem hmem
  have hsome := hl.isSome_location ⟨hcanonical, numbered, tx, hstored, hnumber, hindex, rfl⟩
  obtain ⟨⟨number', hash', index'⟩, hlocation⟩ := Option.isSome_iff_exists.mp hsome
  obtain ⟨-, found, tx', hfound, -, htx', hsame⟩ := hl.locatedAt hhash hsize hlocation
  have hin := (hl.stored hash' found hfound).1
  obtain rfl := htxs found hin numbered hblock tx' (List.mem_of_getElem? htx') tx hmem hsame
  rw [heldAtLocation_iff, Store.getTransactionByHash, hlocation]
  exact (Store.getTransactionByLocation_of_stored hfound index').trans htx'

/-- The bytes of the answer hash to the transaction's hash and decode to the transaction exactly if it is a legacy
transaction that is held at the location on record for its hash. Only a second body for a header can leave a
transaction of a canonical block elsewhere. -/
theorem raw_transaction_iff [Hex] (s : Store) (tx : Transaction)
    (hlength : ∀ entry ∈ s.bodies.entries, ∀ tx ∈ entry.2.transactions, (encode tx).length < 2 ^ 63) :
    ((∃ bytes, GetRawTransaction.handle ⟨tx.computeHash⟩ s = .ok (some (hexText bytes)) ∧
      digest bytes = tx.computeHash ∧ Transaction.decodeCanonical bytes = .ok tx) ↔
    (∃ t, tx = .legacyTransaction t) ∧ HeldAtLocation s tx) ∧
    ∀ blocks, Store.Reachable blocks s →
      (∀ a ∈ blocks, ∀ b ∈ blocks, a.header.computeBlockHash = b.header.computeBlockHash → a = b) →
      (∀ block ∈ blocks, block.body.transactions.length < Rust.wordSize) →
      (∀ a ∈ blocks, ∀ b ∈ blocks, ∀ tx ∈ a.body.transactions, ∀ tx' ∈ b.body.transactions,
        tx.computeHash = tx'.computeHash → tx = tx') →
      ∀ number hash block, s.getCanonicalBlockHash number = some hash → s.getBlockByHash hash = some block →
        tx ∈ block.body.transactions → HeldAtLocation s tx := by
  have hcanonical (t : LegacyTransaction) : encode (Transaction.legacyTransaction t) =
      (Transaction.legacyTransaction t).encodeCanonicalToVec := rfl
  have hstored (found : Transaction) (h : s.getTransactionByHash tx.computeHash = some found) :
      (encode found).length < 2 ^ 63 := by
    obtain ⟨⟨number, hash, index⟩, -, h⟩ := Option.bind_eq_some_iff.mp h
    obtain ⟨body, hbody, htx⟩ := Option.bind_eq_some_iff.mp h
    exact hlength _ (AList.mem_lookup_iff.mp hbody) found (List.mem_of_getElem? htx)
  refine ⟨⟨?_, ?_⟩, fun blocks hs hhash hsize htxs number hash block =>
    heldAtLocation_of_canonical hs hhash hsize htxs⟩
  · rintro ⟨bytes, hbytes, -, hdecode⟩
    rw [heldAtLocation_iff]
    rw [GetRawTransaction.handle] at hbytes
    cases hfound : s.getTransactionByHash tx.computeHash with
    | none =>
      rw [hfound] at hbytes
      cases hbytes
    | some found =>
      rw [hfound] at hbytes
      obtain rfl := hexText_injective (Option.some.inj (Except.ok.inj hbytes))
      -- what is found decodes to the transaction, so it is a legacy one and the transaction itself
      have hlegacy : ∃ t, found = .legacyTransaction t := by
        by_contra hne
        rw [decodeCanonical_encode_typed (fun t ht => hne ⟨t, ht⟩) (hstored found hfound)] at hdecode
        cases hdecode
      obtain ⟨t, rfl⟩ := hlegacy
      have hlt := hstored _ hfound
      rw [hcanonical] at hdecode hlt
      obtain rfl := Except.ok.inj (hdecode.symm.trans (Transaction.decodeCanonical_encode hlt))
      exact ⟨⟨t, rfl⟩, rfl⟩
  · rintro ⟨⟨t, rfl⟩, hheld⟩
    rw [heldAtLocation_iff] at hheld
    have hlt := hstored _ hheld
    rw [hcanonical] at hlt
    refine ⟨_, ?_, rfl, Transaction.decodeCanonical_encode hlt⟩
    rw [GetRawTransaction.handle, hheld, ← hcanonical]

end

theorem raw_transaction_iff_oneBody :
    letI := plainKeccak
    letI := SerdeUtils.twoDigits
    (∃ bytes, GetRawTransaction.handle ⟨(plainTransaction 0).computeHash⟩ oneBody = .ok (some (hexText bytes)) ∧
      digest bytes = (plainTransaction 0).computeHash ∧
      Transaction.decodeCanonical bytes = .ok (plainTransaction 0)) := by
  let := plainKeccak
  let := SerdeUtils.twoDigits
  have hfacts : oneBody.getCanonicalBlockHash 1 = some plainHeader.computeBlockHash ∧
      oneBody.getBlockByHash plainHeader.computeBlockHash = some (plainBlock 0) := by
    decide +kernel
  obtain ⟨hiff, hheld⟩ := raw_transaction_iff oneBody (plainTransaction 0) (by decide +kernel)
  exact hiff.mpr ⟨⟨_, rfl⟩, hheld [plainBlock 0] oneBody_reachable (by simp) (by decide) (by decide +kernel) 1 _ _
    hfacts.1 hfacts.2 (List.mem_singleton_self _)⟩

/-! A transaction with a type -/

def typedTransaction : Transaction :=
  .eip1559Transaction ⟨1, 0, 0, 0, 0, .create, 0, ⟨[]⟩, [], false, 0, 0⟩

def typedBlock : Block := ⟨plainHeader, [typedTransaction], [], none⟩

/-- The store with one block, which is canonical. -/
def typedBody : Store :=
  letI := foldedKeccak
  (Store.addBlock typedBlock Store.new).2.setCanonicalBlock 1 plainHeader.computeBlockHash

/-- The bytes of the answer have another hash, and no transaction is decoded from them. -/
theorem raw_transaction_typed :
    letI := foldedKeccak
    letI := SerdeUtils.twoDigits
    Store.Reachable [typedBlock] typedBody ∧
      typedBody.getCanonicalBlockHash 1 = some plainHeader.computeBlockHash ∧
      typedBody.getBlockByHash plainHeader.computeBlockHash = some typedBlock ∧
      GetRawTransaction.handle ⟨typedTransaction.computeHash⟩ typedBody =
        .ok (some "0x8e02cc0180808080808080c0808080") ∧
      hexText (encode typedTransaction) = "0x8e02cc0180808080808080c0808080" ∧
      digest (encode typedTransaction) ≠ typedTransaction.computeHash ∧
      Transaction.decodeCanonical (encode typedTransaction) = Decode.fail .unexpectedString := by
  let := foldedKeccak
  let := SerdeUtils.twoDigits
  have hadded : Store.Reachable [typedBlock] (Store.addBlock typedBlock Store.new).2 :=
    Store.Reachable.new.addBlock (Exec.eq_of_fst (by decide +kernel))
  have hstored : (Store.addBlock typedBlock Store.new).2.getBlockByHash plainHeader.computeBlockHash =
      some typedBlock := by
    decide +kernel
  exact ⟨hadded.setCanonicalBlock hstored, by decide +kernel⟩

end EthereumRust.Rpc
