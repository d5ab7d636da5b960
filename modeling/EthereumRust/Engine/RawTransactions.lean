import EthereumRust.Core.Codec
import EthereumRust.Rlp.Strict
import EthereumRust.Engine.Payload

/-! # The bytes that a transaction came in

A node decodes the raw transactions of a payload and works with the encodings of what it
decoded. These are the raw bytes only if the node would have written them itself. -/

namespace EthereumRust.Core
open Rlp Item Outcome

instance : StrictRLP TxKind where
  strict {x rest r v} hx h := by
    cases hdata : x.encode ++ rest with
    | nil => rw [hdata] at h; cases h
    | cons b tl =>
      rw [hdata] at h
      simp only [decodeUnfinished] at h
      split at h
      · rename_i hb
        subst hb
        cases h
        obtain ⟨hx1, rfl⟩ := encode_eq_single (y := .bytes []) hx rfl hdata
        exact ⟨rfl, hx1.symm⟩
      · rw [← hdata] at h
        obtain ⟨⟨address, r'⟩, haddr, h⟩ := Outcome.bind_ok_inv h
        cases h
        exact decodeFixed_strict hx haddr
  not_nil w h := by cases h
  exists_item v h := by
    cases v with
    | call address => exact exists_item address h
    | create => exact ⟨.bytes [], rfl⟩

instance : StrictRLP LegacyTransaction where
  strict := by
    refine strict_struct ?_
    iterate 9 refine .field fun _ => ?_
    exact .finish rfl
  not_nil w h := by cases h
  exists_item _ h := by
    refine finish_item ?_ h
    iterate 9 refine .field ?_
    exact .new

instance : StrictRLP EIP2930Transaction where
  strict := by
    refine strict_struct ?_
    iterate 11 refine .field fun _ => ?_
    exact .finish rfl
  not_nil w h := by cases h
  exists_item _ h := by
    refine finish_item ?_ h
    iterate 11 refine .field ?_
    exact .new

instance : StrictRLP EIP1559Transaction where
  strict := by
    refine strict_struct ?_
    iterate 12 refine .field fun _ => ?_
    exact .finish rfl
  not_nil w h := by cases h
  exists_item _ h := by
    refine finish_item ?_ h
    iterate 12 refine .field ?_
    exact .new

instance : StrictRLP EIP4844Transaction where
  strict := by
    refine strict_struct ?_
    iterate 14 refine .field fun _ => ?_
    exact .finish rfl
  not_nil w h := by cases h
  exists_item _ h := by
    refine finish_item ?_ h
    iterate 14 refine .field ?_
    exact .new

namespace Transaction

/-- The bytes are an item, behind a type that is not that of a legacy transaction if the first of
them is a type. -/
def MinimalRaw : ByteString → Prop
  | [] => False
  | first :: tl =>
    if first < 0x7f then first ≠ 0x0 ∧ ∃ x : Item, tl = x.encode else ∃ x : Item, first :: tl = x.encode

theorem minimalRaw_encode {tx : Transaction} (h : tx.encodeCanonicalToVec.length < 2 ^ 63) :
    MinimalRaw tx.encodeCanonicalToVec := by
  cases tx with
  | legacyTransaction t =>
    obtain ⟨first, tl, hx, hlo⟩ := finish_first h
    have hnot : ¬ first < 0x7f := by
      change ¬ first.toNat < 0x7f
      omega
    have hcons : encode t = first :: tl := hx
    change MinimalRaw (encode t)
    obtain ⟨x, hitem⟩ := exists_item t h
    rw [hcons] at hitem ⊢
    rw [MinimalRaw, if_neg hnot]
    exact ⟨x, hitem⟩
  | eip2930Transaction t => exact ⟨(by decide : (0x1 : UInt8) ≠ 0x0), exists_item t (Nat.lt_of_succ_lt h)⟩
  | eip1559Transaction t => exact ⟨(by decide : (0x2 : UInt8) ≠ 0x0), exists_item t (Nat.lt_of_succ_lt h)⟩
  | eip4844Transaction t => exact ⟨(by decide : (0x3 : UInt8) ≠ 0x0), exists_item t (Nat.lt_of_succ_lt h)⟩

theorem encode_of_minimalRaw {b : ByteString} (hb : b.length < 2 ^ 63)
    (h : decodeCanonical b = .ok tx) (hmin : MinimalRaw b) : tx.encodeCanonicalToVec = b := by
  cases b with
  | nil => exact hmin.elim
  | cons first tl =>
    unfold decodeCanonical at h
    dsimp only at h
    by_cases htype : first < 0x7f
    · rw [MinimalRaw, if_pos htype] at hmin
      obtain ⟨hzero, x, rfl⟩ := hmin
      rw [if_pos htype, if_neg hzero] at h
      have hx : x.encode.length < 2 ^ 63 := Nat.lt_of_succ_lt hb
      split at h
      · rename_i hty
        obtain ⟨t, ht, rfl⟩ := map_eq_ok.mp h
        rw [hty, encodeCanonicalToVec, decode_strict hx ht]
        rfl
      · split at h
        · rename_i hty
          obtain ⟨t, ht, rfl⟩ := map_eq_ok.mp h
          rw [hty, encodeCanonicalToVec, decode_strict hx ht]
          rfl
        · split at h
          · rename_i hty
            obtain ⟨t, ht, rfl⟩ := map_eq_ok.mp h
            rw [hty, encodeCanonicalToVec, decode_strict hx ht]
            rfl
          · cases h
    · rw [MinimalRaw, if_neg htype] at hmin
      obtain ⟨x, hx⟩ := hmin
      rw [if_neg htype] at h
      obtain ⟨t, ht, rfl⟩ := map_eq_ok.mp h
      rw [hx] at hb ht ⊢
      exact decode_strict hb ht

end Transaction

end EthereumRust.Core

namespace EthereumRust.Engine
open Rlp Mpt Core

theorem decodeTransactions_minimal
    (hraws : ∀ raw ∈ raws, raw.data.length < 2 ^ 63 ∧ Transaction.MinimalRaw raw.data)
    (h : ExecutionPayloadV3.decodeTransactions raws = .ok txs) :
    txs.map Transaction.encodeCanonicalToVec = raws.map (·.data) := by
  induction raws generalizing txs with
  | nil =>
    cases h
    rfl
  | cons raw raws ih =>
    obtain ⟨tx, htx, h⟩ := Outcome.bind_ok_inv h
    obtain ⟨txs', htxs, h⟩ := Outcome.bind_ok_inv h
    cases h
    obtain ⟨hlen, hmin⟩ := hraws raw List.mem_cons_self
    rw [List.map_cons, List.map_cons, Transaction.encode_of_minimalRaw hlen htx hmin,
      ih (fun raw' hm => hraws raw' (List.mem_cons_of_mem _ hm)) htxs]

/-- A raw transaction that is accepted is the encoding of what was decoded exactly if its headers
are the shortest and it has no type of a legacy transaction in front. Then the hash that the node
knows it by is that of the raw bytes, and the transactions root of a payload with only such
transactions is that of the raw bytes. -/
theorem raw_transactions [Keccak256] :
    (∀ (b : ByteString) (tx : Transaction), b.length < 2 ^ 63 → Transaction.decodeCanonical b = .ok tx →
      (tx.encodeCanonicalToVec = b ↔ Transaction.MinimalRaw b) ∧
      (Transaction.MinimalRaw b → tx.computeHash = digest b)) ∧
    ∀ (payload : ExecutionPayloadV3) (parentBeaconBlockRoot : H256) (block : Block),
      (∀ raw ∈ payload.transactions, raw.data.length < 2 ^ 63 ∧ Transaction.MinimalRaw raw.data) →
      payload.intoBlock parentBeaconBlockRoot = .ok block →
      (indexedRoot (payload.transactions.map (·.data)) : Decode H256) = .ok block.header.transactionsRoot := by
  refine ⟨fun b tx hb h => ⟨⟨fun heq => ?_, Transaction.encode_of_minimalRaw hb h⟩, fun hmin => ?_⟩,
    fun payload parentBeaconBlockRoot block hraws h => ?_⟩
  · rw [← heq] at hb ⊢
    exact Transaction.minimalRaw_encode hb
  · rw [Transaction.computeHash, Transaction.encode_of_minimalRaw hb h hmin]
  · obtain ⟨txs, htxs, h⟩ := Outcome.bind_ok_inv h
    obtain ⟨transactionsRoot, hroot, h⟩ := Outcome.bind_ok_inv h
    obtain ⟨withdrawalsRoot, -, h⟩ := Outcome.bind_ok_inv h
    cases h
    rw [← decodeTransactions_minimal hraws htxs]
    exact hroot

def nonceTransaction (nonce : UInt64) : Transaction := .legacyTransaction ⟨nonce, 0, 0, .create, 0, ⟨[]⟩, 0, 0, 0⟩

theorem raw_transactions_shortest :
    letI := Keccak256.ofTable []
    Transaction.MinimalRaw (0xc9 :: 0x05 :: List.replicate 8 0x80) ∧
      (nonceTransaction 5).encodeCanonicalToVec = 0xc9 :: 0x05 :: List.replicate 8 0x80 := by
  let := Keccak256.ofTable []
  have hmin : Transaction.MinimalRaw (0xc9 :: 0x05 :: List.replicate 8 0x80) :=
    ⟨.list (.bytes [5] :: List.replicate 8 (.bytes [])), rfl⟩
  exact ⟨hmin, (raw_transactions.1 _ (nonceTransaction 5) (by decide) (by decide +kernel)).1.mpr hmin⟩

/-- The same transaction, with its nonce behind a length and behind a type: both are accepted, and
neither is what it is encoded as. -/
theorem raw_transactions_malleable :
    Transaction.decodeCanonical (0xca :: 0x81 :: 0x05 :: List.replicate 8 0x80) = .ok (nonceTransaction 5) ∧
      Transaction.decodeCanonical (0x00 :: 0xc9 :: 0x05 :: List.replicate 8 0x80) = .ok (nonceTransaction 5) ∧
      (nonceTransaction 5).encodeCanonicalToVec = 0xc9 :: 0x05 :: List.replicate 8 0x80 := by
  decide +kernel

end EthereumRust.Engine
