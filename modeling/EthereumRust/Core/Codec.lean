import EthereumRust.Core.Genesis
import EthereumRust.Rlp.Lawful

/-! # The codecs of transactions, blocks and receipts -/

namespace EthereumRust.Core
open Rlp List Transaction

variable {e : Encoder} {body : BlockBody} {δ : Type}

/-! ## Structs -/

instance : LawfulRLP (FixedBytes 8) where
  encode_pos _ := length_encodeSlice_pos _
  roundTrip v h rest := decodeFixed_encodeSlice v h rest

/-- An address is a string of twenty bytes, so its encoding does not start like the empty string. -/
theorem encode_address (a : Address) : encode a = 0x94 :: a.1 := by
  have hlen := a.2
  change encodeSlice a.1 = _
  rw [encodeSlice_eq (by omega), rlpBytes_of_length (by omega), hlen]
  rfl

instance : LawfulRLP TxKind where
  encode_pos kind := by
    cases kind with
    | call address => exact encode_pos address
    | create => decide
  roundTrip kind h rest := by
    cases kind with
    | call address =>
      have hround := roundTrip address h rest
      change decodeUnfinished (encode address ++ rest) = _
      rw [encode_address] at hround ⊢
      change (decodeUnfinished (0x94 :: address.1 ++ rest) >>= _) = _
      rw [hround]
      rfl
    | create => rfl

instance : LawfulRLP LegacyTransaction where
  encode_pos _ := length_finish_pos _
  roundTrip tx h rest := roundTrip_struct h fun hlen => by
    simp only [LegacyTransaction.payload, tempBuf_encodeField, tempBuf_new, nil_append,
      append_assoc] at hlen ⊢
    iterate 8 refine decodeField_bind hlen fun hlen => ?_
    exact decodeField_bind_last hlen rfl

instance : LawfulRLP EIP2930Transaction where
  encode_pos _ := length_finish_pos _
  roundTrip tx h rest := roundTrip_struct h fun hlen => by
    simp only [EIP2930Transaction.payload, tempBuf_encodeField, tempBuf_new, nil_append,
      append_assoc] at hlen ⊢
    iterate 10 refine decodeField_bind hlen fun hlen => ?_
    exact decodeField_bind_last hlen rfl

instance : LawfulRLP EIP1559Transaction where
  encode_pos _ := length_finish_pos _
  roundTrip tx h rest := roundTrip_struct h fun hlen => by
    simp only [EIP1559Transaction.payload, tempBuf_encodeField, tempBuf_new, nil_append,
      append_assoc] at hlen ⊢
    iterate 11 refine decodeField_bind hlen fun hlen => ?_
    exact decodeField_bind_last hlen rfl

instance : LawfulRLP EIP4844Transaction where
  encode_pos _ := length_finish_pos _
  roundTrip tx h rest := roundTrip_struct h fun hlen => by
    simp only [EIP4844Transaction.payload, tempBuf_encodeField, tempBuf_new, nil_append,
      append_assoc] at hlen ⊢
    iterate 13 refine decodeField_bind hlen fun hlen => ?_
    exact decodeField_bind_last hlen rfl

instance : LawfulRLP Withdrawal where
  encode_pos _ := length_finish_pos _
  roundTrip w h rest := roundTrip_struct h fun hlen => by
    simp only [tempBuf_encodeField, tempBuf_new, nil_append, append_assoc] at hlen ⊢
    iterate 3 refine decodeField_bind hlen fun hlen => ?_
    exact decodeField_bind_last hlen rfl

instance : LawfulRLP Log where
  encode_pos _ := length_finish_pos _
  roundTrip log h rest := roundTrip_struct h fun hlen => by
    simp only [tempBuf_encodeField, tempBuf_new, nil_append, append_assoc] at hlen ⊢
    iterate 2 refine decodeField_bind hlen fun hlen => ?_
    exact decodeField_bind_last hlen rfl

instance : LawfulRLP AccountState where
  encode_pos _ := length_finish_pos _
  roundTrip a h rest := roundTrip_struct h fun hlen => by
    simp only [tempBuf_encodeField, tempBuf_new, nil_append, append_assoc] at hlen ⊢
    iterate 3 refine decodeField_bind hlen fun hlen => ?_
    exact decodeField_bind_last hlen rfl

/-! ## Headers -/

/-- The optional fields are there in the order in which the forks brought them. -/
def BlockHeader.ForkOrder (self : BlockHeader) : Prop :=
  (self.baseFeePerGas = none → self.withdrawalsRoot = none) ∧
  (self.withdrawalsRoot = none → self.blobGasUsed = none) ∧
  (self.blobGasUsed = none → self.excessBlobGas = none) ∧
  (self.excessBlobGas = none → self.parentBeaconBlockRoot = none)

theorem BlockHeader.ForkOrder.roundTrip {header : BlockHeader} (hforks : header.ForkOrder)
    (h : (encode header).length < 2 ^ 63) : RoundTrip header := by
  intro rest
  obtain ⟨hbase, hroot, hused, hexcess⟩ := hforks
  have hnonce : UInt64.ofNat (beNat (beBytes 8 header.nonce.toNat)) = header.nonce := by
    have hlt : header.nonce.toNat < 256 ^ 8 := header.nonce.toNat_lt
    rw [beNat_beBytes, Nat.mod_eq_of_lt hlt, UInt64.ofNat_toNat]
  have hu64 : ∃ e, (decodeUnfinished [] : Decode (UInt64 × ByteString)) = Decode.fail e := ⟨_, rfl⟩
  have hh256 : ∃ e, (decodeUnfinished [] : Decode (H256 × ByteString)) = Decode.fail e := ⟨_, rfl⟩
  refine roundTrip_struct h fun hlen => ?_
  simp only [tempBuf_encodeField, tempBuf_encodeOptionalField,
    append_assoc] at hlen ⊢
  iterate 15 refine decodeField_bind hlen fun hlen => ?_
  refine decodeOptionalField_bind hlen (fun h0 => ?_) hu64 fun hlen => ?_
  · have h1 := hbase h0
    have h2 := hroot h1
    have h3 := hused h2
    rw [h1, h2, h3, hexcess h3]
    rfl
  refine decodeOptionalField_bind hlen (fun h1 => ?_) hh256 fun hlen => ?_
  · have h2 := hroot h1
    have h3 := hused h2
    rw [h2, h3, hexcess h3]
    rfl
  refine decodeOptionalField_bind hlen (fun h2 => ?_) hu64 fun hlen => ?_
  · have h3 := hused h2
    rw [h3, hexcess h3]
    rfl
  refine decodeOptionalField_bind hlen (fun h3 => ?_) hu64 fun hlen => ?_
  · rw [hexcess h3]
    rfl
  refine decodeOptionalField_bind_last hlen hh256 ?_
  simp only [hnonce]
  rfl

/-! ## Transactions -/

theorem finish_first (h : e.finish.length < 2 ^ 63) :
    ∃ x tl, e.finish = x :: tl ∧ 0xC0 ≤ x.toNat := by
  obtain ⟨hfin, hlen⟩ := finish_fits h
  have hfits : e.tempBuf.length < 2 ^ 64 := by omega
  obtain ⟨x, tl, hx, hlo, -⟩ := rlpHeader_first 0xC0 (by norm_num) hfits
  exact ⟨x, tl ++ e.tempBuf, by rw [hfin, rlpList, hx]; rfl, hlo⟩

namespace Transaction

variable {tx : Transaction} {data : ByteString} {txs : List Transaction}

/-- The string that a transaction is wrapped in has a header of more than one byte, if there
is such a string. -/
def WrappedLong : Transaction → Prop
  | legacyTransaction _ => True
  | tx => 56 ≤ tx.encodeCanonicalToVec.length

theorem decodeCanonical_encode (h : tx.encodeCanonicalToVec.length < 2 ^ 63) :
    decodeCanonical tx.encodeCanonicalToVec = .ok tx := by
  cases tx with
  | legacyTransaction t =>
    obtain ⟨x, tl, hx, hlo⟩ := finish_first h
    have hnot : ¬ x < 0x7f := by
      change ¬ x.toNat < 0x7f
      omega
    have hdec := (roundTrip t h).decode
    change decodeCanonical (encode t) = _
    have hcons : encode t = x :: tl := hx
    rw [hcons] at hdec ⊢
    simp only [decodeCanonical, if_neg hnot, hdec]
    rfl
  | eip2930Transaction t =>
    change (eip2930Transaction <$> decode (encode t) : Decode Transaction) = _
    rw [(roundTrip t (Nat.lt_of_succ_lt h)).decode]
    rfl
  | eip1559Transaction t =>
    change (eip1559Transaction <$> decode (encode t) : Decode Transaction) = _
    rw [(roundTrip t (Nat.lt_of_succ_lt h)).decode]
    rfl
  | eip4844Transaction t =>
    change (eip4844Transaction <$> decode (encode t) : Decode Transaction) = _
    rw [(roundTrip t (Nat.lt_of_succ_lt h)).decode]
    rfl

theorem encodeCanonicalToVec_typed (h : ∀ t, tx ≠ legacyTransaction t) :
    encode tx = encodeSlice tx.encodeCanonicalToVec ∧ 2 ≤ tx.encodeCanonicalToVec.length := by
  cases tx with
  | legacyTransaction t => exact absurd rfl (h t)
  | eip2930Transaction t => exact ⟨rfl, Nat.succ_le_succ (encode_pos t)⟩
  | eip1559Transaction t => exact ⟨rfl, Nat.succ_le_succ (encode_pos t)⟩
  | eip4844Transaction t => exact ⟨rfl, Nat.succ_le_succ (encode_pos t)⟩

theorem isEncodedAsBytes_cons (x : UInt8) (tl : ByteString) :
    isEncodedAsBytes (x :: tl) = .ok (decide (0xb8 ≤ x.toNat ∧ x.toNat ≤ 0xbf)) := by
  simp only [Bool.decide_and]
  rfl

/-- The string of a long encoding starts with a byte that tells so, and is what follows its header. -/
theorem unwrap_long (h56 : 56 ≤ c.length) (h : c.length < 2 ^ 63) (rest : ByteString) :
    isEncodedAsBytes (encodeSlice c ++ rest) = .ok true ∧
      getRlpBytesItemPayload (encodeSlice c ++ rest) = .ok (c ++ rest) := by
  have h8 : (beMin c.length).length ≤ 8 := length_beMin_le.mpr (by omega)
  have hpos := length_beMin_pos (k := c.length) (by omega)
  have hx : (UInt8.ofNat (0x80 + 55 + (beMin c.length).length)).toNat = 0xb7 + (beMin c.length).length := by
    rw [UInt8.toNat_ofNat']; omega
  have henc : encodeSlice c ++ rest =
      UInt8.ofNat (0x80 + 55 + (beMin c.length).length) :: (beMin c.length ++ (c ++ rest)) := by
    rw [encodeSlice_eq (by omega), rlpBytes_of_length (by omega), rlpHeader, if_neg (by omega)]
    simp
  rw [henc]
  generalize UInt8.ofNat (0x80 + 55 + (beMin c.length).length) = x at hx
  have hge : (0xb8 : UInt8) ≤ x := le_of_toNat_le (by rw [hx]; simp; omega)
  have hoff : (x - 0xb8 + 1).toNat + 1 = (beMin c.length).length + 1 := by
    rw [UInt8.toNat_add, UInt8.toNat_sub_of_le _ _ hge, hx]
    simp
    omega
  constructor
  · rw [isEncodedAsBytes_cons, hx, decide_eq_true ⟨by omega, by omega⟩]
  · simp only [getRlpBytesItemPayload]
    rw [if_neg (UInt8.not_lt.mpr hge), hoff, Rust.sliceFrom_ok (by simp), drop_succ_cons, drop_left]

theorem isEncodedAsBytes_short (h56 : c.length < 56) (h2 : 2 ≤ c.length) (rest : ByteString) :
    isEncodedAsBytes (encodeSlice c ++ rest) = .ok false := by
  rw [encodeSlice_eq (by omega), rlpBytes_of_length (by omega), rlpHeader, if_pos h56]
  rw [append_assoc, cons_append, isEncodedAsBytes_cons, decide_eq_false]
  rw [UInt8.toNat_ofNat']
  omega

theorem decode_legacy (h : isEncodedAsBytes data = .ok false) :
    (decodeUnfinished data : Decode (Transaction × ByteString)) =
      (fun (tx, rem) => (legacyTransaction tx, rem)) <$> decodeUnfinished data := by
  change (isEncodedAsBytes data >>= _) = _
  rw [h]
  rfl

theorem decode_wrapped (h : isEncodedAsBytes data = .ok true)
    (hp : getRlpBytesItemPayload data = .ok payload) :
    (decodeUnfinished data : Decode (Transaction × ByteString)) =
      decodePayload payload := by
  change (isEncodedAsBytes data >>= _) = _
  rw [h]
  rw [hp]
  rfl

theorem decodePayload_encode (htyped : ∀ t, tx ≠ legacyTransaction t)
    (h : tx.encodeCanonicalToVec.length < 2 ^ 63) (rest : ByteString) :
    decodePayload (tx.encodeCanonicalToVec ++ rest) = .ok (tx, rest) := by
  cases tx with
  | legacyTransaction t => exact absurd rfl (htyped t)
  | eip2930Transaction t =>
    have hcons : (eip2930Transaction t).encodeCanonicalToVec ++ rest = 0x1 :: (encode t ++ rest) := rfl
    rw [hcons, decodePayload, roundTrip t (Nat.lt_of_succ_lt h)]
    rfl
  | eip1559Transaction t =>
    have hcons : (eip1559Transaction t).encodeCanonicalToVec ++ rest = 0x2 :: (encode t ++ rest) := rfl
    rw [hcons, decodePayload,
      roundTrip t (Nat.lt_of_succ_lt h)]
    rfl
  | eip4844Transaction t =>
    have hcons : (eip4844Transaction t).encodeCanonicalToVec ++ rest = 0x3 :: (encode t ++ rest) := rfl
    rw [hcons, decodePayload,
      roundTrip t (Nat.lt_of_succ_lt h)]
    rfl

theorem roundTrip_typed (htyped : ∀ t, tx ≠ legacyTransaction t)
    (h56 : 56 ≤ tx.encodeCanonicalToVec.length) (h : (encode tx).length < 2 ^ 63) : RoundTrip tx := by
  intro rest
  rw [(encodeCanonicalToVec_typed htyped).1] at h ⊢
  have hc := (le_length_encodeSlice _).trans_lt h
  obtain ⟨hbytes, hpay⟩ := unwrap_long h56 hc rest
  rw [decode_wrapped hbytes hpay, decodePayload_encode htyped hc]

theorem roundTrip_of_wrappedLong (hlong : tx.WrappedLong)
    (h : (encode tx).length < 2 ^ 63) : RoundTrip tx := by
  intro rest
  cases tx with
  | legacyTransaction t =>
    obtain ⟨x, tl, hx, hlo⟩ := finish_first h
    have hlegacy : isEncodedAsBytes (encode t ++ rest) = .ok false := by
      have hcons : encode t ++ rest = x :: (tl ++ rest) := congrArg (· ++ rest) hx
      rw [hcons, isEncodedAsBytes_cons, decide_eq_false (by omega)]
    change decodeUnfinished (encode t ++ rest) = _
    rw [decode_legacy hlegacy, roundTrip t h]
    rfl
  | eip2930Transaction t => exact roundTrip_typed (fun _ => by simp) hlong h rest
  | eip1559Transaction t => exact roundTrip_typed (fun _ => by simp) hlong h rest
  | eip4844Transaction t => exact roundTrip_typed (fun _ => by simp) hlong h rest

/-- A shorter one is taken for a legacy transaction, which is a list. -/
theorem decode_short (hshort : ¬ tx.WrappedLong) (rest : ByteString) :
    (decodeUnfinished (encode tx ++ rest) : Decode (Transaction × ByteString)) =
      Decode.fail .unexpectedString := by
  have htyped : ∀ t, tx ≠ legacyTransaction t := by
    rintro t rfl
    exact hshort trivial
  have h56 : tx.encodeCanonicalToVec.length < 56 := by
    cases tx with
    | legacyTransaction t => exact absurd rfl (htyped t)
    | eip2930Transaction t => exact Nat.not_le.mp hshort
    | eip1559Transaction t => exact Nat.not_le.mp hshort
    | eip4844Transaction t => exact Nat.not_le.mp hshort
  obtain ⟨henc, h2⟩ := encodeCanonicalToVec_typed htyped
  rw [henc, decode_legacy (isEncodedAsBytes_short h56 h2 rest)]
  change _ <$> (Decoder.new _ >>= _) = _
  rw [Decoder.new, encodeSlice_eq (by omega), decodeRlpItem_rlpBytes (by omega)]
  rfl

theorem length_encode_pos (tx : Transaction) : 0 < (encode tx).length := by
  cases tx with
  | legacyTransaction t => exact encode_pos t
  | _ => exact length_encodeSlice_pos _

theorem roundTrip_transactions (h : (encode txs).length < 2 ^ 63)
    (hlong : ∀ tx ∈ txs, tx.WrappedLong) : RoundTrip txs := by
  have hflat := length_flatMap_le_encode txs
  refine roundTrip_list (fun tx htx => roundTrip_of_wrappedLong (hlong tx htx) ?_)
    (fun tx _ => tx.length_encode_pos) (by omega)
  have := length_le_flatMap htx
  omega

theorem wrappedLong_of_decode {rest : ByteString}
    {w : List Transaction × ByteString} (h : (encode txs).length < 2 ^ 63)
    (hw : decodeUnfinished (encode txs ++ rest) = .ok w) : ∀ tx ∈ txs, tx.WrappedLong := by
  have hflat := length_flatMap_le_encode txs
  rw [decode_list_eq (fun tx _ => tx.length_encode_pos) (by omega)] at hw
  obtain ⟨v, hv, -⟩ := Outcome.bind_ok_inv hw
  refine decodeElements_ok (fun tx htx hlong => roundTrip_of_wrappedLong hlong ?_)
    (fun tx _ => tx.length_encode_pos) (fun tx _ hshort rest w hok => ?_) hv
  · have := length_le_flatMap htx
    omega
  · rw [decode_short hshort] at hok
    cases hok

end Transaction

/-! ## Bodies and blocks -/

def BlockBody.fields (body : BlockBody) : ByteString :=
  encode body.transactions ++ (encode body.ommers ++ encodeOpt body.withdrawals)

theorem BlockBody.decode_fields {k : BlockBody × Decoder → Decode δ} {d : Decode δ} (h : body.fields.length < 2 ^ 63)
    (hommers : ∀ header ∈ body.ommers, header.ForkOrder) (hlong : ∀ tx ∈ body.transactions, tx.WrappedLong)
    (hk : k (body, ⟨[], rest⟩) = d) :
    (do
      let (transactions, decoder) ← Decoder.decodeField (List Transaction) ⟨body.fields, rest⟩ "transactions"
      let (ommers, decoder) ← decoder.decodeField (List BlockHeader) "ommers"
      let (withdrawals, decoder) ← decoder.decodeOptionalField (List Withdrawal)
      k (⟨transactions, ommers, withdrawals⟩, decoder)) = d := by
  simp only [BlockBody.fields, length_append] at h
  have hround : RoundTrip body.ommers := by
    have hflat := length_flatMap_le_encode body.ommers
    refine roundTrip_list (fun header hm => (hommers header hm).roundTrip ?_)
      (fun _ _ => length_finish_pos _) (by omega)
    have := length_le_flatMap hm
    omega
  rw [BlockBody.fields, decodeField_ok (roundTrip_transactions (by omega) hlong), Outcome.bind_ok]
  dsimp only
  rw [decodeField_ok hround]
  exact decodeOptionalField_bind_last (by omega) ⟨_, rfl⟩ hk

/-- Only then: the transactions are the first field that is read. -/
theorem BlockBody.wrappedLong_of_fields
    {k : List Transaction × Decoder → Decode δ} {d : δ}
    (h : body.fields.length < 2 ^ 63)
    (hok : (Decoder.decodeField (List Transaction) ⟨body.fields, rest⟩ "transactions" >>= k) = .ok d) :
    ∀ tx ∈ body.transactions, tx.WrappedLong := by
  simp only [BlockBody.fields, length_append] at h
  obtain ⟨⟨txs, decoder⟩, hfield, -⟩ := Outcome.bind_ok_inv hok
  exact wrappedLong_of_decode (by omega) (decodeField_inv hfield).1

theorem BlockBody.roundTrip_iff (h : (encode body).length < 2 ^ 63)
    (hommers : ∀ header ∈ body.ommers, header.ForkOrder) (rest : ByteString) :
    decodeUnfinished (encode body ++ rest) = .ok (body, rest) ↔
      ∀ tx ∈ body.transactions, tx.WrappedLong := by
  obtain ⟨hfin, hlen⟩ := finish_fits h
  have hfields : (((Encoder.new.encodeField body.transactions).encodeField
      body.ommers).encodeOptionalField body.withdrawals).tempBuf = body.fields := by
    simp only [tempBuf_encodeField, tempBuf_encodeOptionalField, tempBuf_new, nil_append,
      append_assoc, BlockBody.fields]
  rw [hfields] at hlen
  have hnew : Decoder.new (encode body ++ rest) = .ok ⟨body.fields, rest⟩ := by
    have : encode body = rlpList body.fields := by rw [← hfields]; exact hfin
    rw [this, decoder_new (by omega)]
  change (Decoder.new (encode body ++ rest) >>= _) = _ ↔ _
  rw [hnew]
  constructor
  · exact BlockBody.wrappedLong_of_fields hlen
  · intro hlong
    exact BlockBody.decode_fields (k := fun (body, decoder) => do
      let rest ← decoder.finish
      pure (body, rest)) hlen hommers hlong rfl

theorem Block.roundTrip_iff {block : Block} (h : (encode block).length < 2 ^ 63)
    (hheader : block.header.ForkOrder) (hommers : ∀ header ∈ block.body.ommers, header.ForkOrder)
    (rest : ByteString) :
    decodeUnfinished (encode block ++ rest) = .ok (block, rest) ↔
      ∀ tx ∈ block.body.transactions, tx.WrappedLong := by
  obtain ⟨hfin, hlen⟩ := finish_fits h
  have hfields : ((((Encoder.new.encodeField block.header).encodeField
      block.body.transactions).encodeField block.body.ommers).encodeOptionalField
      block.body.withdrawals).tempBuf = encode block.header ++ block.body.fields := by
    simp only [tempBuf_encodeField, tempBuf_encodeOptionalField, tempBuf_new, nil_append,
      append_assoc, BlockBody.fields]
  rw [hfields] at hlen
  have hnew : Decoder.new (encode block ++ rest) = .ok ⟨encode block.header ++ block.body.fields, rest⟩ := by
    have : encode block = rlpList (encode block.header ++ block.body.fields) := by rw [← hfields]; exact hfin
    rw [this, decoder_new (by omega)]
  rw [length_append] at hlen
  change (Decoder.new (encode block ++ rest) >>= _) = _ ↔ _
  rw [hnew, Outcome.bind_ok, decodeField_ok (hheader.roundTrip (by omega))]
  constructor
  · exact BlockBody.wrappedLong_of_fields (by omega)
  · intro hlong
    exact BlockBody.decode_fields (k := fun (body, decoder) => do
      let remaining ← decoder.finish
      pure ((⟨block.header, body⟩ : Block), remaining)) (by omega) hommers hlong rfl

/-- What was stored or sent is read back, with whatever follows it, if every transaction is a legacy
one or has a canonical encoding of 56 bytes or more; and only then. -/
theorem stored_roundTrip_iff (rest : ByteString) :
    (∀ tx : Transaction, (encode tx).length < 2 ^ 63 →
      (decodeUnfinished (encode tx ++ rest) = .ok (tx, rest) ↔ tx.WrappedLong)) ∧
    (∀ body : BlockBody, (encode body).length < 2 ^ 63 → (∀ header ∈ body.ommers, header.ForkOrder) →
      (decodeUnfinished (encode body ++ rest) = .ok (body, rest) ↔
        ∀ tx ∈ body.transactions, tx.WrappedLong)) ∧
    ∀ block : Block, (encode block).length < 2 ^ 63 → block.header.ForkOrder →
      (∀ header ∈ block.body.ommers, header.ForkOrder) →
      (decodeUnfinished (encode block ++ rest) = .ok (block, rest) ↔
        ∀ tx ∈ block.body.transactions, tx.WrappedLong) := by
  refine ⟨fun tx h => ⟨fun hok => ?_, fun hlong => ?_⟩, fun body h hommers => ?_,
    fun block h hheader hommers => ?_⟩
  · by_contra hshort
    rw [decode_short hshort] at hok
    cases hok
  · exact roundTrip_of_wrappedLong hlong h rest
  · exact BlockBody.roundTrip_iff h hommers rest
  · exact Block.roundTrip_iff h hheader hommers rest

def dataTransaction (data : ByteString) : Transaction :=
  .eip1559Transaction ⟨0, 0, 0, 0, 0, .create, 0, ⟨data⟩, [], false, 0, 0⟩

theorem short_transaction_lost :
    (decode (encode (dataTransaction [])) : Decode Transaction) = Decode.fail .unexpectedString ∧
      (decode (encode (⟨[dataTransaction []], [], some []⟩ : BlockBody)) : Decode BlockBody) =
        Decode.fail (.custom ("Error decoding field 'transactions' of type " ++
          "alloc::vec::Vec<ethereum_rust_core::types::transaction::Transaction>: UnexpectedString")) := by
  decide +kernel

/-! ## Receipts and canonical encodings -/

def Receipt.fields (r : Receipt) : Encoder :=
  (((Encoder.new.encodeField r.succeeded).encodeField r.cumulativeGasUsed).encodeField
    r.bloom).encodeField r.logs

theorem Receipt.length_finish_le (r : Receipt) : r.fields.finish.length ≤ (encode r).length := by
  change _ ≤ (_ ++ r.fields.finish).length
  rw [length_append]
  omega

theorem decodeReceiptType_encode {r : Receipt} (h : r.fields.finish.length < 2 ^ 63) (rest : ByteString) :
    decodeReceiptType (encode r ++ rest) = .ok (r.txType, r.fields.finish ++ rest) := by
  obtain ⟨txType, succeeded, cumulativeGasUsed, bloom, logs⟩ := r
  cases txType with
  | legacy =>
    obtain ⟨x, tl, hx, hlo⟩ := finish_first h
    have hnot : ¬ x < 0x7f := by
      change ¬ x.toNat < 0x7f
      omega
    have hcons : encode (⟨.legacy, succeeded, cumulativeGasUsed, bloom, logs⟩ : Receipt) ++ rest =
        x :: (tl ++ rest) := congrArg (· ++ rest) hx
    rw [hcons, hx]
    change (if x < 0x7f then _ else _) = _
    rw [if_neg hnot]
    rfl
  | eip2930 => rfl
  | eip1559 => rfl
  | eip4844 => rfl

instance : LawfulRLP Receipt where
  encode_pos r := (length_finish_pos _).trans_le r.length_finish_le
  roundTrip r h rest := by
    have hfin := r.length_finish_le.trans_lt h
    change (decodeReceiptType (encode r ++ rest) >>= _) = _
    rw [decodeReceiptType_encode hfin, Outcome.bind_ok]
    refine roundTrip_struct hfin fun hlen => ?_
    simp only [Receipt.fields, tempBuf_encodeField, tempBuf_new, nil_append,
      append_assoc] at hlen ⊢
    iterate 3 refine decodeField_bind hlen fun hlen => ?_
    exact decodeField_bind_last hlen rfl

theorem length_encodeUint_le (w n : Nat) : (encodeUint w n).length ≤ w + 1 := by
  have hsig : (significantBytes w n).length ≤ w := by
    have := (dropWhile_sublist (· == 0) (l := beBytes w n)).length_le
    rwa [length_beBytes] at this
  unfold encodeUint
  split
  · simp
  · split
    · simp
    · simpa using hsig

theorem length_encodeSlice_le {b : ByteString} (h : b.length < 2 ^ 64) :
    (encodeSlice b).length ≤ b.length + 9 := by
  rw [encodeSlice_eq h]
  exact length_rlpBytes_le h

theorem length_finish_le (h : e.tempBuf.length < 2 ^ 64) :
    e.finish.length ≤ e.tempBuf.length + 9 := by
  rw [finish_eq h]
  exact length_rlpList_le h

theorem length_encode_u64_le (v : UInt64) : (encode v).length ≤ 9 := length_encodeUint_le 8 v.toNat

theorem length_encode_fixed_le (v : FixedBytes n) (h : n < 2 ^ 64) : (encode v).length ≤ n + 9 := by
  have := length_encodeSlice_le (b := v.1) (by rw [v.2]; exact h)
  rwa [v.2] at this

theorem length_encode_u256_le (v : U256) : (encode v).length ≤ 41 := by
  have hsig : (significantBytes 32 v.toNat).length ≤ 32 := by
    have := (dropWhile_sublist (· == 0) (l := beBytes 32 v.toNat)).length_le
    rwa [length_beBytes] at this
  have := length_encodeSlice_le (b := significantBytes 32 v.toNat) (by omega)
  change (encodeSlice _).length ≤ _
  omega

theorem length_encode_withdrawal (w : Withdrawal) : (encode w).length < 2 ^ 63 := by
  have h1 := length_encode_u64_le w.index
  have h2 := length_encode_u64_le w.validatorIndex
  have h3 := length_encode_fixed_le w.address (by norm_num)
  have h4 := length_encode_u64_le w.amount
  have hbuf : ((((Encoder.new.encodeField w.index).encodeField w.validatorIndex).encodeField
      w.address).encodeField w.amount).tempBuf.length ≤ 60 := by
    simp only [tempBuf_encodeField, tempBuf_new, nil_append, length_append]
    omega
  have := length_finish_le (hbuf.trans_lt (by norm_num))
  change (Encoder.finish _).length < _
  omega

theorem length_encode_accountState_le (a : AccountState) : (encode a).length ≤ 149 := by
  have h1 := length_encode_u64_le a.nonce
  have h2 := length_encode_u256_le a.balance
  have h3 := length_encode_fixed_le a.storageRoot (by norm_num)
  have h4 := length_encode_fixed_le a.codeHash (by norm_num)
  have hbuf : ((((Encoder.new.encodeField a.nonce).encodeField a.balance).encodeField
      a.storageRoot).encodeField a.codeHash).tempBuf.length ≤ 140 := by
    simp only [tempBuf_encodeField, tempBuf_new, nil_append, length_append]
    omega
  have := length_finish_le (hbuf.trans_lt (by norm_num))
  change (Encoder.finish _).length ≤ _
  omega

theorem length_encode_accountState (a : AccountState) : (encode a).length < 2 ^ 63 :=
  (length_encode_accountState_le a).trans_lt (by norm_num)

/-- Canonical encodings of transactions are read back, so no two transactions share one; receipts,
logs, withdrawals and account states are read back with whatever follows them. -/
theorem canonical_roundTrip (tx : Transaction) (r : Receipt) (log : Log)
    (htx : tx.encodeCanonicalToVec.length < 2 ^ 63) (hr : (encode r).length < 2 ^ 63)
    (hlog : (encode log).length < 2 ^ 63) :
    Transaction.decodeCanonical tx.encodeCanonicalToVec = .ok tx ∧
    (∀ tx' : Transaction, tx'.encodeCanonicalToVec.length < 2 ^ 63 → tx ≠ tx' →
      tx.encodeCanonicalToVec ≠ tx'.encodeCanonicalToVec) ∧
    (∀ rest, decodeUnfinished (encode r ++ rest) = .ok (r, rest)) ∧
    (∀ rest, decodeUnfinished (encode log ++ rest) = .ok (log, rest)) ∧
    (∀ (w : Withdrawal) (rest : ByteString), decodeUnfinished (encode w ++ rest) = .ok (w, rest)) ∧
    ∀ (a : AccountState) (rest : ByteString), decodeUnfinished (encode a ++ rest) = .ok (a, rest) := by
  refine ⟨decodeCanonical_encode htx, fun tx' htx' hne heq => hne ?_, roundTrip r hr,
    roundTrip log hlog, fun w => roundTrip w (length_encode_withdrawal w),
    fun a => roundTrip a (length_encode_accountState a)⟩
  have h := decodeCanonical_encode htx
  rw [heq, decodeCanonical_encode htx'] at h
  exact (Except.ok.inj h).symm

def sampleLog : Log := ⟨Address.ofNat 7, [H256.ofNat 1, H256.ofNat 2], ⟨[0xde, 0xad]⟩⟩

def sampleReceipt : Receipt := ⟨.eip1559, true, 21000, Bloom.zero, [sampleLog]⟩

theorem canonical_roundTrip_sample :
    Transaction.decodeCanonical (dataTransaction [1, 2]).encodeCanonicalToVec = .ok (dataTransaction [1, 2]) ∧
      (dataTransaction [1, 2]).encodeCanonicalToVec ≠ (dataTransaction [1]).encodeCanonicalToVec ∧
      decodeUnfinished (encode sampleReceipt ++ [0x80]) = .ok (sampleReceipt, [0x80]) ∧
      decodeUnfinished (encode sampleLog ++ [0x80]) = .ok (sampleLog, [0x80]) := by
  obtain ⟨htx, hne, hr, hlog, -⟩ := canonical_roundTrip (dataTransaction [1, 2]) sampleReceipt sampleLog
    (by decide +kernel) (by decide +kernel) (by decide +kernel)
  exact ⟨htx, hne (dataTransaction [1]) (by decide +kernel) (by decide), hr [0x80], hlog [0x80]⟩

end EthereumRust.Core
