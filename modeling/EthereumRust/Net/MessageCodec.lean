import EthereumRust.Net.Discv4

/-! # Discovery messages are read back

A decoder ignores what follows the fields of a message. Only a message whose last field
is optional and missing, and a node record, have to end where they do. -/

namespace EthereumRust.Net

open Rlp List

/-! ## Endpoints and nodes -/

instance : LawfulRLP Endpoint where
  encode_pos _ := length_finish_pos _
  roundTrip endpoint h rest := roundTrip_struct h fun hlen => by
    simp only [tempBuf_encodeField, tempBuf_new, List.nil_append, List.append_assoc] at hlen ⊢
    iterate 2 refine decodeField_bind hlen fun hlen => ?_
    exact decodeField_bind_last hlen rfl

instance : LawfulRLP Node where
  encode_pos _ := length_finish_pos _
  roundTrip node h rest := roundTrip_struct h fun hlen => by
    simp only [tempBuf_encodeField, tempBuf_new, List.nil_append, List.append_assoc] at hlen ⊢
    iterate 3 refine decodeField_bind hlen fun hlen => ?_
    exact decodeField_bind_last hlen rfl

/-! ## Node records -/

/-- A record that can be sent: it is short, each value is an item, and the value of the key `id` is the name of the
identity scheme. -/
structure NodeRecord.WellFormed (record : NodeRecord) : Prop where
  length : (encode record).length ≤ MAX_NODE_RECORD_ENCODED_SIZE
  values : ∀ pair ∈ record.pairs, getItemWithPrefix pair.2.data = .ok (pair.2.data, [])
  id : ∃ pair, idPair record.pairs = some pair ∧ (decode pair.2.data : Decode String) = .ok record.id

/-- The bytes of a key and a value. -/
def pairBytes (pair : Bytes × Bytes) : ByteString := encode pair.1 ++ pair.2.data

theorem tempBuf_encodeKeyValueList (e : Encoder) (pairs : List (Bytes × Bytes)) :
    (e.encodeKeyValueList pairs).tempBuf = e.tempBuf ++ pairs.flatMap pairBytes := rfl

theorem decodeNodeRecordOptionalFields_encode
    (hvalues : ∀ pair ∈ pairs, getItemWithPrefix pair.2.data = .ok (pair.2.data, []))
    (hlength : (pairs.flatMap pairBytes).length < 2 ^ 63) (hfuel : (pairs.flatMap pairBytes).length < fuel) :
    decodeNodeRecordOptionalFields fuel before ⟨pairs.flatMap pairBytes, remaining⟩ =
      .ok (before ++ pairs, ⟨[], remaining⟩) := by
  induction pairs generalizing fuel before with
  | nil =>
    obtain ⟨fuel, rfl⟩ := Nat.exists_eq_succ_of_ne_zero (Nat.ne_zero_of_lt hfuel)
    rw [append_nil]
    rfl
  | cons pair pairs ih =>
    obtain ⟨fuel, rfl⟩ := Nat.exists_eq_succ_of_ne_zero (Nat.ne_zero_of_lt hfuel)
    rw [flatMap_cons, pairBytes, append_assoc] at hlength hfuel ⊢
    rw [length_append, length_append] at hlength hfuel
    have hpos := encode_pos pair.1
    have hkey : Decoder.decodeOptionalField Bytes
        ⟨encode pair.1 ++ (pair.2.data ++ pairs.flatMap pairBytes), remaining⟩ =
        .ok (some pair.1, ⟨pair.2.data ++ pairs.flatMap pairBytes, remaining⟩) := by
      rw [Decoder.decodeOptionalField, roundTrip pair.1 (by omega) _]
    have hvalue : Rust.unwrap (Decoder.getEncodedItem ⟨pair.2.data ++ pairs.flatMap pairBytes, remaining⟩) =
        (.ok (pair.2.data, ⟨pairs.flatMap pairBytes, remaining⟩) : Decode (ByteString × Decoder)) := by
      rw [Decoder.getEncodedItem, getItemWithPrefix_append _ (hvalues pair mem_cons_self)]
      rfl
    rw [decodeNodeRecordOptionalFields, hkey]
    change (Rust.unwrap (Decoder.getEncodedItem ⟨pair.2.data ++ pairs.flatMap pairBytes, remaining⟩) >>= _) = _
    rw [hvalue]
    refine (ih (fun pair hpair => hvalues pair (mem_cons_of_mem _ hpair)) (by omega) (by omega)).trans ?_
    rw [append_assoc]
    rfl

theorem NodeRecord.WellFormed.decode {record : NodeRecord} (h : record.WellFormed) :
    (decodeUnfinished (encode record) : Decode (NodeRecord × ByteString)) = .ok (record, []) := by
  have hshort : ¬ (encode record).length > MAX_NODE_RECORD_ENCODED_SIZE := Nat.not_lt.mpr h.length
  change (if (encode record).length > MAX_NODE_RECORD_ENCODED_SIZE then _ else _) = _
  rw [if_neg hshort]
  have hfits : (encode record).length < 2 ^ 63 := h.length.trans_lt (by norm_num [MAX_NODE_RECORD_ENCODED_SIZE])
  rw [← append_nil (encode record)]
  refine roundTrip_struct hfits fun hlen => ?_
  rw [tempBuf_encodeKeyValueList] at hlen ⊢
  simp only [tempBuf_encodeField, append_assoc] at hlen ⊢
  iterate 2 refine decodeField_bind hlen fun hlen => ?_
  obtain ⟨pair, hpair, hid⟩ := h.id
  rw [NodeRecord.decodePairs, decodeNodeRecordOptionalFields_encode h.values hlen (Nat.lt_succ_self _)]
  simp only [Outcome.bind_ok, nil_append, hpair, hid]
  rfl

/-! ## Messages -/

namespace Message

def fields : Message → Encoder
  | ping msg => Encoder.new.encodeField msg.version |>.encodeField msg.sender |>.encodeField msg.recipient
    |>.encodeField msg.expiration |>.encodeOptionalField msg.enrSeq
  | pong msg => Encoder.new.encodeField msg.recipient |>.encodeField msg.pingHash
    |>.encodeField msg.expiration |>.encodeOptionalField msg.enrSeq
  | findNode msg => Encoder.new.encodeField msg.target |>.encodeField msg.expiration
  | neighbors msg => Encoder.new.encodeField msg.nodes |>.encodeField msg.expiration
  | enrRequest msg => Encoder.new.encodeField msg.expiration
  | enrResponse msg => Encoder.new.encodeField msg.requestHash |>.encodeField msg.nodeRecord

def extended (self : Message) (extra : ByteString) : ByteString := Encoder.finish ⟨self.fields.tempBuf ++ extra⟩

theorem encodeWithType_eq (m : Message) : m.encodeWithType = m.packetType :: m.extended [] := by
  rw [extended, append_nil]
  cases m <;> rfl

/-- A node record has to be one that can be sent. -/
def WellFormed : Message → Prop
  | enrResponse msg => msg.nodeRecord.WellFormed
  | _ => True

/-- The messages in which more fields may follow: those without an optional field, or with it. -/
def Extensible : Message → Prop
  | ping msg => msg.enrSeq.isSome
  | pong msg => msg.enrSeq.isSome
  | findNode _ | neighbors _ | enrRequest _ => True
  | enrResponse _ => False

theorem decode_uint64_nil : ∃ e, (decodeUnfinished [] : Decode (UInt64 × ByteString)) = Decode.fail e := ⟨_, rfl⟩

theorem map_decoded {α : Type} {x : Decode (α × ByteString)} {msg : α} (f : α → Message) (trailing : ByteString)
    (h : x = .ok (msg, trailing)) : (fun p : α × ByteString => f p.1) <$> x = .ok (f msg) := by
  rw [h]
  rfl

/-- A message is read back with more fields where they may follow, and with more bytes after its list. -/
theorem decodeWithType_extended {m : Message} (hm : m.WellFormed) {extra : ByteString}
    (hextra : m.Extensible ∨ extra = [])
    (h : (m.extended extra).length < 2 ^ 63) (trailing : ByteString) :
    decodeWithType m.packetType (m.extended extra ++ trailing) = .ok m := by
  cases m with
  | ping msg =>
    refine map_decoded ping trailing (roundTrip_struct h fun hlen => ?_)
    simp only [fields, tempBuf_encodeField, tempBuf_encodeOptionalField,
      append_assoc] at hlen ⊢
    iterate 4 refine decodeField_bind hlen fun hlen => ?_
    refine decodeOptionalField_bind hlen (fun hnone => ?_) decode_uint64_nil fun _ => rfl
    exact hextra.resolve_left fun hsome => by simp [Extensible, hnone] at hsome
  | pong msg =>
    refine map_decoded pong trailing (roundTrip_struct h fun hlen => ?_)
    simp only [fields, tempBuf_encodeField, tempBuf_encodeOptionalField,
      append_assoc] at hlen ⊢
    iterate 3 refine decodeField_bind hlen fun hlen => ?_
    refine decodeOptionalField_bind hlen (fun hnone => ?_) decode_uint64_nil fun _ => rfl
    exact hextra.resolve_left fun hsome => by simp [Extensible, hnone] at hsome
  | findNode msg =>
    refine map_decoded findNode trailing (roundTrip_struct h fun hlen => ?_)
    simp only [fields, tempBuf_encodeField, append_assoc] at hlen ⊢
    exact decodeField_bind hlen fun hlen => decodeField_bind hlen fun _ => rfl
  | neighbors msg =>
    refine map_decoded neighbors trailing (roundTrip_struct h fun hlen => ?_)
    simp only [fields, tempBuf_encodeField, append_assoc] at hlen ⊢
    exact decodeField_bind hlen fun hlen => decodeField_bind hlen fun _ => rfl
  | enrRequest msg =>
    refine map_decoded enrRequest trailing (roundTrip_struct h fun hlen => ?_)
    exact decodeField_bind hlen fun _ => rfl
  | enrResponse msg =>
    obtain rfl : extra = [] := hextra.resolve_left id
    have hrecord : NodeRecord.WellFormed msg.nodeRecord := hm
    refine map_decoded enrResponse trailing (roundTrip_struct h fun hlen => ?_)
    simp only [append_nil] at hlen ⊢
    refine decodeField_bind hlen fun hlen => ?_
    rw [Decoder.decodeField, hrecord.decode]
    rfl

/-- A message is read back whatever follows it, and those with all their fields also with more fields. -/
theorem message_roundTrip (m : Message) (hm : m.WellFormed) (trailing : ByteString) :
    (m.encodeWithType.length < 2 ^ 63 →
      decodeWithType m.packetType (m.encodeWithType.tail ++ trailing) = .ok m) ∧
    (m.Extensible → ∀ extra, (m.extended extra).length < 2 ^ 63 →
      decodeWithType m.packetType (m.extended extra ++ trailing) = .ok m) := by
  refine ⟨fun h => ?_, fun hextensible extra h => decodeWithType_extended hm (.inl hextensible) h trailing⟩
  rw [encodeWithType_eq, List.length_cons] at h
  rw [encodeWithType_eq]
  exact decodeWithType_extended hm (.inr rfl) (by omega) trailing

end Message

/-- An answer with a record that names the identity scheme and has one more pair. -/
def sampleResponse : Message :=
  .enrResponse ⟨⟨beBytes 32 1, length_beBytes _ _⟩, ⟨⟨beBytes 64 1, length_beBytes _ _⟩, 1, "v4",
    [(⟨[105, 100]⟩, ⟨[0x82, 118, 52]⟩), (⟨[117, 100, 112]⟩, ⟨[0x82, 0x76, 0x5f]⟩)]⟩⟩

theorem message_roundTrip_sample :
    sampleResponse.WellFormed ∧
      Message.decodeWithType 0x06 (sampleResponse.encodeWithType.tail ++ [1, 2, 3]) = .ok sampleResponse := by
  have hwell : sampleResponse.WellFormed := by
    refine ⟨by decide +kernel, by decide +kernel, (⟨[105, 100]⟩, ⟨[0x82, 118, 52]⟩),
      by decide +kernel, by decide +kernel⟩
  exact ⟨hwell, (Message.message_roundTrip sampleResponse hwell [1, 2, 3]).1 (by decide +kernel)⟩

end EthereumRust.Net
