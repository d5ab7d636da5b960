import EthereumRust.Core.Codec
import EthereumRust.Core.ForkId
import EthereumRust.Rlp.Reads

/-! # `crates/net/rlpx/{message,p2p,eth,connection}.rs`: the messages of an RLPx connection

The compression and the conversion of public keys to node ids are parameters. -/

namespace EthereumRust.Net.Rlpx

open Rlp Core

class Snappy where
  compress : ByteString → ByteString
  decompress : ByteString → Option ByteString

/-- `pubkey2id` and `id2pubkey` -/
class NodeKeys (PublicKey : Type) where
  pubkey2id : PublicKey → H512
  id2pubkey : H512 → Option PublicKey

export NodeKeys (pubkey2id id2pubkey)

/-! ## Messages -/

structure HelloMessage (PublicKey : Type) where
  capabilities : List (String × UInt8)
  nodeId : PublicKey
  deriving DecidableEq

structure DisconnectMessage where
  reason : Option UInt8
  deriving DecidableEq

structure StatusMessage where
  ethVersion : UInt32
  networkId : UInt64
  totalDifficulty : U256
  blockHash : BlockHash
  genesis : BlockHash
  forkId : ForkId
  deriving DecidableEq

inductive Message (PublicKey : Type) where
  | hello (msg : HelloMessage PublicKey)
  | disconnect (msg : DisconnectMessage)
  | ping
  | pong
  | status (msg : StatusMessage)
  deriving DecidableEq

def assertEq {ε α : Type} [DecidableEq α] (left right : α) (message : String) : Outcome ε Unit :=
  Rust.assert (left = right) ("assertion `left == right` failed: " ++ message)

section

variable {PublicKey : Type} [NodeKeys PublicKey] [Snappy]

/-! ### Hello -/

omit [Snappy] in
def HelloMessage.fields (self : HelloMessage PublicKey) : Encoder :=
  Encoder.new.encodeField (5 : UInt8) |>.encodeField "Ethereum(++)/1.0.0" |>.encodeField self.capabilities
    |>.encodeField (0 : UInt8) |>.encodeField (pubkey2id self.nodeId)

omit [Snappy] in
def HelloMessage.encode (self : HelloMessage PublicKey) : ByteString := Rlp.encode (0 : UInt8) ++ self.fields.finish

omit [Snappy] in
def HelloMessage.decode (msgData : ByteString) : Decode (HelloMessage PublicKey) := do
  let decoder ← Rust.unwrap (Decoder.new msgData)
  let (protocolVersion, decoder) ← Rust.unwrap (decoder.decodeField UInt64 "protocolVersion")
  assertEq protocolVersion 5 "only protocol version 5 is supported"
  let (_, decoder) ← Rust.unwrap (decoder.decodeField String "clientId")
  let (capabilities, decoder) ← Rust.unwrap (decoder.decodeField (List (String × UInt8)) "capabilities")
  let (_, decoder) ← Rust.unwrap (decoder.decodeField UInt16 "listenPort")
  let (nodeId, _) ← Rust.unwrap (decoder.decodeField H512 "nodeId")
  let nodeId ← Rust.expect (id2pubkey nodeId) "called `Option::unwrap()` on a `None` value"
  pure ⟨capabilities, nodeId⟩

/-! ### Compressed messages -/

omit [NodeKeys PublicKey] in
def decompressed (msgData : ByteString) : Decode ByteString :=
  Rust.expect (Snappy.decompress msgData) "called `Result::unwrap()` on an `Err` value"

def DisconnectMessage.encode (self : DisconnectMessage) : ByteString :=
  let encodedData := match self.reason with
    | some value => (Encoder.new.encodeField value).finish
    | none => Rlp.encode ([] : List UInt8)
  Rlp.encode (1 : UInt8) ++ Snappy.compress encodedData

def DisconnectMessage.decode (msgData : ByteString) : Decode DisconnectMessage := do
  match ← decompressed msgData with
  | [] => pure ⟨none⟩
  | [reason] => pure ⟨some reason⟩
  | decompressedData =>
    let decoder ← Decoder.new decompressedData
    let (reason, _) ← decoder.decodeOptionalField UInt8
    pure ⟨reason⟩

def encodeEmpty (msgId : UInt8) : ByteString := Rlp.encode msgId ++ Snappy.compress (Rlp.encode ([] : List UInt8))

def decodeEmpty (message : String) (msgData : ByteString) : Decode Unit := do
  let decoder ← Decoder.new (← decompressed msgData)
  assertEq decoder.finishUnchecked [] message

def PingMessage.encode : ByteString := encodeEmpty 2

def PingMessage.decode : ByteString → Decode Unit := decodeEmpty "Ping msg_data should be &[]"

def PongMessage.encode : ByteString := encodeEmpty 2

def PongMessage.decode : ByteString → Decode Unit := decodeEmpty "Pong msg_data should be &[]"

def StatusMessage.fields (self : StatusMessage) : Encoder :=
  Encoder.new.encodeField self.ethVersion |>.encodeField self.networkId |>.encodeField self.totalDifficulty
    |>.encodeField self.blockHash |>.encodeField self.genesis |>.encodeField self.forkId

def StatusMessage.encode (self : StatusMessage) : ByteString :=
  Rlp.encode (16 : UInt8) ++ Snappy.compress self.fields.finish

def StatusMessage.decode (msgData : ByteString) : Decode StatusMessage := do
  let decoder ← Decoder.new (← decompressed msgData)
  let (ethVersion, decoder) ← Rust.unwrap (decoder.decodeField UInt32 "protocolVersion")
  assertEq ethVersion 68 "only eth version 68 is supported"
  let (networkId, decoder) ← Rust.unwrap (decoder.decodeField UInt64 "networkId")
  let (totalDifficulty, decoder) ← Rust.unwrap (decoder.decodeField U256 "totalDifficulty")
  let (blockHash, decoder) ← Rust.unwrap (decoder.decodeField H256 "blockHash")
  let (genesis, decoder) ← Rust.unwrap (decoder.decodeField H256 "genesis")
  let (forkId, _) ← Rust.unwrap (decoder.decodeField ForkId "forkId")
  pure ⟨ethVersion, networkId, totalDifficulty, blockHash, genesis, forkId⟩

/-! ### All messages -/

def Message.encode : Message PublicKey → ByteString
  | hello msg => msg.encode
  | disconnect msg => msg.encode
  | ping => PingMessage.encode
  | pong => PongMessage.encode
  | status msg => msg.encode

def Message.decode (msgId : UInt8) (msgData : ByteString) : Decode (Message PublicKey) :=
  if msgId = 0x00 then hello <$> HelloMessage.decode msgData
  else if msgId = 0x01 then disconnect <$> DisconnectMessage.decode msgData
  else if msgId = 0x02 then (fun _ => ping) <$> PingMessage.decode msgData
  else if msgId = 0x03 then (fun _ => pong) <$> PongMessage.decode msgData
  else if msgId = 0x10 then status <$> StatusMessage.decode msgData
  else Decode.fail .malformedData

/-- `RLPxConnection::receive` on the content of a frame: the message, after which the connection is established. -/
def receive {ε : Type} (established : Bool) (frameData : ByteString) : Outcome ε (Message PublicKey × Bool) := do
  let (msgId, msgData) ← Rust.unwrap (decodeUnfinished frameData : Decode (UInt8 × ByteString))
  if !established then
    if msgId = 0 then
      let message ← Rust.unwrap (Message.decode msgId msgData)
      match message with
      | .hello _ => pure (message, true)
      | _ => Outcome.panic "Expected Hello message"
    else Outcome.panic "Expected Hello message"
  else
    let message ← Rust.unwrap (Message.decode msgId msgData)
    pure (message, true)

end

/-! ## Messages are read back -/

instance : LawfulRLP H32 where
  encode_pos _ := length_encodeSlice_pos _
  roundTrip v h rest := decodeFixed_encodeSlice v h rest

instance : LawfulRLP ForkId where
  encode_pos _ := length_finish_pos _
  roundTrip forkId h rest := roundTrip_struct h fun hlen => by
    simp only [tempBuf_encodeField, tempBuf_new, List.nil_append] at hlen ⊢
    refine decodeField_bind hlen fun hlen => ?_
    exact decodeField_bind_last hlen rfl

section

variable {ε α δ : Type} [RLPEncode α] [RLPDecode α] [LawfulRLP α]

theorem unwrapField_bind
    (h : (Rlp.encode v ++ p).length < 2 ^ 63) (hk : p.length < 2 ^ 63 → k (v, ⟨p, rest⟩) = d) :
    (Rust.unwrap (Decoder.decodeField α ⟨Rlp.encode v ++ p, rest⟩ name) >>= k) = d := by
  rw [List.length_append] at h
  rw [decodeField_ok (roundTrip v (by omega)), ← hk (by omega)]
  rfl

theorem unwrapField_bind_last
    (h : (Rlp.encode v).length < 2 ^ 63) (hk : k (v, ⟨[], rest⟩) = d) :
    (Rust.unwrap (Decoder.decodeField α ⟨Rlp.encode v, rest⟩ name) >>= k) = d := by
  rw [decodeField_last (roundTrip v h), ← hk]
  rfl

end

theorem decoder_new_finish {e : Encoder} (h : e.finish.length < 2 ^ 63) :
    Decoder.new e.finish = .ok ⟨e.tempBuf, []⟩ := by
  obtain ⟨hfin, hlen⟩ := finish_fits h
  rw [hfin, ← List.append_nil (rlpList e.tempBuf), decoder_new (by omega)]

section

variable {PublicKey : Type} [NodeKeys PublicKey] {message : Message PublicKey}

theorem HelloMessage.decode_fields {msg : HelloMessage PublicKey} (h : msg.fields.finish.length < 2 ^ 63)
    (hkey : id2pubkey (pubkey2id msg.nodeId) = some msg.nodeId) :
    HelloMessage.decode msg.fields.finish = .ok msg := by
  have hlen := (finish_fits h).2
  -- small numbers have the same bytes in every width
  have hversion : Rlp.encode (5 : UInt8) = Rlp.encode (5 : UInt64) := by decide
  have hport : Rlp.encode (0 : UInt8) = Rlp.encode (0 : UInt16) := by decide
  rw [HelloMessage.decode, Rust.unwrap_eq_ok.2 (decoder_new_finish h), Outcome.bind_ok]
  simp only [HelloMessage.fields, tempBuf_encodeField, List.append_assoc, hversion,
    hport] at hlen ⊢
  refine unwrapField_bind hlen fun hlen => ?_
  iterate 3 refine unwrapField_bind hlen fun hlen => ?_
  refine unwrapField_bind_last hlen ?_
  rw [hkey]
  rfl

variable [Snappy]

/-- What was compressed is decompressed again. -/
def Snappy.Inverts : Prop := ∀ data : ByteString, Snappy.decompress (Snappy.compress data) = some data

omit [NodeKeys PublicKey] in
theorem Snappy.Inverts.decompressed_compress (hsnappy : Snappy.Inverts) (data : ByteString) :
    decompressed (Snappy.compress data) = .ok data := by
  rw [decompressed, hsnappy data]
  rfl

theorem StatusMessage.decode_fields (hsnappy : Snappy.Inverts) {msg : StatusMessage}
    (h : msg.fields.finish.length < 2 ^ 63) (hversion : msg.ethVersion = 68) :
    StatusMessage.decode (Snappy.compress msg.fields.finish) = .ok msg := by
  have hlen := (finish_fits h).2
  have hassert : (assertEq msg.ethVersion 68 "only eth version 68 is supported" : Decode Unit) = .ok () := by
    rw [hversion]
    rfl
  rw [StatusMessage.decode, hsnappy.decompressed_compress, Outcome.bind_ok, decoder_new_finish h]
  simp only [StatusMessage.fields, tempBuf_encodeField, List.append_assoc] at hlen ⊢
  refine unwrapField_bind hlen fun hlen => ?_
  rw [hassert]
  iterate 4 refine unwrapField_bind hlen fun hlen => ?_
  exact unwrapField_bind_last hlen rfl

/-- A reason is wrapped in a list of at least two bytes, so the decoder does not take the list for a bare reason. -/
theorem DisconnectMessage.decode_reason (hsnappy : Snappy.Inverts) (reason : UInt8) :
    DisconnectMessage.decode (Snappy.compress (Encoder.new.encodeField reason).finish) = .ok ⟨some reason⟩ := by
  have hle : (Rlp.encode reason).length ≤ 2 := length_encode_u8_le reason
  have hfinish : (Encoder.new.encodeField reason).finish = (0xc0 + UInt8.ofNat (Rlp.encode reason).length) ::
      Rlp.encode reason := by
    rw [Encoder.finish, tempBuf_encodeField, tempBuf_new, List.nil_append, encodeLength, if_pos (by omega)]
    rfl
  have hnew : Decoder.new (Encoder.new.encodeField reason).finish = .ok ⟨Rlp.encode reason, []⟩ :=
    decoder_new_finish (by rw [hfinish, List.length_cons]; omega)
  rw [DisconnectMessage.decode, hsnappy.decompressed_compress]
  obtain ⟨byte, rest, hbytes⟩ := List.exists_cons_of_length_pos (LawfulRLP.encode_pos reason)
  rw [hbytes] at hfinish
  rw [hfinish] at hnew ⊢
  change (Decoder.new _ >>= _) = _
  rw [hnew]
  exact decodeOptionalField_bind_last (o := some reason) (by rw [encodeOpt]; omega) ⟨_, rfl⟩ rfl

theorem decodeEmpty_encoded (hsnappy : Snappy.Inverts) (message : String) :
    decodeEmpty message (Snappy.compress (Rlp.encode ([] : List UInt8))) = .ok () := by
  rw [decodeEmpty, hsnappy.decompressed_compress, Outcome.bind_ok]
  have hnew : Decoder.new (Rlp.encode ([] : List UInt8)) = .ok ⟨[], []⟩ := rfl
  rfl

/-! ### The dispatcher -/

/-- The id that a message writes in front of itself. -/
def Message.sentId : Message PublicKey → UInt8
  | hello _ => 0
  | disconnect _ => 1
  | ping => 2
  | pong => 2
  | status _ => 16

/-- What a message is encoded to before compression. -/
def Message.content : Message PublicKey → ByteString
  | hello msg => msg.fields.finish
  | disconnect ⟨some reason⟩ => (Encoder.new.encodeField reason).finish
  | status msg => msg.fields.finish
  | _ => Rlp.encode ([] : List UInt8)

/-- What the receiver makes of a message. -/
def Message.received : Message PublicKey → Message PublicKey
  | pong => ping
  | disconnect ⟨none⟩ => disconnect ⟨some 0xc0⟩
  | message => message

/-- The codecs are only defined for the version of the protocol that the client speaks. -/
def Message.Supported : Message PublicKey → Prop
  | status msg => msg.ethVersion = 68
  | _ => True

theorem Message.decode_sent (hsnappy : Snappy.Inverts) (hkeys : ∀ key : PublicKey, id2pubkey (pubkey2id key) = some key)
    (hsize : message.content.length < 2 ^ 63) (hsupported : message.Supported) :
    ∃ msgData, message.encode = Rlp.encode message.sentId ++ msgData ∧
      Message.decode message.sentId msgData = .ok message.received := by
  cases message with
  | hello msg =>
    refine ⟨msg.fields.finish, rfl, ?_⟩
    change hello <$> HelloMessage.decode _ = _
    rw [HelloMessage.decode_fields hsize (hkeys msg.nodeId)]
    rfl
  | disconnect msg =>
    obtain ⟨_ | reason⟩ := msg
    · refine ⟨Snappy.compress (Rlp.encode ([] : List UInt8)), rfl, ?_⟩
      change disconnect <$> DisconnectMessage.decode _ = _
      rw [DisconnectMessage.decode, hsnappy.decompressed_compress]
      rfl
    · refine ⟨Snappy.compress (Encoder.new.encodeField reason).finish, rfl, ?_⟩
      change disconnect <$> DisconnectMessage.decode _ = _
      rw [DisconnectMessage.decode_reason hsnappy]
      rfl
  | ping =>
    refine ⟨Snappy.compress (Rlp.encode ([] : List UInt8)), rfl, ?_⟩
    change (fun _ => ping) <$> PingMessage.decode _ = _
    rw [PingMessage.decode, decodeEmpty_encoded hsnappy]
    rfl
  | pong =>
    refine ⟨Snappy.compress (Rlp.encode ([] : List UInt8)), rfl, ?_⟩
    change (fun _ => ping) <$> PingMessage.decode _ = _
    rw [PingMessage.decode, decodeEmpty_encoded hsnappy]
    rfl
  | status msg =>
    refine ⟨Snappy.compress msg.fields.finish, rfl, ?_⟩
    change status <$> StatusMessage.decode _ = _
    rw [StatusMessage.decode_fields hsnappy hsize hsupported]
    rfl

/-- `receive` yields the message that was sent: on an established connection, and before that if it is a Hello. -/
def Message.RoundTrips (ε : Type) (message : Message PublicKey) : Prop :=
  (receive true message.encode : Outcome ε _) = .ok (message, true) ∧
    ∀ msg, message = hello msg → (receive false message.encode : Outcome ε _) = .ok (message, true)

theorem receive_encode {ε : Type} (hsnappy : Snappy.Inverts)
    (hkeys : ∀ key : PublicKey, id2pubkey (pubkey2id key) = some key)
    (hsize : message.content.length < 2 ^ 63) (hsupported : message.Supported) :
    (receive true message.encode : Outcome ε _) = .ok (message.received, true) ∧
      ∀ msg, message = .hello msg → (receive false message.encode : Outcome ε _) = .ok (message, true) := by
  obtain ⟨msgData, hencode, hdecode⟩ := Message.decode_sent hsnappy hkeys hsize hsupported
  have hid : (decodeUnfinished message.encode : Decode (UInt8 × ByteString)) = .ok (message.sentId, msgData) := by
    have hle := length_encode_u8_le message.sentId
    rw [hencode]
    exact roundTrip message.sentId (by omega) msgData
  constructor
  · rw [receive, Rust.unwrap_eq_ok.2 hid]
    change (Rust.unwrap (Message.decode message.sentId msgData) >>= _) = _
    rw [Rust.unwrap_eq_ok.2 hdecode]
    rfl
  · rintro msg rfl
    rw [receive, Rust.unwrap_eq_ok.2 hid]
    change (Rust.unwrap (Message.decode _ msgData) >>= _) = _
    rw [Rust.unwrap_eq_ok.2 hdecode]
    rfl

omit [NodeKeys PublicKey] [Snappy] in
theorem Message.received_eq_iff (message : Message PublicKey) :
    message.received = message ↔ message ≠ pong ∧ message ≠ disconnect ⟨none⟩ := by
  cases message with
  | disconnect msg => obtain ⟨_ | reason⟩ := msg <;> simp [received]
  | _ => simp [received]

/-- Every message is read back except a Pong, which has the id of a Ping, and a Disconnect without a reason, whose
empty list is taken for the reason. -/
theorem Message.roundTrips_iff (ε : Type) (hsnappy : Snappy.Inverts)
    (hkeys : ∀ key : PublicKey, id2pubkey (pubkey2id key) = some key) {message : Message PublicKey}
    (hsize : message.content.length < 2 ^ 63) (hsupported : message.Supported) :
    message.RoundTrips ε ↔ message ≠ pong ∧ message ≠ disconnect ⟨none⟩ := by
  obtain ⟨hestablished, hfirst⟩ := receive_encode (ε := ε) hsnappy hkeys hsize hsupported
  rw [← received_eq_iff, RoundTrips, hestablished]
  constructor
  · rintro ⟨hok, -⟩
    exact congrArg Prod.fst (Except.ok.inj hok)
  · intro heq
    rw [heq]
    exact ⟨rfl, hfirst⟩

end

@[reducible] def plainSnappy : Snappy where
  compress data := data
  decompress data := some data

@[reducible] def plainKeys : NodeKeys H512 where
  pubkey2id key := key
  id2pubkey id := some id

/-- The Hello that the client itself sends. -/
def plainHello : Message H512 := .hello ⟨[("p2p", 5), ("eth", 68)], ⟨List.replicate 64 1, (rfl : 64 = 64)⟩⟩

theorem message_roundTrips_plainHello :
    letI := plainSnappy
    letI := plainKeys
    plainHello.RoundTrips Unit := by
  let := plainSnappy
  let := plainKeys
  have hsize : plainHello.content.length < 2 ^ 63 := by decide +kernel
  exact (Message.roundTrips_iff Unit (fun _ => rfl) (fun _ => rfl) hsize trivial).mpr (by decide)

theorem pong_received_as_ping :
    letI := plainSnappy
    letI := plainKeys
    (receive true (.pong : Message H512).encode : Outcome Unit (Message H512 × Bool)) = .ok (.ping, true) ∧
    (receive true (.disconnect ⟨none⟩ : Message H512).encode : Outcome Unit (Message H512 × Bool)) =
      .ok (.disconnect ⟨some 0xc0⟩, true) := by
  decide +kernel

end EthereumRust.Net.Rlpx
