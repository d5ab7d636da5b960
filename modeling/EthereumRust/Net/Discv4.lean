import EthereumRust.Net.Types
import EthereumRust.Trie.NodeHash

/-! # `crates/net/discv4.rs`: discovery packets

The signature library is a parameter: parsing and recovery may fail on any input. -/

namespace EthereumRust.Net

open Rlp Mpt List Outcome Rust

abbrev H520 := FixedBytes 65

/-- What is used of `k256::ecdsa`. -/
class K256 where
  Signature : Type
  RecoveryId : Type
  VerifyingKey : Type
  signatureFromSlice : ByteString → Option Signature
  recoveryIdFromByte : UInt8 → Option RecoveryId
  recoverFromPrehash : H256 → Signature → RecoveryId → Option VerifyingKey
  /-- The uncompressed point: a tag byte and the two coordinates. -/
  toEncodedPoint : VerifyingKey → FixedBytes 65

/-! ## Messages -/

structure PingMessage where
  version : UInt8
  sender : Endpoint
  recipient : Endpoint
  expiration : UInt64
  enrSeq : Option UInt64
  deriving DecidableEq

instance : RLPEncode PingMessage where
  encode self := (Encoder.new.encodeField self.version |>.encodeField self.sender |>.encodeField self.recipient
    |>.encodeField self.expiration |>.encodeOptionalField self.enrSeq).finish

instance : RLPDecode PingMessage where
  typeName := "ethereum_rust_net::discv4::PingMessage"
  decodeUnfinished rlp := do
    let decoder ← Decoder.new rlp
    let (version, decoder) ← decoder.decodeField UInt8 "version"
    let (sender, decoder) ← decoder.decodeField Endpoint "from"
    let (recipient, decoder) ← decoder.decodeField Endpoint "to"
    let (expiration, decoder) ← decoder.decodeField UInt64 "expiration"
    let (enrSeq, decoder) ← decoder.decodeOptionalField UInt64
    pure (⟨version, sender, recipient, expiration, enrSeq⟩, decoder.finishUnchecked)

structure PongMessage where
  recipient : Endpoint
  pingHash : H256
  expiration : UInt64
  enrSeq : Option UInt64
  deriving DecidableEq

instance : RLPEncode PongMessage where
  encode self := (Encoder.new.encodeField self.recipient |>.encodeField self.pingHash
    |>.encodeField self.expiration |>.encodeOptionalField self.enrSeq).finish

instance : RLPDecode PongMessage where
  typeName := "ethereum_rust_net::discv4::PongMessage"
  decodeUnfinished rlp := do
    let decoder ← Decoder.new rlp
    let (recipient, decoder) ← decoder.decodeField Endpoint "to"
    let (pingHash, decoder) ← decoder.decodeField H256 "ping_hash"
    let (expiration, decoder) ← decoder.decodeField UInt64 "expiration"
    let (enrSeq, decoder) ← decoder.decodeOptionalField UInt64
    pure (⟨recipient, pingHash, expiration, enrSeq⟩, decoder.finishUnchecked)

structure FindNodeMessage where
  target : H512
  expiration : UInt64
  deriving DecidableEq

instance : RLPEncode FindNodeMessage where
  encode self := (Encoder.new.encodeField self.target |>.encodeField self.expiration).finish

instance : RLPDecode FindNodeMessage where
  typeName := "ethereum_rust_net::discv4::FindNodeMessage"
  decodeUnfinished rlp := do
    let decoder ← Decoder.new rlp
    let (target, decoder) ← decoder.decodeField H512 "target"
    let (expiration, decoder) ← decoder.decodeField UInt64 "expiration"
    pure (⟨target, expiration⟩, decoder.finishUnchecked)

structure NeighborsMessage where
  nodes : List Node
  expiration : UInt64
  deriving DecidableEq

instance : RLPEncode NeighborsMessage where
  encode self := (Encoder.new.encodeField self.nodes |>.encodeField self.expiration).finish

instance : RLPDecode NeighborsMessage where
  typeName := "ethereum_rust_net::discv4::NeighborsMessage"
  decodeUnfinished rlp := do
    let decoder ← Decoder.new rlp
    let (nodes, decoder) ← decoder.decodeField (List Node) "nodes"
    let (expiration, decoder) ← decoder.decodeField UInt64 "expiration"
    pure (⟨nodes, expiration⟩, decoder.finishUnchecked)

structure ENRRequestMessage where
  expiration : UInt64
  deriving DecidableEq

instance : RLPEncode ENRRequestMessage where
  encode self := (Encoder.new.encodeField self.expiration).finish

instance : RLPDecode ENRRequestMessage where
  typeName := "ethereum_rust_net::discv4::ENRRequestMessage"
  decodeUnfinished rlp := do
    let decoder ← Decoder.new rlp
    let (expiration, decoder) ← decoder.decodeField UInt64 "expiration"
    pure (⟨expiration⟩, decoder.finishUnchecked)

structure ENRResponseMessage where
  requestHash : H256
  nodeRecord : NodeRecord
  deriving DecidableEq

instance : RLPEncode ENRResponseMessage where
  encode self := (Encoder.new.encodeField self.requestHash |>.encodeField self.nodeRecord).finish

instance : RLPDecode ENRResponseMessage where
  typeName := "ethereum_rust_net::discv4::ENRResponseMessage"
  decodeUnfinished rlp := do
    let decoder ← Decoder.new rlp
    let (requestHash, decoder) ← decoder.decodeField H256 "request_hash"
    let (nodeRecord, decoder) ← decoder.decodeField NodeRecord "node_record"
    pure (⟨requestHash, nodeRecord⟩, decoder.finishUnchecked)

inductive Message where
  | ping (msg : PingMessage)
  | pong (msg : PongMessage)
  | findNode (msg : FindNodeMessage)
  | neighbors (msg : NeighborsMessage)
  | enrRequest (msg : ENRRequestMessage)
  | enrResponse (msg : ENRResponseMessage)
  deriving DecidableEq

/-- Extra elements inside the message are ignored, along with extra data after it. -/
def Message.decodeWithType (packetType : UInt8) (msg : ByteString) : Decode Message :=
  if packetType = 0x01 then (fun p => .ping p.1) <$> (decodeUnfinished msg : Decode (PingMessage × ByteString))
  else if packetType = 0x02 then
    (fun p => .pong p.1) <$> (decodeUnfinished msg : Decode (PongMessage × ByteString))
  else if packetType = 0x03 then
    (fun p => .findNode p.1) <$> (decodeUnfinished msg : Decode (FindNodeMessage × ByteString))
  else if packetType = 0x04 then
    (fun p => .neighbors p.1) <$> (decodeUnfinished msg : Decode (NeighborsMessage × ByteString))
  else if packetType = 0x05 then
    (fun p => .enrRequest p.1) <$> (decodeUnfinished msg : Decode (ENRRequestMessage × ByteString))
  else if packetType = 0x06 then
    (fun p => .enrResponse p.1) <$> (decodeUnfinished msg : Decode (ENRResponseMessage × ByteString))
  else Decode.fail .malformedData

def Message.packetType : Message → UInt8
  | .ping _ => 0x01
  | .pong _ => 0x02
  | .findNode _ => 0x03
  | .neighbors _ => 0x04
  | .enrRequest _ => 0x05
  | .enrResponse _ => 0x06

def Message.encodeWithType (self : Message) : ByteString :=
  self.packetType :: match self with
    | .ping msg => encode msg
    | .pong msg => encode msg
    | .findNode msg => encode msg
    | .neighbors msg => encode msg
    | .enrRequest msg => encode msg
    | .enrResponse msg => encode msg

/-- What is used of `k256::ecdsa::SigningKey`. -/
structure SigningKey where
  /-- The bytes of the signature and of the recovery id. -/
  signPrehashRecoverable : H256 → Option (FixedBytes 64 × UInt8)
  /-- `node_id_from_signing_key` -/
  nodeId : H512

def Message.encodeWithHeader {ε : Type} [Keccak256] (self : Message) (nodeSigner : SigningKey) :
    Outcome ε ByteString := do
  let encoded := self.encodeWithType
  let (signature, recoveryId) ← Rust.expect (nodeSigner.signPrehashRecoverable (digest encoded)) "failed to sign"
  let data := signature.1 ++ [recoveryId] ++ encoded
  pure ((digest data).1 ++ data)

/-! ## Packets -/

inductive PacketDecodeErr where
  | rlpDecodeError (e : RLPDecodeError)
  | invalidSize
  | hashMismatch
  | invalidSignature
  deriving DecidableEq

structure Packet where
  hash : H256
  signature : H520
  message : Message
  nodeId : H512
  deriving DecidableEq

def fromSlice {ε : Type} (n : Nat) (src : ByteString) : Outcome ε (FixedBytes n) :=
  if h : src.length = n then .ok ⟨src, h⟩ else Outcome.panic "assertion `left == right` failed"

def Packet.decode [Keccak256] [K256] (encodedPacket : ByteString) : Outcome PacketDecodeErr Packet := do
  -- hash || signature || packet-type || packet-data
  let hashLen := 32
  let signatureLen := 65
  let headerSize := hashLen + signatureLen
  if encodedPacket.length < headerSize + 1 then .error (.error .invalidSize) else
  let hash ← fromSlice 32 (← Rust.slice encodedPacket 0 hashLen)
  let signatureBytes ← Rust.slice encodedPacket hashLen headerSize
  let packetType ← Rust.index encodedPacket headerSize
  let encodedMsg ← Rust.sliceFrom encodedPacket headerSize
  let headerHash := digest (← Rust.sliceFrom encodedPacket hashLen)
  if hash ≠ headerHash then .error (.error .hashMismatch) else
  let prehash := digest encodedMsg
  let signature ← Rust.expect (K256.signatureFromSlice (← Rust.slice signatureBytes 0 64))
    "called `Result::unwrap()` on an `Err` value"
  let rid ← Rust.expect (K256.recoveryIdFromByte (← Rust.index signatureBytes 64))
    "called `Option::unwrap()` on a `None` value"
  match K256.recoverFromPrehash prehash signature rid with
  | none => .error (.error .invalidSignature)
  | some peerPk =>
    let encoded := K256.toEncodedPoint peerPk
    let nodeId ← fromSlice 64 (← Rust.sliceFrom encoded.1 1)
    let signature ← fromSlice 65 signatureBytes
    let message ← (Message.decodeWithType packetType (← Rust.sliceFrom encodedMsg 1)).mapErr .rlpDecodeError
    pure ⟨hash, signature, message, nodeId⟩

/-! ## Reads -/

instance : TracedStruct PingMessage where
  fields d := fieldReads UInt8 d fun d => fieldReads Endpoint d fun d => fieldReads Endpoint d fun d =>
    fieldReads UInt64 d fun d => reads UInt64 d.payload
  readsFields := by
    refine ⟨_, fun _ => rfl, ?_⟩
    iterate 4 refine .field fun _ => ?_
    exact .optional fun _ => .none _

instance : TracedStruct PongMessage where
  fields d := fieldReads Endpoint d fun d => fieldReads H256 d fun d => fieldReads UInt64 d fun d =>
    reads UInt64 d.payload
  readsFields := ⟨_, fun _ => rfl, .field fun _ => .field fun _ => .field fun _ => .optional fun _ => .none _⟩

instance : TracedStruct FindNodeMessage where
  fields d := fieldReads H512 d fun d => reads UInt64 d.payload
  readsFields := ⟨_, fun _ => rfl, .field fun _ => .last fun _ => .none _⟩

instance : TracedStruct NeighborsMessage where
  fields d := fieldReads (List Node) d fun d => reads UInt64 d.payload
  readsFields := ⟨_, fun _ => rfl, .field fun _ => .last fun _ => .none _⟩

instance : TracedStruct ENRRequestMessage where
  fields d := reads UInt64 d.payload
  readsFields := ⟨_, fun _ => rfl, .last fun _ => .none _⟩

instance : TracedStruct ENRResponseMessage where
  fields d := fieldReads H256 d fun d => reads NodeRecord d.payload
  readsFields := ⟨_, fun _ => rfl, .field fun _ => .last fun _ => .none _⟩

/-- The reads of a message, by its type. -/
def Message.reads (packetType : UInt8) (msg : ByteString) : List Read :=
  if packetType = 0x01 then Traced.reads PingMessage msg
  else if packetType = 0x02 then Traced.reads PongMessage msg
  else if packetType = 0x03 then Traced.reads FindNodeMessage msg
  else if packetType = 0x04 then Traced.reads NeighborsMessage msg
  else if packetType = 0x05 then Traced.reads ENRRequestMessage msg
  else if packetType = 0x06 then Traced.reads ENRResponseMessage msg
  else []

theorem returns_message {α : Type} [RLPDecode α] [Traced α] (f : α × ByteString → Message) (msg : ByteString) :
    (f <$> (decodeUnfinished msg : Decode (α × ByteString))).Returns ↔ Fine (reads α msg) := by
  rw [returns_map, Traced.returns_iff]

theorem returns_decodeWithType (packetType : UInt8) (msg : ByteString) :
    (Message.decodeWithType packetType msg).Returns ↔ Fine (Message.reads packetType msg) := by
  rw [Message.decodeWithType, Message.reads]
  split
  · exact returns_message _ msg
  split
  · exact returns_message _ msg
  split
  · exact returns_message _ msg
  split
  · exact returns_message _ msg
  split
  · exact returns_message _ msg
  split
  · exact returns_message _ msg
  · exact iff_of_true (trivial) fine_nil

/-! ## Packets that panic -/

theorem fromSlice_ok {ε : Type} {src : ByteString} (h : src.length = n) :
    (fromSlice n src : Outcome ε (FixedBytes n)) = .ok ⟨src, h⟩ := by
  rw [fromSlice, dif_pos h]

theorem index_getD {ε : Type} {b : ByteString} (h : i < b.length) :
    (Rust.index b i : Outcome ε UInt8) = .ok (b.getD i 0) := by
  rw [index_ok (List.getElem?_eq_getElem h), getD_eq_getElem?_getD, List.getElem?_eq_getElem h]
  rfl

section

variable [Keccak256] [K256]

/-- What is left to do with a packet that is long enough and has the hash of what follows. -/
def Packet.decodeSigned (hash : H256) (encodedPacket : ByteString) : Outcome PacketDecodeErr Packet := do
  let signature ← Rust.expect (K256.signatureFromSlice ((encodedPacket.drop 32).take 64))
    "called `Result::unwrap()` on an `Err` value"
  let rid ← Rust.expect (K256.recoveryIdFromByte (encodedPacket.getD 96 0))
    "called `Option::unwrap()` on a `None` value"
  match K256.recoverFromPrehash (digest (encodedPacket.drop 97)) signature rid with
  | none => .error (.error .invalidSignature)
  | some peerPk =>
    let nodeId ← fromSlice 64 ((K256.toEncodedPoint peerPk).1.drop 1)
    let signature ← fromSlice 65 ((encodedPacket.take 97).drop 32)
    let message ← (Message.decodeWithType (encodedPacket.getD 97 0) (encodedPacket.drop 98)).mapErr .rlpDecodeError
    pure ⟨hash, signature, message, nodeId⟩

theorem Packet.decode_eq {b : ByteString} (hlen : ¬ b.length < 98) :
    Packet.decode b = if b.take 32 ≠ (digest (b.drop 32)).1 then .error (.error .hashMismatch)
      else Packet.decodeSigned ⟨b.take 32, by rw [length_take]; omega⟩ b := by
  have hhash : (b.take 32).length = 32 := by rw [length_take]; omega
  have hsig : ((b.take 97).drop 32).length = 65 := by rw [length_drop, length_take]; omega
  have hmsg : 1 ≤ (b.drop 97).length := by rw [length_drop]; omega
  have hinner : (((b.take 97).drop 32).take 64).drop 0 = (b.drop 32).take 64 := by
    rw [drop_zero, drop_take, take_take]
    rfl
  have hrid : ((b.take 97).drop 32).getD 64 0 = b.getD 96 0 := by
    rw [getD_eq_getElem?_getD, List.getElem?_drop, List.getElem?_take_of_lt (by omega),
      getD_eq_getElem?_getD]
  have hpoint (k : K256.VerifyingKey) : 1 ≤ (K256.toEncodedPoint k).1.length := by
    rw [(K256.toEncodedPoint k).2]
    omega
  rw [Packet.decode]
  simp only [Nat.reduceAdd]
  rw [if_neg hlen, slice_ok (Nat.zero_le _) (by omega), bind_ok, drop_zero, fromSlice_ok hhash,
    bind_ok, slice_ok (by omega) (by omega), bind_ok, index_getD (by omega), bind_ok,
    sliceFrom_ok (by omega), bind_ok, sliceFrom_ok (by omega), bind_ok]
  simp only [ne_eq, Subtype.ext_iff]
  split
  · rfl
  · rw [slice_ok (Nat.zero_le _) (by omega), bind_ok, hinner]
    refine bind_congr fun signature => ?_
    rw [index_getD (by omega), bind_ok, hrid]
    refine bind_congr fun rid => ?_
    cases K256.recoverFromPrehash (digest (b.drop 97)) signature rid with
    | none => rfl
    | some peerPk =>
      dsimp only
      rw [sliceFrom_ok (hpoint _), sliceFrom_ok hmsg, drop_drop]
      rfl

/-- The signature or the recovery id does not parse, or a key is recovered and the body has a bad read. -/
def Packet.BadPayload (b : ByteString) : Prop :=
  K256.signatureFromSlice ((b.drop 32).take 64) = none ∨ K256.recoveryIdFromByte (b.getD 96 0) = none ∨
    ∃ signature rid peerPk, K256.signatureFromSlice ((b.drop 32).take 64) = some signature ∧
      K256.recoveryIdFromByte (b.getD 96 0) = some rid ∧
      K256.recoverFromPrehash (digest (b.drop 97)) signature rid = some peerPk ∧
      ∃ r ∈ Message.reads (b.getD 97 0) (b.drop 98), r.Bad

theorem Packet.returns_decodeSigned {b : ByteString} (hash : H256) (hlen : ¬ b.length < 98) :
    (Packet.decodeSigned hash b).Returns ↔ ¬ Packet.BadPayload b := by
  have hsig : ((b.take 97).drop 32).length = 65 := by rw [length_drop, length_take]; omega
  rw [Packet.decodeSigned, Packet.BadPayload]
  cases K256.signatureFromSlice ((b.drop 32).take 64) with
  | none => exact iff_of_false id (not_not.mpr (.inl rfl))
  | some signature =>
    rw [expect_some, bind_ok]
    cases K256.recoveryIdFromByte (b.getD 96 0) with
    | none => exact iff_of_false id (not_not.mpr (.inr (.inl rfl)))
    | some rid =>
      rw [expect_some, bind_ok]
      cases hrec : K256.recoverFromPrehash (digest (b.drop 97)) signature rid with
      | none => simp [hrec]
      | some peerPk =>
        have hid : ((K256.toEncodedPoint peerPk).1.drop 1).length = 64 := by
          rw [length_drop, (K256.toEncodedPoint peerPk).2]
        dsimp only
        rw [fromSlice_ok hid, bind_ok, fromSlice_ok hsig, bind_ok, returns_bind,
          returns_mapErr, returns_decodeWithType]
        refine (and_iff_left fun _ _ => trivial).trans ?_
        simp [hrec, Fine]

/-- Decoding a packet comes back unless its hash is right and the rest cannot be unwrapped. -/
theorem packet_decode_returns_iff (b : ByteString) :
    (Packet.decode b).Returns ↔
      ¬ (98 ≤ b.length ∧ b.take 32 = (digest (b.drop 32)).1 ∧ Packet.BadPayload b) := by
  by_cases hlen : b.length < 98
  · have : Packet.decode b = .error (.error .invalidSize) := if_pos hlen
    rw [this]
    exact iff_of_true (trivial) fun h => by omega
  · rw [Packet.decode_eq hlen]
    by_cases hhash : b.take 32 = (digest (b.drop 32)).1
    · rw [if_neg (not_not.mpr hhash), Packet.returns_decodeSigned _ hlen]
      exact not_congr ⟨fun h => ⟨Nat.le_of_not_lt hlen, hhash, h⟩, fun h => h.2.2⟩
    · rw [if_pos hhash]
      exact iff_of_true (trivial) fun h => hhash h.2.1

end

/-- A signature library that refuses a signature with a zero half and recovery ids from four on. -/
@[reducible] def K256.checked : K256 where
  Signature := ByteString
  RecoveryId := UInt8
  VerifyingKey := Unit
  signatureFromSlice b := if (b.take 32).all (· == 0) || (b.drop 32).all (· == 0) then none else some b
  recoveryIdFromByte b := if b < 4 then some b else none
  recoverFromPrehash _ _ _ := some ()
  toEncodedPoint _ := ⟨List.replicate 65 4, rfl⟩

/-- What follows the hash of four packets: a zero signature, the recovery id four, a `Ping` whose body
has a length of all ones, and an `ENRResponse` whose record has a key without a value. -/
def zeroSignature : ByteString := List.replicate 65 0 ++ [0x01]
def wrongRecoveryId : ByteString := List.replicate 64 1 ++ [4, 0x01]
def oversizedPing : ByteString := List.replicate 64 1 ++ [0, 0x01] ++ List.replicate 9 0xFF
def keyWithoutValue : ByteString :=
  List.replicate 64 1 ++ [0, 0x06] ++ [0xF8, 0x67, 0xA0] ++ List.replicate 32 0 ++
    [0xF8, 0x44, 0xB8, 0x40] ++ List.replicate 64 0 ++ [0x01, 0x61]

theorem packet_decode_panics :
    letI := K256.checked
    letI := Keccak256.ofTable [(zeroSignature, 0x6fcc2dba3a13f594513f17e5522273853f66b5aaf2a30c822388a470c56cc9cb),
      (wrongRecoveryId, 0x94324ae3bcaf17ed6e72320597b025b8421533a696ad2ac132220c8db8d5ceb5),
      (oversizedPing, 0xbfa1c86d8279fce3910d4caeca11a846156a58c44fa297cc4b4a9fc28ce6804a),
      (keyWithoutValue, 0x93ef5433e1aecee9b8208546d10488565a8128ade4bf50804e9109d78fdca861)]
    Packet.decode ((digest zeroSignature).1 ++ zeroSignature) =
        Outcome.panic "called `Result::unwrap()` on an `Err` value" ∧
      Packet.decode ((digest wrongRecoveryId).1 ++ wrongRecoveryId) =
        Outcome.panic "called `Option::unwrap()` on a `None` value" ∧
      Packet.decode ((digest oversizedPing).1 ++ oversizedPing) =
        Outcome.panic "attempt to add with overflow" ∧
      Packet.decode ((digest keyWithoutValue).1 ++ keyWithoutValue) =
        Outcome.panic "called `Result::unwrap()` on an `Err` value" := by
  decide +kernel

end EthereumRust.Net
