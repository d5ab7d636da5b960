import EthereumRust.Rlp.Reads

/-! # `crates/net/types.rs`: endpoints, nodes and node records -/

namespace EthereumRust.Net

open Rlp Outcome

variable {d : Decoder}

def MAX_NODE_RECORD_ENCODED_SIZE : Nat := 300

structure Endpoint where
  ip : IpAddr
  udpPort : UInt16
  tcpPort : UInt16
  deriving DecidableEq

instance : RLPEncode Endpoint where
  encode self := (Encoder.new.encodeField self.ip |>.encodeField self.udpPort |>.encodeField self.tcpPort).finish

instance : RLPDecode Endpoint where
  typeName := "ethereum_rust_net::types::Endpoint"
  decodeUnfinished rlp := do
    let decoder ← Decoder.new rlp
    let (ip, decoder) ← decoder.decodeField IpAddr "ip"
    let (udpPort, decoder) ← decoder.decodeField UInt16 "udp_port"
    let (tcpPort, decoder) ← decoder.decodeField UInt16 "tcp_port"
    let remaining ← decoder.finish
    pure (⟨ip, udpPort, tcpPort⟩, remaining)

structure Node where
  ip : IpAddr
  udpPort : UInt16
  tcpPort : UInt16
  nodeId : H512
  deriving DecidableEq

instance : RLPEncode Node where
  encode self := (Encoder.new.encodeField self.ip |>.encodeField self.udpPort |>.encodeField self.tcpPort
    |>.encodeField self.nodeId).finish

instance : RLPDecode Node where
  typeName := "ethereum_rust_net::types::Node"
  decodeUnfinished rlp := do
    let decoder ← Decoder.new rlp
    let (ip, decoder) ← decoder.decodeField IpAddr "ip"
    let (udpPort, decoder) ← decoder.decodeField UInt16 "upd_port"
    let (tcpPort, decoder) ← decoder.decodeField UInt16 "tcp_port"
    let (nodeId, decoder) ← decoder.decodeField H512 "node_id"
    pure (⟨ip, udpPort, tcpPort, nodeId⟩, decoder.finishUnchecked)

structure NodeRecord where
  signature : H512
  seq : UInt64
  id : String
  pairs : List (Bytes × Bytes)
  deriving DecidableEq

instance : RLPEncode NodeRecord where
  encode self := (Encoder.new.encodeField self.signature |>.encodeField self.seq
    |>.encodeKeyValueList self.pairs).finish

/-- Keys and values up to the first field that is not a byte string. Each value is kept encoded,
with its header. Every round takes a byte of the payload, so it bounds their number. -/
def decodeNodeRecordOptionalFields :
    Nat → List (Bytes × Bytes) → Decoder → Decode (List (Bytes × Bytes) × Decoder)
  | 0, _, _ => .error .diverged
  | fuel + 1, pairs, decoder => do
    let (key, decoder) ← decoder.decodeOptionalField Bytes
    match key with
    | some k =>
      let (value, decoder) ← Rust.unwrap decoder.getEncodedItem
      decodeNodeRecordOptionalFields fuel (pairs ++ [(k, ⟨value⟩)]) decoder
    | none => pure (pairs, decoder)

/-- The first pair whose key is `id`. -/
def idPair (pairs : List (Bytes × Bytes)) : Option (Bytes × Bytes) :=
  pairs.find? fun (k, _) => k.data == "id".toByteArray.data.toList

def NodeRecord.decodePairs (signature : H512) (seq : UInt64) (decoder : Decoder) :
    Decode (NodeRecord × ByteString) := do
  let (pairs, decoder) ← decodeNodeRecordOptionalFields (decoder.payload.length + 1) [] decoder
  match idPair pairs with
  | some (_, id) =>
    let id ← Rust.unwrap (decode id.data : Decode String)
    let remaining ← decoder.finish
    pure (⟨signature, seq, id, pairs⟩, remaining)
  | none => Decode.fail (.custom "Invalid node record, 'id' field missing")

instance : RLPDecode NodeRecord where
  typeName := "ethereum_rust_net::types::NodeRecord"
  decodeUnfinished rlp := do
    if rlp.length > MAX_NODE_RECORD_ENCODED_SIZE then Decode.fail .invalidLength else
    let decoder ← Decoder.new rlp
    let (signature, decoder) ← decoder.decodeField H512 "signature"
    let (seq, decoder) ← decoder.decodeField UInt64 "seq"
    NodeRecord.decodePairs signature seq decoder

/-! ## Reads -/

instance : TracedStruct Endpoint where
  fields d := fieldReads IpAddr d fun d => fieldReads UInt16 d fun d => reads UInt16 d.payload
  readsFields := ⟨_, fun _ => rfl, .field fun _ => .field fun _ => .last fun _ => .finish _⟩

instance : TracedStruct Node where
  fields d := fieldReads IpAddr d fun d => fieldReads UInt16 d fun d => fieldReads UInt16 d fun d =>
    reads H512 d.payload
  readsFields := ⟨_, fun _ => rfl, .field fun _ => .field fun _ => .field fun _ => .last fun _ => .none _⟩

/-! ### Node records -/

/-- The reads of the pairs of a record. -/
def pairReads : Nat → ByteString → List Read
  | 0, _ => []
  | fuel + 1, payload =>
    .item payload :: thenReads (decodeUnfinished payload : Decode (Bytes × ByteString)) fun (_, rest) =>
      .unwrapItem rest :: thenReads (getItemWithPrefix rest) fun (_, rest) => pairReads fuel rest

/-- The reads behind the sequence number: the pairs, and the text of the identity scheme. -/
def recordReads (d : Decoder) : List Read :=
  pairReads (d.payload.length + 1) d.payload ++
    thenReads (decodeNodeRecordOptionalFields (d.payload.length + 1) [] d) fun (pairs, _) =>
      match idPair pairs with
      | some (_, id) => [.unwrapText id.data]
      | none => []

theorem getEncodedItem_eq_ok :
    d.getEncodedItem = .ok (item, d') ↔
      ∃ rest, getItemWithPrefix d.payload = .ok (item, rest) ∧ d' = ⟨rest, d.remaining⟩ := by
  rw [Decoder.getEncodedItem]
  rcases getItemWithPrefix d.payload with e | ⟨item', rest⟩
  · simp
  · simp only [bind_ok, pure_eq, Except.ok.injEq, Prod.mk.injEq]
    constructor
    · rintro ⟨rfl, rfl⟩
      exact ⟨rest, ⟨rfl, rfl⟩, rfl⟩
    · rintro ⟨_, ⟨rfl, rfl⟩, rfl⟩
      exact ⟨rfl, rfl⟩

theorem returns_decodeNodeRecordOptionalFields
    (hfuel : d.payload.length < fuel) :
    (decodeNodeRecordOptionalFields fuel pairs d).Returns ↔ Fine (pairReads fuel d.payload) := by
  induction fuel generalizing pairs d with
  | zero => omega
  | succ fuel ih =>
    rw [decodeNodeRecordOptionalFields, returns_bind, returns_optionalField, pairReads, fine_cons,
      fine_thenReads]
    change Fine [.item d.payload] ∧ _ ↔ _
    rw [fine_cons, and_iff_left fine_nil]
    refine and_congr_right fun hitem => ?_
    rw [Decoder.decodeOptionalField]
    have hreturns := (Traced.returns_iff (α := Bytes) d.payload).mpr (fine_cons.mpr ⟨hitem, fine_nil⟩)
    cases hkey : (decodeUnfinished d.payload : Decode (Bytes × ByteString)) with
    | error e =>
      cases e with
      | error e => simp
      | panic m => rw [hkey] at hreturns; exact hreturns.elim
      | diverged => rw [hkey] at hreturns; exact hreturns.elim
    | ok p =>
      have hrest := Traced.shorter hkey
      simp only [Except.ok.injEq, forall_eq']
      rw [returns_bind, Rust.returns_unwrap, fine_cons, fine_thenReads]
      simp only [Rust.unwrap_eq_ok, Prod.exists, Prod.forall, getEncodedItem_eq_ok, Read.Bad, not_not]
      refine and_congr ?_ ?_
      · constructor
        · rintro ⟨item, _, rest', hvalue, -⟩
          exact ⟨item, rest', hvalue⟩
        · rintro ⟨item, rest', hvalue⟩
          exact ⟨item, _, rest', hvalue, rfl⟩
      · constructor
        · intro h item rest' hvalue
          have := getItemWithPrefix_shorter hvalue
          exact (ih (d := ⟨rest', d.remaining⟩) (by dsimp only; omega)).mp (h item _ ⟨rest', hvalue, rfl⟩)
        · rintro h item _ ⟨rest', hvalue, rfl⟩
          have := getItemWithPrefix_shorter hvalue
          exact (ih (d := ⟨rest', d.remaining⟩) (by dsimp only; omega)).mpr (h item rest' hvalue)

theorem decodeNodeRecordOptionalFields_remaining
    (h : decodeNodeRecordOptionalFields fuel pairs d = .ok (pairs', d')) :
    d'.remaining = d.remaining := by
  induction fuel generalizing pairs d with
  | zero => cases h
  | succ fuel ih =>
    obtain ⟨⟨key, d₁⟩, hkey, hrest⟩ := bind_ok_inv h
    rw [← decodeOptionalField_remaining hkey]
    cases key with
    | none =>
      cases hrest
      rfl
    | some k =>
      obtain ⟨⟨value, d₂⟩, hvalue, hrest⟩ := bind_ok_inv hrest
      obtain ⟨rest, -, rfl⟩ := getEncodedItem_eq_ok.mp (Rust.unwrap_eq_ok.mp hvalue)
      exact ih (d := ⟨rest, d₁.remaining⟩) hrest

theorem reads_decodePairs (signature : H512) (seq : UInt64) :
    ReadsFields (NodeRecord.decodePairs signature seq) recordReads where
  returns d := by
    refine returns_follow _ (returns_decodeNodeRecordOptionalFields (Nat.lt_succ_self _)) ?_
    rintro ⟨pairs, d'⟩ -
    dsimp only
    split
    · rw [returns_bind, Rust.returns_unwrap, fine_cons, Read.Bad, not_not, and_iff_left fine_nil]
      exact and_iff_left fun id _ => ((ReadsFields.finish _).returns d').mpr fine_nil
    · exact iff_of_true (trivial) fine_nil
  ends d v rest h := by
    obtain ⟨⟨pairs, d'⟩, hpairs, h⟩ := bind_ok_inv h
    rw [← decodeNodeRecordOptionalFields_remaining hpairs]
    dsimp only at h
    split at h
    · obtain ⟨id, -, h⟩ := bind_ok_inv h
      exact (ReadsFields.finish _).ends d' v rest h
    · cases h

instance : Traced NodeRecord where
  reads rlp := if rlp.length > MAX_NODE_RECORD_ENCODED_SIZE then [] else
    structReads rlp fun d => fieldReads H512 d fun d => fieldReads UInt64 d recordReads
  returns_iff rlp := by
    change (if rlp.length > MAX_NODE_RECORD_ENCODED_SIZE then _ else _ : Decode _).Returns ↔ _
    split
    · exact iff_of_true (trivial) fine_nil
    · exact ReadsFields.returns_new (.field fun _ => .field fun _ => reads_decodePairs _ _) rlp
  shorter {data v rest} h := by
    change (if data.length > MAX_NODE_RECORD_ENCODED_SIZE then _ else _ : Decode _) = _ at h
    split at h
    · cases h
    · exact ReadsFields.shorter (.field fun _ => .field fun _ => reads_decodePairs _ _) h

end EthereumRust.Net
