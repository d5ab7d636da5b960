import EthereumRust.Rlp.RoundTrip

/-! # Codecs that read back what they write

A type is lawful when the encoding of each of its values that fits in memory is read back
with whatever follows it. `Nested` names the types that lists and tuples make of the base
types. An allocation has fewer than `2 ^ 63` bytes. -/

namespace EthereumRust.Rlp
open List Outcome

variable {α : Type} {e : Encoder}

class LawfulRLP (α : Type) [RLPEncode α] [RLPDecode α] : Prop where
  encode_pos : ∀ v : α, 0 < (encode v).length
  roundTrip : ∀ v : α, (encode v).length < 2 ^ 63 → RoundTrip v

export LawfulRLP (encode_pos roundTrip)

/-! ## Byte strings and numbers -/

theorem le_length_encodeSlice (b : ByteString) : b.length ≤ (encodeSlice b).length := by
  unfold encodeSlice
  split
  · split <;> simp
  · split
    · simp
    · simp only [length_append]
      omega

theorem length_encodeSlice_pos (b : ByteString) : 0 < (encodeSlice b).length := by
  unfold encodeSlice
  split
  · split <;> simp
  · split <;> simp

theorem decodeBytes_rlpBytes (hb : b.length + 9 < 2 ^ 64) (rest : ByteString) :
    decodeBytes (rlpBytes b ++ rest) = .ok (b, rest) := by
  rw [decodeBytes, decodeRlpItem_rlpBytes hb]
  rfl

theorem decodeBytes_encodeSlice (h : (encodeSlice b).length < 2 ^ 63) (rest : ByteString) :
    decodeBytes (encodeSlice b ++ rest) = .ok (b, rest) := by
  have hb := le_length_encodeSlice b
  rw [encodeSlice_eq (by omega), decodeBytes_rlpBytes (by omega)]

theorem decodeFixed_encodeSlice (v : FixedBytes n) (h : (encodeSlice v.1).length < 2 ^ 63)
    (rest : ByteString) : decodeFixed n (encodeSlice v.1 ++ rest) = .ok (v, rest) := by
  rw [decodeFixed, decodeBytes_encodeSlice h]
  simp only [bind_ok, dif_pos v.2]
  rfl

theorem rlpBytes_headed (h : ∀ x, b = [x] → ¬ x < 0x80) :
    rlpBytes b = rlpHeader 0x80 b.length ++ b := by
  by_cases h1 : b.length = 1
  · obtain ⟨x, rfl⟩ := length_eq_one_iff.mp h1
    exact rlpBytes_of_ge (h x rfl)
  · exact rlpBytes_of_length h1

theorem encodeUint_eq_rlpBytes (hw : w < 56) (h : n < 256 ^ w) :
    encodeUint w n = rlpBytes (beMin n) := by
  unfold encodeUint
  split
  · rename_i h0; subst h0; rfl
  · rename_i h0
    split
    · have hb : beMin n = [UInt8.ofNat n] := by
        rw [beMin, Nat.digits_of_lt 256 n h0 (by omega)]; rfl
      rw [hb, rlpBytes_single]
      change n % 256 < 128
      omega
    · have hlen : (beMin n).length ≤ w := length_beMin_le.mpr h
      have hhead : ∀ x, beMin n = [x] → ¬ x < 0x80 := by
        intro x hx hlt
        have hn : x.toNat = n := by
          have := beNat_beMin n
          rw [hx, beNat_cons] at this
          simpa using this
        have : x.toNat < 128 := by simpa using UInt8.lt_iff_toNat_lt.mp hlt
        omega
      rw [rlpBytes_headed hhead, rlpHeader, if_pos (by omega), ofNat_add, significantBytes_eq h]
      rfl

theorem decodeUint_rlpBytes (ofNat : Nat → α) (hw : w < 56) (h : n < 256 ^ w)
    (rest : ByteString) : decodeUint w ofNat (rlpBytes (beMin n) ++ rest) = .ok (ofNat n, rest) := by
  have hlen : (beMin n).length ≤ w := length_beMin_le.mpr h
  obtain ⟨b, hb, hn⟩ := staticLeftPad_beMin h
  rw [decodeUint, decodeBytes_rlpBytes (by omega), bind_ok]
  simp only
  rw [hb, bind_ok, hn]
  rfl

theorem decodeUint_encodeUint (ofNat : Nat → α) (hw : w < 56) (h : n < 256 ^ w)
    (rest : ByteString) : decodeUint w ofNat (encodeUint w n ++ rest) = .ok (ofNat n, rest) := by
  rw [encodeUint_eq_rlpBytes hw h, decodeUint_rlpBytes ofNat hw h]

instance : LawfulRLP Bool where
  encode_pos v := by cases v <;> decide
  roundTrip v _ := roundTrip_bool v

instance : LawfulRLP UInt8 where
  encode_pos v := length_encodeUint_pos 1 v.toNat
  roundTrip v _ := roundTrip_u8 v

instance : LawfulRLP UInt16 where
  encode_pos v := length_encodeUint_pos 2 v.toNat
  roundTrip v _ rest := by
    have := decodeUint_encodeUint UInt16.ofNat (w := 2) (by decide) v.toNat_lt rest
    rwa [UInt16.ofNat_toNat] at this

instance : LawfulRLP UInt32 where
  encode_pos v := length_encodeUint_pos 4 v.toNat
  roundTrip v _ rest := by
    have := decodeUint_encodeUint UInt32.ofNat (w := 4) (by decide) v.toNat_lt rest
    rwa [UInt32.ofNat_toNat] at this

instance : LawfulRLP UInt64 where
  encode_pos v := length_encodeUint_pos 8 v.toNat
  roundTrip v _ rest := by
    have := decodeUint_encodeUint UInt64.ofNat (w := 8) (by decide) v.toNat_lt rest
    rwa [UInt64.ofNat_toNat] at this

instance : LawfulRLP U256 where
  encode_pos _ := length_encodeSlice_pos _
  roundTrip v h rest := by
    have hv : v.toNat < 256 ^ 32 := v.isLt
    have hlen : (beMin v.toNat).length ≤ 32 := length_beMin_le.mpr hv
    have := decodeUint_rlpBytes (BitVec.ofNat 256) (by decide) hv rest
    change decodeUint 32 (BitVec.ofNat 256) (encodeSlice (significantBytes 32 v.toNat) ++ rest) = _
    rw [significantBytes_eq hv, encodeSlice_eq (by omega), this, BitVec.ofNat_toNat]
    simp

instance : LawfulRLP H256 where
  encode_pos _ := length_encodeSlice_pos _
  roundTrip v h rest := decodeFixed_encodeSlice v h rest

instance : LawfulRLP Address where
  encode_pos _ := length_encodeSlice_pos _
  roundTrip v h rest := decodeFixed_encodeSlice v h rest

instance : LawfulRLP Bloom where
  encode_pos _ := length_encodeSlice_pos _
  roundTrip v h rest := decodeFixed_encodeSlice v h rest

instance : LawfulRLP H512 where
  encode_pos _ := length_encodeSlice_pos _
  roundTrip v h rest := decodeFixed_encodeSlice v h rest

instance : LawfulRLP Bytes where
  encode_pos _ := length_encodeSlice_pos _
  roundTrip v h rest := by
    change (decodeBytes (encodeSlice v.data ++ rest) >>= _) = _
    rw [decodeBytes_encodeSlice h]
    rfl

instance : LawfulRLP String where
  encode_pos _ := length_encodeSlice_pos _
  roundTrip v h rest := by
    have hv : String.fromUTF8? ⟨⟨v.toByteArray.data.toList⟩⟩ = some v := dif_pos v.isValidUTF8
    change (decodeBytes (encodeSlice v.toByteArray.data.toList ++ rest) >>= _) = _
    rw [decodeBytes_encodeSlice h, Outcome.bind_ok]
    simp only [hv]
    rfl

instance : LawfulRLP IpAddr where
  encode_pos v := by cases v <;> exact length_encodeSlice_pos _
  roundTrip v h rest := by
    cases v with
    | v4 ip =>
      change (decodeBytes (encodeSlice ip.1 ++ rest) >>= _) = _
      rw [decodeBytes_encodeSlice h, Outcome.bind_ok]
      simp only [dif_pos ip.2]
      rfl
    | v6 ip =>
      change (decodeBytes (encodeSlice ip.1 ++ rest) >>= _) = _
      rw [decodeBytes_encodeSlice h, Outcome.bind_ok]
      simp only [ip.2]
      rfl

/-! ## Lists and tuples -/

theorem length_encodeLength_pos (n : Nat) : 0 < (encodeLength n).length := by
  unfold encodeLength
  split <;> simp

section

variable {α β γ : Type} [RLPEncode α] [RLPEncode β] [RLPEncode γ] {v : α × β}

theorem length_le_flatMap {l : List α} {x : α} (hx : x ∈ l) :
    (encode x).length ≤ (l.flatMap encode).length := by
  obtain ⟨l₁, l₂, rfl⟩ := append_of_mem hx
  simp only [flatMap_append, flatMap_cons, length_append]
  omega

theorem encode_pair_eq_of (h : (encode v.1 ++ encode v.2).length < 2 ^ 63) :
    encode v = rlpList (encode v.1 ++ encode v.2) := by
  change encodeLength ((encode v.1).length + (encode v.2).length) ++ encode v.1 ++ encode v.2 = _
  rw [length_append] at h
  rw [encodeLength_eq (by omega), rlpList, length_append, append_assoc]

theorem encode_pair_eq (h : (encode v).length < 2 ^ 63) :
    encode v = rlpList (encode v.1 ++ encode v.2) := by
  refine encode_pair_eq_of ?_
  change (encodeLength _ ++ encode v.1 ++ encode v.2).length < _ at h
  simp only [length_append] at h ⊢
  omega

theorem encode_triple_eq {v : Triple α β γ} (h : (encode v).length < 2 ^ 63) :
    encode v = rlpList (encode v.fst ++ (encode v.snd ++ encode v.trd)) := by
  change encodeLength ((encode v.fst).length + (encode v.snd).length + (encode v.trd).length) ++
    encode v.fst ++ encode v.snd ++ encode v.trd = _
  change (encodeLength ((encode v.fst).length + (encode v.snd).length + (encode v.trd).length) ++
    encode v.fst ++ encode v.snd ++ encode v.trd).length < _ at h
  simp only [length_append] at h
  rw [encodeLength_eq (by omega), rlpList, length_append, length_append, ← Nat.add_assoc]
  simp

end

theorem RoundTrip.last [RLPEncode α] [RLPDecode α] {v : α} (h : RoundTrip v) :
    decodeUnfinished (encode v) = .ok (v, []) := by
  have := h []
  rwa [append_nil] at this

theorem isEmpty_rlpList_append (p rest : ByteString) : (rlpList p ++ rest).isEmpty = false := by
  rw [isEmpty_eq_false_iff]
  exact append_ne_nil_of_left_ne_nil (ne_nil_of_length_pos (length_rlpList_pos p)) _

section

variable {α β γ : Type} [RLPEncode α] [RLPDecode α] [LawfulRLP α] [RLPEncode β] [RLPDecode β] [LawfulRLP β]
  [RLPEncode γ] [RLPDecode γ] [LawfulRLP γ]

instance : LawfulRLP (List α) where
  encode_pos l := by
    change 0 < (if l.isEmpty then [0xc0] else encodeLength (l.map length).sum ++ l.flatMap encode).length
    split
    · simp
    · rw [List.length_append]
      exact Nat.add_pos_left (length_encodeLength_pos _) _
  roundTrip l h := by
    have hl := length_flatMap_le_encode l
    refine roundTrip_list (fun x hx => roundTrip x ?_) (fun x _ => encode_pos x) (by omega)
    have := length_le_flatMap hx
    omega

instance : LawfulRLP (α × β) where
  encode_pos v := by
    change 0 < (encodeLength _ ++ encode v.1 ++ encode v.2).length
    rw [List.append_assoc, List.length_append]
    exact Nat.add_pos_left (length_encodeLength_pos _) _
  roundTrip v h rest := by
    have hv := encode_pair_eq h
    have hp := le_length_rlpList (encode v.1 ++ encode v.2)
    rw [hv] at h ⊢
    have hlen := hp.trans_lt h
    change (if (rlpList (encode v.1 ++ encode v.2) ++ rest).isEmpty then _ else decodeRlpItem _ >>= _) = _
    rw [isEmpty_rlpList_append, decodeRlpItem_rlpList (by omega)]
    simp only [Bool.false_eq_true, if_false, Outcome.bind_ok, Bool.not_true]
    rw [List.length_append] at hlen
    rw [roundTrip v.1 (by omega), Outcome.bind_ok]
    simp only
    rw [(roundTrip v.2 (by omega)).last]
    rfl

instance : LawfulRLP (Triple α β γ) where
  encode_pos v := by
    change 0 < (encodeLength _ ++ encode v.fst ++ encode v.snd ++ encode v.trd).length
    rw [List.append_assoc, List.append_assoc, List.length_append]
    exact Nat.add_pos_left (length_encodeLength_pos _) _
  roundTrip v h rest := by
    have hv := encode_triple_eq h
    have hp := le_length_rlpList (encode v.fst ++ (encode v.snd ++ encode v.trd))
    rw [hv] at h ⊢
    have hlen := hp.trans_lt h
    change (if (rlpList (encode v.fst ++ (encode v.snd ++ encode v.trd)) ++ rest).isEmpty then _
      else decodeRlpItem _ >>= _) = _
    rw [isEmpty_rlpList_append, decodeRlpItem_rlpList (by omega)]
    simp only [Bool.false_eq_true, if_false, Outcome.bind_ok, Bool.not_true]
    rw [List.length_append, List.length_append] at hlen
    rw [roundTrip v.fst (by omega), Outcome.bind_ok]
    simp only
    rw [roundTrip v.snd (by omega), Outcome.bind_ok]
    simp only
    rw [(roundTrip v.trd (by omega)).last]
    rfl

end

/-! ## Structs -/

@[simp] theorem tempBuf_encodeField [RLPEncode α] (e : Encoder) (v : α) :
    (e.encodeField v).tempBuf = e.tempBuf ++ encode v := rfl

@[simp] theorem tempBuf_new : Encoder.new.tempBuf = [] := rfl

theorem length_finish_pos (e : Encoder) : 0 < e.finish.length := by
  rw [Encoder.finish, length_append]
  exact Nat.add_pos_left (length_encodeLength_pos _) _

theorem finish_fits (h : e.finish.length < 2 ^ 63) :
    e.finish = rlpList e.tempBuf ∧ e.tempBuf.length < 2 ^ 63 := by
  have hlen : e.tempBuf.length ≤ e.finish.length := by
    rw [Encoder.finish, length_append]
    omega
  exact ⟨finish_eq (by omega), by omega⟩

/-- A struct is read back if its fields are read back from their encodings. -/
theorem roundTrip_struct {δ : Type} {k : Decoder → Decode δ} {d : δ}
    (h : e.finish.length < 2 ^ 63) (hk : e.tempBuf.length < 2 ^ 63 → k ⟨e.tempBuf, rest⟩ = .ok d) :
    (Decoder.new (e.finish ++ rest) >>= k) = .ok d := by
  obtain ⟨hfin, hlen⟩ := finish_fits h
  rw [hfin, decoder_new (by omega), bind_ok, hk hlen]

section

/-- The bytes of an optional field: none if it is not there. -/
def encodeOpt {α : Type} [RLPEncode α] : Option α → ByteString
  | some v => encode v
  | none => []

variable {α : Type} [RLPEncode α] [RLPDecode α] [LawfulRLP α] {δ : Type}

theorem decodeField_bind {v : α} {k : α × Decoder → Decode δ} (h : (encode v ++ p).length < 2 ^ 63)
    (hk : p.length < 2 ^ 63 → k (v, ⟨p, rest⟩) = d) :
    (Decoder.decodeField α ⟨encode v ++ p, rest⟩ name >>= k) = d := by
  rw [length_append] at h
  rw [decodeField_ok (roundTrip v (by omega)), bind_ok, hk (by omega)]

theorem decodeField_bind_last {v : α} {k : α × Decoder → Decode δ} (h : (encode v).length < 2 ^ 63)
    (hk : k (v, ⟨[], rest⟩) = d) : (Decoder.decodeField α ⟨encode v, rest⟩ name >>= k) = d := by
  rw [decodeField_last (roundTrip v h), bind_ok, hk]

/-- An optional field is read back if nothing follows where it is not there. -/
theorem decodeOptionalField_bind {o : Option α} {k : Option α × Decoder → Decode δ}
    (h : (encodeOpt o ++ p).length < 2 ^ 63) (hnone : o = none → p = [])
    (hnil : ∃ e, (decodeUnfinished [] : Decode (α × ByteString)) = Decode.fail e)
    (hk : p.length < 2 ^ 63 → k (o, ⟨p, rest⟩) = d) :
    (Decoder.decodeOptionalField α ⟨encodeOpt o ++ p, rest⟩ >>= k) = d := by
  rw [length_append] at h
  cases o with
  | some v =>
    have hv : (encode v).length < 2 ^ 63 := Nat.lt_of_le_of_lt (Nat.le_add_right _ _) h
    rw [encodeOpt, Decoder.decodeOptionalField, roundTrip v hv p]
    exact hk (by omega)
  | none =>
    obtain ⟨e, he⟩ := hnil
    obtain rfl := hnone rfl
    simp only [encodeOpt, nil_append, Decoder.decodeOptionalField, he]
    exact hk (by simp)

theorem decodeOptionalField_bind_last {o : Option α} {k : Option α × Decoder → Decode δ}
    (h : (encodeOpt o).length < 2 ^ 63)
    (hnil : ∃ e, (decodeUnfinished [] : Decode (α × ByteString)) = Decode.fail e)
    (hk : k (o, ⟨[], rest⟩) = d) :
    (Decoder.decodeOptionalField α ⟨encodeOpt o, rest⟩ >>= k) = d := by
  rw [← append_nil (encodeOpt o)] at h ⊢
  exact decodeOptionalField_bind h (fun _ => rfl) hnil fun _ => hk

end

@[simp] theorem tempBuf_encodeOptionalField [RLPEncode α] (e : Encoder) (o : Option α) :
    (e.encodeOptionalField o).tempBuf = e.tempBuf ++ encodeOpt o := by
  cases o with
  | some v => rfl
  | none => exact (append_nil _).symm

/-! ## All the types that are built from base types -/

/-- The types that `Vec` and the tuples make of the base types `β`. -/
inductive Nested (β : Type) where
  | base (b : β)
  | vec (t : Nested β)
  | pair (s t : Nested β)
  | triple (s t u : Nested β)

namespace Nested

variable {β : Type} {val : β → Type}

def Value (val : β → Type) : Nested β → Type
  | base b => val b
  | vec t => List (t.Value val)
  | pair s t => s.Value val × t.Value val
  | triple s t u => Triple (s.Value val) (t.Value val) (u.Value val)

@[reducible] def rlpEncode [∀ b, RLPEncode (val b)] : (t : Nested β) → RLPEncode (t.Value val)
  | base b => inferInstanceAs (RLPEncode (val b))
  | vec t => let := t.rlpEncode; inferInstanceAs (RLPEncode (List (t.Value val)))
  | pair s t => let := s.rlpEncode; let := t.rlpEncode
    inferInstanceAs (RLPEncode (s.Value val × t.Value val))
  | triple s t u => let := s.rlpEncode; let := t.rlpEncode; let := u.rlpEncode
    inferInstanceAs (RLPEncode (Triple (s.Value val) (t.Value val) (u.Value val)))

@[reducible] def rlpDecode [∀ b, RLPDecode (val b)] : (t : Nested β) → RLPDecode (t.Value val)
  | base b => inferInstanceAs (RLPDecode (val b))
  | vec t => let := t.rlpDecode; inferInstanceAs (RLPDecode (List (t.Value val)))
  | pair s t => let := s.rlpDecode; let := t.rlpDecode
    inferInstanceAs (RLPDecode (s.Value val × t.Value val))
  | triple s t u => let := s.rlpDecode; let := t.rlpDecode; let := u.rlpDecode
    inferInstanceAs (RLPDecode (Triple (s.Value val) (t.Value val) (u.Value val)))

instance [∀ b, RLPEncode (val b)] (t : Nested β) : RLPEncode (t.Value val) := t.rlpEncode

instance [∀ b, RLPDecode (val b)] (t : Nested β) : RLPDecode (t.Value val) := t.rlpDecode

instance [∀ b, RLPEncode (val b)] [∀ b, RLPDecode (val b)] [∀ b, LawfulRLP (val b)] (t : Nested β) :
    LawfulRLP (t.Value val) := by
  induction t with
  | base b => exact inferInstanceAs (LawfulRLP (val b))
  | vec t iht => exact inferInstanceAs (LawfulRLP (List (t.Value val)))
  | pair s t ihs iht => exact inferInstanceAs (LawfulRLP (s.Value val × t.Value val))
  | triple s t u ihs iht ihu =>
    exact inferInstanceAs (LawfulRLP (Triple (s.Value val) (t.Value val) (u.Value val)))

end Nested

/-- The base types of the crate that it both encodes and decodes. -/
inductive Base where
  | bool | u8 | u16 | u32 | u64 | usize
  | array (n : Nat)
  | bytes | string | u256
  | h32 | h64 | h128 | address | h256 | h264 | h512 | signature | bloom
  | ipv4Addr | ipv6Addr | ipAddr

namespace Base

/-- The values of a base type; a `usize` has 64 bits. -/
def Value : Base → Type
  | bool => Bool
  | u8 => UInt8
  | u16 => UInt16
  | u32 => UInt32
  | u64 => UInt64
  | usize => UInt64
  | array n => FixedBytes n
  | bytes => Bytes
  | string => String
  | u256 => U256
  | h32 => FixedBytes 4
  | h64 => FixedBytes 8
  | h128 => FixedBytes 16
  | address => Address
  | h256 => H256
  | h264 => FixedBytes 33
  | h512 => H512
  | signature => FixedBytes 65
  | bloom => Bloom
  | ipv4Addr => FixedBytes 4
  | ipv6Addr => FixedBytes 16
  | ipAddr => IpAddr

instance (b : Base) : RLPEncode b.Value := match b with
  | bool => inferInstanceAs (RLPEncode Bool)
  | u8 => inferInstanceAs (RLPEncode UInt8)
  | u16 => inferInstanceAs (RLPEncode UInt16)
  | u32 => inferInstanceAs (RLPEncode UInt32)
  | u64 => inferInstanceAs (RLPEncode UInt64)
  | usize => inferInstanceAs (RLPEncode UInt64)
  | array n => inferInstanceAs (RLPEncode (FixedBytes n))
  | bytes => inferInstanceAs (RLPEncode Bytes)
  | string => inferInstanceAs (RLPEncode String)
  | u256 => inferInstanceAs (RLPEncode U256)
  | h32 => inferInstanceAs (RLPEncode (FixedBytes 4))
  | h64 => inferInstanceAs (RLPEncode (FixedBytes 8))
  | h128 => inferInstanceAs (RLPEncode (FixedBytes 16))
  | address => inferInstanceAs (RLPEncode Address)
  | h256 => inferInstanceAs (RLPEncode H256)
  | h264 => inferInstanceAs (RLPEncode (FixedBytes 33))
  | h512 => inferInstanceAs (RLPEncode H512)
  | signature => inferInstanceAs (RLPEncode (FixedBytes 65))
  | bloom => inferInstanceAs (RLPEncode Bloom)
  | ipv4Addr => inferInstanceAs (RLPEncode (FixedBytes 4))
  | ipv6Addr => inferInstanceAs (RLPEncode (FixedBytes 16))
  | ipAddr => inferInstanceAs (RLPEncode IpAddr)

/-- The decoders of `[u8; N]` and of what is made of it. -/
@[reducible] def fixed (typeName : String) (n : Nat) : RLPDecode (FixedBytes n) where
  typeName := typeName
  decodeUnfinished := decodeFixed n

instance (b : Base) : RLPDecode b.Value := match b with
  | bool => inferInstanceAs (RLPDecode Bool)
  | u8 => inferInstanceAs (RLPDecode UInt8)
  | u16 => inferInstanceAs (RLPDecode UInt16)
  | u32 => inferInstanceAs (RLPDecode UInt32)
  | u64 => inferInstanceAs (RLPDecode UInt64)
  | usize => ⟨"usize", decodeUint 8 UInt64.ofNat⟩
  | array n => fixed ("[u8; " ++ toString n ++ "]") n
  | bytes => inferInstanceAs (RLPDecode Bytes)
  | string => inferInstanceAs (RLPDecode String)
  | u256 => inferInstanceAs (RLPDecode U256)
  | h32 => fixed "ethereum_types::hash::H32" 4
  | h64 => fixed "ethereum_types::hash::H64" 8
  | h128 => fixed "primitive_types::H128" 16
  | address => inferInstanceAs (RLPDecode Address)
  | h256 => inferInstanceAs (RLPDecode H256)
  | h264 => fixed "ethereum_types::hash::H264" 33
  | h512 => inferInstanceAs (RLPDecode H512)
  | signature => fixed "ethereum_types::hash::H520" 65
  | bloom => inferInstanceAs (RLPDecode Bloom)
  | ipv4Addr => fixed "core::net::ip_addr::Ipv4Addr" 4
  | ipv6Addr => fixed "core::net::ip_addr::Ipv6Addr" 16
  | ipAddr => inferInstanceAs (RLPDecode IpAddr)

theorem lawful_fixed (typeName : String) (n : Nat) : @LawfulRLP (FixedBytes n) _ (fixed typeName n) :=
  let := fixed typeName n
  { encode_pos := fun _ => length_encodeSlice_pos _
    roundTrip := fun v h rest => decodeFixed_encodeSlice v h rest }

instance (b : Base) : LawfulRLP b.Value := by
  cases b with
  | bool => exact inferInstanceAs (LawfulRLP Bool)
  | u8 => exact inferInstanceAs (LawfulRLP UInt8)
  | u16 => exact inferInstanceAs (LawfulRLP UInt16)
  | u32 => exact inferInstanceAs (LawfulRLP UInt32)
  | u64 => exact inferInstanceAs (LawfulRLP UInt64)
  | usize => exact ⟨fun v => encode_pos (α := UInt64) v, fun v h => roundTrip (α := UInt64) v h⟩
  | bytes => exact inferInstanceAs (LawfulRLP Bytes)
  | string => exact inferInstanceAs (LawfulRLP String)
  | u256 => exact inferInstanceAs (LawfulRLP U256)
  | address => exact inferInstanceAs (LawfulRLP Address)
  | h256 => exact inferInstanceAs (LawfulRLP H256)
  | h512 => exact inferInstanceAs (LawfulRLP H512)
  | bloom => exact inferInstanceAs (LawfulRLP Bloom)
  | ipAddr => exact inferInstanceAs (LawfulRLP IpAddr)
  | array | h32 | h64 | h128 | h264 | signature | ipv4Addr | ipv6Addr => exact lawful_fixed _ _

end Base

/-- A value whose encoding starts another one is the value that is encoded there. -/
theorem eq_of_encode_append [RLPEncode α] [RLPDecode α] [LawfulRLP α] {v w : α}
    (rest : ByteString) (hv : (encode v).length < 2 ^ 63) (hw : (encode w).length < 2 ^ 63)
    (h : encode v ++ rest = encode w) : v = w := by
  have hleft := roundTrip v hv rest
  rw [h, (roundTrip w hw).last] at hleft
  exact (congrArg Prod.fst (Except.ok.inj hleft)).symm

/-- Every value of every nested type is read back with whatever follows it; so no encoding is
another value's, or starts one. -/
theorem nested_roundTrip (t : Nested Base) (v : t.Value Base.Value) (hv : (encode v).length < 2 ^ 63) :
    (∀ rest, decodeUnfinished (encode v ++ rest) = .ok (v, rest)) ∧
      ∀ w : t.Value Base.Value, (encode w).length < 2 ^ 63 →
        (encode v = encode w → v = w) ∧ (encode v <+: encode w → encode v = encode w) := by
  refine ⟨roundTrip v hv, fun w hw => ⟨fun h => ?_, ?_⟩⟩
  · exact eq_of_encode_append [] hv hw (by rw [List.append_nil, h])
  · rintro ⟨rest, h⟩
    rw [eq_of_encode_append rest hv hw h]

/-- A list of pairs of a number and a triple: a text, addresses, and a word. -/
def sampleShape : Nested Base :=
  .vec (.pair (.base .usize) (.triple (.base .string) (.vec (.base .ipAddr)) (.base .u256)))

def sampleNested : sampleShape.Value Base.Value :=
  [((300 : UInt64), ⟨"rlp", [.localhost], 0x1234#256⟩), ((0 : UInt64), ⟨"", [], 0#256⟩)]

theorem nested_roundTrip_sample : (encode sampleNested).length < 2 ^ 63 ∧
    decodeUnfinished (encode sampleNested ++ [0xc0]) = .ok (sampleNested, [0xc0]) :=
  have hlen : (encode sampleNested).length < 2 ^ 63 := by decide +kernel
  ⟨hlen, (nested_roundTrip sampleShape sampleNested hlen).1 [0xc0]⟩

end EthereumRust.Rlp
