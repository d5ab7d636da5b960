import EthereumRust.Lib.Rlp
import EthereumRust.Rlp.Decode

/-! # What the codec writes, and that it reads it back -/

namespace EthereumRust.Rlp
open List Outcome UInt8

variable {α β : Type} {l : List α} {v : α}

/-! ## Encodings are length prefixes -/

theorem significantBytes_eq (h : n < 256 ^ w) : significantBytes w n = beMin n :=
  dropWhile_beBytes h

theorem ofNat_add (a b : Nat) : UInt8.ofNat (a + b) = UInt8.ofNat a + UInt8.ofNat b := by
  apply UInt8.toNat_inj.mp
  simp

theorem encodeSlice_eq (h : b.length < 2 ^ 64) : encodeSlice b = rlpBytes b := by
  have hsig : significantBytes 8 b.length = beMin b.length := significantBytes_eq (by simpa using h)
  match b with
  | [] => rfl
  | [x] =>
    by_cases hx : x < 0x80
    · simp [encodeSlice, rlpBytes, RLP_NULL, hx]
    · rfl
  | x :: y :: b =>
    simp only [encodeSlice, rlpBytes, rlpHeader, hsig]
    split
    · rw [ofNat_add]; rfl
    · rw [ofNat_add]; rfl

theorem encodeLength_eq (h : n < 2 ^ 64) : encodeLength n = rlpHeader 0xC0 n := by
  have hsig : significantBytes 8 n = beMin n := significantBytes_eq (by simpa using h)
  unfold encodeLength rlpHeader
  split
  · rw [ofNat_add]; rfl
  · rw [hsig, ofNat_add]; rfl

theorem finish_eq {e : Encoder} (h : e.tempBuf.length < 2 ^ 64) : e.finish = rlpList e.tempBuf := by
  rw [Encoder.finish, encodeLength_eq h, rlpList]

theorem length_flatMap_encode [RLPEncode α] (l : List α) :
    (l.flatMap encode).length = (l.map length).sum := by
  rw [length_flatMap]; rfl

theorem encode_list_eq [RLPEncode α]
    (h : (l.flatMap encode).length < 2 ^ 64) : encode l = rlpList (l.flatMap encode) := by
  change (if l.isEmpty then [0xc0] else encodeLength (l.map length).sum ++ l.flatMap encode) = _
  cases l with
  | nil => rfl
  | cons x l =>
    rw [if_neg (by simp), ← length_flatMap_encode, encodeLength_eq h, rlpList]

/-! ## Items are read back -/

theorem staticLeftPad_beMin (h : k < 256 ^ w) :
    ∃ b, staticLeftPad w (beMin k) = .ok b ∧ beNat b = k := by
  have hlen : (beMin k).length ≤ w := length_beMin_le.mpr h
  cases hb : beMin k with
  | nil =>
    have hk : k = 0 := beMin_injective (hb.trans beMin_zero.symm)
    refine ⟨_, rfl, ?_⟩
    rw [hk]
    clear h hlen
    induction w with
    | zero => rfl
    | succ w ih => rw [replicate_succ, beNat_cons, ih]; simp
  | cons x tl =>
    have hx : x ≠ 0 := by
      rintro rfl
      exact head?_beMin k (by rw [hb]; rfl)
    rw [hb] at hlen
    refine ⟨List.replicate (w - (x :: tl).length) 0 ++ x :: tl,
      by simp only [staticLeftPad, hx, hlen, if_true, if_false], ?_⟩
    conv_rhs => rw [← beNat_beMin k, hb]
    generalize w - (x :: tl).length = m
    induction m with
    | zero => rfl
    | succ m ih => rw [replicate_succ, cons_append, beNat_cons, ih]; simp

theorem shortItem_ok (base : UInt8) (hp : p.length < 56) :
    shortItem isList base (UInt8.ofNat (base.toNat + p.length))
      (UInt8.ofNat (base.toNat + p.length) :: (p ++ rest)) = .ok (isList, p, rest) := by
  have hlen : (UInt8.ofNat (base.toNat + p.length) - base).toNat = p.length := by
    rw [ofNat_add, UInt8.ofNat_toNat, UInt8.add_comm, UInt8.add_sub_cancel, UInt8.toNat_ofNat']
    omega
  simp only [shortItem, hlen]
  simp

theorem longItem_ok (base : UInt8) (hp : p.length + 9 < 2 ^ 64) :
    longItem isList base (UInt8.ofNat (base.toNat + (beMin p.length).length))
      (UInt8.ofNat (base.toNat + (beMin p.length).length) :: (beMin p.length ++ (p ++ rest))) =
      .ok (isList, p, rest) := by
  have h8 : (beMin p.length).length ≤ 8 := length_beMin_le.mpr (by omega)
  have hlen : (UInt8.ofNat (base.toNat + (beMin p.length).length) - base).toNat =
      (beMin p.length).length := by
    rw [ofNat_add, UInt8.ofNat_toNat, UInt8.add_comm, UInt8.add_sub_cancel, UInt8.toNat_ofNat']
    omega
  obtain ⟨b, hb, hbn⟩ := staticLeftPad_beMin (k := p.length) (w := 8) (by omega)
  set m := beMin p.length with hm
  have htake : ((UInt8.ofNat (base.toNat + m.length) :: (m ++ (p ++ rest))).take (m.length + 1)).drop 1 = m := by
    simp
  rw [longItem]
  simp only [hlen]
  rw [if_neg (by simp), htake, hb, bind_ok, hbn, Rust.add_ok (by rw [Rust.wordSize]; omega),
    bind_ok, Rust.add_ok (by rw [Rust.wordSize]; omega), bind_ok,
    if_neg (by simp), pure_eq]
  have h1 : (m ++ (p ++ rest)).take (m.length + p.length) = m ++ p := by
    rw [← append_assoc, ← length_append, take_left]
  have h2 : (m ++ (p ++ rest)).drop (m.length + p.length) = rest := by
    rw [← append_assoc, ← length_append, drop_left]
  rw [take_succ_cons, drop_succ_cons, drop_succ_cons, h1, h2, drop_left]

theorem le_of_toNat_le {a b : UInt8} (h : a.toNat ≤ b.toNat) : a ≤ b := le_iff_toNat_le.mpr h

theorem not_le_of_toNat_lt {a b : UInt8} (h : b.toNat < a.toNat) : ¬ a ≤ b := by
  rw [le_iff_toNat_le]; omega

theorem decodeRlpItem_rlpList (hp : p.length + 9 < 2 ^ 64) (rest : ByteString) :
    decodeRlpItem (rlpList p ++ rest) = .ok (true, p, rest) := by
  rw [rlpList, rlpHeader, append_assoc]
  by_cases h : p.length < 56
  · rw [if_pos h]
    have hx : (UInt8.ofNat (0xC0 + p.length)).toNat = 0xC0 + p.length := by
      rw [toNat_ofNat']; omega
    simp only [cons_append, decodeRlpItem]
    rw [if_neg (not_le_of_toNat_lt (by rw [hx]; simp; omega)),
      if_neg (not_le_of_toNat_lt (by rw [hx]; simp; omega)),
      if_neg (not_le_of_toNat_lt (by rw [hx]; simp; omega)),
      if_pos (le_of_toNat_le (by rw [hx]; simp; omega))]
    exact shortItem_ok 0xC0 h
  · rw [if_neg h]
    have h8 : (beMin p.length).length ≤ 8 := length_beMin_le.mpr (by omega)
    have hpos := length_beMin_pos (k := p.length) (by omega)
    have hx : (UInt8.ofNat (0xC0 + 55 + (beMin p.length).length)).toNat =
        0xC0 + 55 + (beMin p.length).length := by
      rw [toNat_ofNat']; omega
    simp only [cons_append, decodeRlpItem]
    rw [if_neg (not_le_of_toNat_lt (by rw [hx]; simp; omega)),
      if_neg (not_le_of_toNat_lt (by rw [hx]; simp; omega)),
      if_neg (not_le_of_toNat_lt (by rw [hx]; simp; omega)),
      if_neg (not_le_of_toNat_lt (by rw [hx]; simp; omega))]
    exact longItem_ok 0xF7 hp

theorem decodeRlpItem_rlpBytes (hb : b.length + 9 < 2 ^ 64) :
    decodeRlpItem (rlpBytes b ++ rest) = .ok (false, b, rest) := by
  have hshort : ∀ b : ByteString, b.length < 56 →
      decodeRlpItem (rlpHeader 0x80 b.length ++ b ++ rest) = .ok (false, b, rest) := by
    intro b h
    rw [rlpHeader, if_pos h]
    have hx : (UInt8.ofNat (0x80 + b.length)).toNat = 0x80 + b.length := by
      rw [toNat_ofNat']; omega
    simp only [cons_append, decodeRlpItem]
    rw [if_neg (not_le_of_toNat_lt (by rw [hx]; simp; omega)),
      if_pos (le_of_toNat_le (by rw [hx]; simp; omega))]
    exact shortItem_ok 0x80 h
  by_cases h1 : b.length = 1
  · obtain ⟨x, rfl⟩ := length_eq_one_iff.mp h1
    by_cases hx : x < 0x80
    · rw [rlpBytes_single hx]
      have hx' : x.toNat < 0x80 := by simpa using lt_iff_toNat_lt.mp hx
      simp only [cons_append, decodeRlpItem]
      rw [if_pos (le_of_toNat_le (by simp; omega))]
      simp
    · rw [rlpBytes_of_ge hx]
      exact hshort [x] (by simp)
  · rw [rlpBytes_of_length h1]
    by_cases h : b.length < 56
    · exact hshort b h
    · have h8 : (beMin b.length).length ≤ 8 := length_beMin_le.mpr (by omega)
      have hpos := length_beMin_pos (k := b.length) (by omega)
      have hx : (UInt8.ofNat (0x80 + 55 + (beMin b.length).length)).toNat =
          0x80 + 55 + (beMin b.length).length := by
        rw [toNat_ofNat']; omega
      rw [rlpHeader, if_neg h, append_assoc]
      simp only [cons_append, decodeRlpItem]
      rw [if_neg (not_le_of_toNat_lt (by rw [hx]; simp; omega)),
        if_neg (not_le_of_toNat_lt (by rw [hx]; simp; omega)),
        if_pos (le_of_toNat_le (by rw [hx]; simp; omega))]
      exact longItem_ok 0xB7 hb

/-! ## Values are read back -/

/-- A decoder that meets the encoding of `v` returns `v` and what follows. -/
def RoundTrip {α : Type} [RLPEncode α] [RLPDecode α] (v : α) : Prop :=
  ∀ rest, decodeUnfinished (encode v ++ rest) = .ok (v, rest)

theorem RoundTrip.decode [RLPEncode α] [RLPDecode α] (h : RoundTrip v) :
    decode (encode v) = .ok v := by
  have := h []
  rw [append_nil] at this
  rw [Rlp.decode, this]
  rfl

theorem roundTrip_bool (v : Bool) : RoundTrip v := by
  intro rest
  cases v <;> rfl

theorem roundTrip_u8 (v : UInt8) : RoundTrip v := by
  intro rest
  change decodeUnfinished (encodeUint 1 v.toNat ++ rest) = _
  unfold encodeUint
  split
  · rename_i h
    rw [UInt8.toNat_inj.mp (h.trans UInt8.toNat_zero.symm)]
    rfl
  · rename_i h0
    split
    · rename_i h7
      rw [UInt8.ofNat_toNat]
      simp only [cons_append, nil_append, decodeUnfinished]
      rw [if_pos (le_of_toNat_le (by simpa using h7))]
    · have hsig : significantBytes 1 v.toNat = [v] := by
        rw [significantBytes, beBytes, beBytes]
        simp only [pow_zero, Nat.div_one, UInt8.ofNat_toNat]
        rw [dropWhile_cons_of_neg]
        simp only [beq_iff_eq]
        rintro rfl
        exact h0 rfl
      rw [hsig]
      rfl

theorem length_encodeUint_pos (w n : Nat) : 0 < (encodeUint w n).length := by
  unfold encodeUint
  split
  · simp
  · split <;> simp

theorem length_encode_u8_le (v : UInt8) : (encode v).length ≤ 2 := by
  change (encodeUint 1 v.toNat).length ≤ 2
  unfold encodeUint
  split
  · simp
  · split
    · simp
    · have : (significantBytes 1 v.toNat).length ≤ (beBytes 1 v.toNat).length :=
        (dropWhile_sublist _).length_le
      simp only [length_beBytes] at this
      simp only [length_cons]
      omega

theorem decodeElements_succ [RLPDecode α] {data : ByteString} (h : 0 < data.length) :
    decodeElements (fuel + 1) data = (do
      let (item, restCurrentList) ← decodeUnfinished data
      let result ← decodeElements fuel restCurrentList
      pure (item :: result) : Decode (List α)) := by
  obtain ⟨b, tl, rfl⟩ := exists_cons_of_length_pos h
  rfl

theorem decodeElements_flatMap [RLPEncode α] [RLPDecode α]
    (hround : ∀ x ∈ l, RoundTrip x) (hpos : ∀ x ∈ l, 0 < (encode x).length)
    (hfuel : (l.flatMap encode).length ≤ fuel) :
    decodeElements fuel (l.flatMap encode) = .ok l := by
  induction l generalizing fuel with
  | nil => cases fuel <;> rfl
  | cons x l ih =>
    have hx := hpos x mem_cons_self
    rw [flatMap_cons] at hfuel ⊢
    rw [length_append] at hfuel
    cases fuel with
    | zero => omega
    | succ fuel =>
      rw [decodeElements_succ (by rw [length_append]; omega), hround x mem_cons_self]
      simp only [bind_ok]
      rw [ih (fun y hy => hround y (mem_cons_of_mem _ hy))
        (fun y hy => hpos y (mem_cons_of_mem _ hy)) (by omega)]
      rfl

theorem decodeElements_ok [RLPEncode α] [RLPDecode α] {v : List α} {good : α → Prop}
    (hround : ∀ x ∈ l, good x → RoundTrip x) (hpos : ∀ x ∈ l, 0 < (encode x).length)
    (hbad : ∀ x ∈ l, ¬ good x → ∀ rest (w : α × ByteString), decodeUnfinished (encode x ++ rest) ≠ .ok w)
    (h : decodeElements fuel (l.flatMap encode) = .ok v) : ∀ x ∈ l, good x := by
  induction l generalizing fuel v with
  | nil => simp
  | cons x l ih =>
    have hx := hpos x mem_cons_self
    rw [flatMap_cons] at h
    cases fuel with
    | zero =>
      obtain ⟨b, tl, hb⟩ := exists_cons_of_length_pos hx
      rw [hb] at h
      cases h
    | succ fuel =>
      rw [decodeElements_succ (by rw [length_append]; omega)] at h
      obtain ⟨w, hw, h⟩ := bind_ok_inv h
      have hgood : good x := by
        by_contra hne
        exact hbad x mem_cons_self hne _ w hw
      rw [hround x mem_cons_self hgood] at hw
      cases hw
      obtain ⟨v', hv', -⟩ := bind_ok_inv h
      intro y hy
      rcases mem_cons.mp hy with rfl | hy
      · exact hgood
      · exact ih (fun z hz => hround z (mem_cons_of_mem _ hz))
          (fun z hz => hpos z (mem_cons_of_mem _ hz))
          (fun z hz => hbad z (mem_cons_of_mem _ hz)) hv' y hy

theorem decode_list_eq [RLPEncode α] [RLPDecode α]
    (hpos : ∀ x ∈ l, 0 < (encode x).length) (hlen : (l.flatMap encode).length + 9 < 2 ^ 64)
    (rest : ByteString) :
    decodeUnfinished (encode l ++ rest) = (do
      let result ← decodeElements (l.flatMap encode).length (l.flatMap encode)
      pure (result, rest) : Decode (List α × ByteString)) := by
  rw [encode_list_eq (by omega)]
  by_cases h0 : l.flatMap encode = []
  · -- no payload, no elements
    have hl : l = [] := by
      cases l with
      | nil => rfl
      | cons x l =>
        have := hpos x mem_cons_self
        rw [flatMap_cons, append_eq_nil_iff] at h0
        rw [h0.1] at this
        simp at this
    subst hl
    rfl
  · have hitem := decodeRlpItem_rlpList hlen rest
    obtain ⟨b, tl, hb, hne⟩ : ∃ b tl, rlpList (l.flatMap encode) ++ rest = b :: tl ∧
        b ≠ RLP_EMPTY_LIST := by
      have hpos' := length_pos_iff.mpr h0
      rw [rlpList, rlpHeader]
      split
      · refine ⟨_, _, rfl, fun he => ?_⟩
        have := congrArg UInt8.toNat he
        rw [toNat_ofNat', show RLP_EMPTY_LIST.toNat = 0xC0 from rfl] at this
        omega
      · have h8 : (beMin (l.flatMap encode).length).length ≤ 8 := length_beMin_le.mpr (by omega)
        refine ⟨_, _, rfl, fun he => ?_⟩
        have := congrArg UInt8.toNat he
        rw [toNat_ofNat', show RLP_EMPTY_LIST.toNat = 0xC0 from rfl] at this
        omega
    rw [hb] at hitem ⊢
    change (if b = RLP_EMPTY_LIST then _ else _) = _
    rw [if_neg hne, hitem]
    rfl

theorem roundTrip_list [RLPEncode α] [RLPDecode α]
    (hround : ∀ x ∈ l, RoundTrip x) (hpos : ∀ x ∈ l, 0 < (encode x).length)
    (hlen : (l.flatMap encode).length + 9 < 2 ^ 64) : RoundTrip l := by
  intro rest
  rw [decode_list_eq hpos hlen, decodeElements_flatMap hround hpos le_rfl]
  rfl

theorem length_flatMap_le_encode [RLPEncode α] (l : List α) : (l.flatMap encode).length ≤ (encode l).length := by
  change _ ≤ (if l.isEmpty then [0xc0] else encodeLength (l.map length).sum ++ l.flatMap encode).length
  split
  · rename_i hl
    rw [isEmpty_iff.mp hl]
    simp
  · simp

theorem length_flatMap_u8_le (v : ByteString) : (v.flatMap encode).length ≤ 2 * v.length := by
  induction v with
  | nil => simp
  | cons x v ih =>
    have := length_encode_u8_le x
    rw [flatMap_cons, length_append, length_cons]
    omega

theorem roundTrip_vec {v : ByteString} (h : (encode v).length + 9 < 2 ^ 64) : RoundTrip v :=
  roundTrip_list (fun x _ => roundTrip_u8 x) (fun x _ => length_encodeUint_pos 1 x.toNat)
    (by have := length_flatMap_le_encode v; omega)

theorem length_encode_vec_le {v : ByteString} (h : 2 * v.length < 2 ^ 64) :
    (encode v).length ≤ 2 * v.length + 9 := by
  have h1 := length_flatMap_u8_le v
  have h2 := length_rlpList_le (p := v.flatMap encode) (by omega)
  rw [encode_list_eq (by omega)]
  omega

/-! ## Structs -/

theorem decoder_new (hp : p.length + 9 < 2 ^ 64) :
    Decoder.new (rlpList p ++ rest) = .ok ⟨p, rest⟩ := by
  rw [Decoder.new, decodeRlpItem_rlpList hp]
  rfl

theorem roundTrip_fields {δ : Type} {e : Encoder} {k : Decoder → Decode δ} {d : δ}
    (h : e.finish.length + 9 < 2 ^ 64) (hk : e.tempBuf.length + 9 < 2 ^ 64 → k ⟨e.tempBuf, rest⟩ = .ok d) :
    (Decoder.new (e.finish ++ rest) >>= k) = .ok d := by
  have hlen : e.tempBuf.length ≤ e.finish.length := by
    rw [Encoder.finish, length_append]
    omega
  rw [finish_eq (by omega), decoder_new (by omega), bind_ok, hk (by omega)]

theorem decodeField_ok [RLPEncode α] [RLPDecode α] (hv : RoundTrip v)
    (p rest : ByteString) (name : String) :
    Decoder.decodeField α ⟨encode v ++ p, rest⟩ name = .ok (v, ⟨p, rest⟩) := by
  rw [Decoder.decodeField, hv p]
  rfl

theorem decodeField_last [RLPEncode α] [RLPDecode α] (hv : RoundTrip v)
    (rest : ByteString) (name : String) :
    Decoder.decodeField α ⟨encode v, rest⟩ name = .ok (v, ⟨[], rest⟩) := by
  have := decodeField_ok hv [] rest name
  rwa [append_nil] at this

theorem decodeField_inv [RLPDecode α] {d d' : Decoder}
    (h : d.decodeField α name = .ok (v, d')) :
    decodeUnfinished d.payload = .ok (v, d'.payload) ∧ d'.remaining = d.remaining := by
  obtain ⟨⟨field, rest⟩, hfield, h⟩ := bind_ok_inv h
  cases h
  exact ⟨mapErr_eq_ok.mp hfield, rfl⟩

end EthereumRust.Rlp
