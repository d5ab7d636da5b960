import EthereumRust.Rlp.Reads

/-! # Decoders that accept one encoding of a value

The crate does not check that a header is the shortest one. A type is strict when its
decoder reads a value from an `Item`'s encoding only if it is the value's own. -/

namespace EthereumRust.Rlp
open Item List Outcome

variable {x : Item} {α : Type} {e : Encoder} {v : α}

class StrictRLP (α : Type) [RLPEncode α] [RLPDecode α] : Prop where
  /-- An item that is accepted is the encoding of the value. -/
  strict : ∀ {x : Item} {rest r : ByteString} {v : α}, x.encode.length < 2 ^ 63 →
    decodeUnfinished (x.encode ++ rest) = .ok (v, r) → r = rest ∧ encode v = x.encode
  /-- A value is not read from no bytes. -/
  not_nil : ∀ w : α × ByteString, decodeUnfinished [] ≠ .ok w
  /-- What is written is an item. -/
  exists_item : ∀ v : α, (encode v).length < 2 ^ 63 → ∃ x : Item, encode v = x.encode

export StrictRLP (strict not_nil exists_item)

/-! ## Splitting an item -/

theorem decodeRlpItem_encode (hx : x.encode.length < 2 ^ 63) (rest : ByteString) :
    decodeRlpItem (x.encode ++ rest) = match x with
      | .bytes b => .ok (false, b, rest)
      | .list xs => .ok (true, encodeAll xs, rest) := by
  cases x with
  | bytes b =>
    have := le_length_rlpBytes b
    rw [Item.encode] at hx ⊢
    exact decodeRlpItem_rlpBytes (by omega)
  | list xs =>
    have := le_length_rlpList (encodeAll xs)
    rw [Item.encode] at hx ⊢
    exact decodeRlpItem_rlpList (by omega) rest

theorem decodeBytes_encode (hx : x.encode.length < 2 ^ 63)
    (h : decodeBytes (x.encode ++ rest) = .ok (payload, r)) : x = .bytes payload ∧ r = rest := by
  rw [decodeBytes_eq_ok, decodeRlpItem_encode hx] at h
  cases x with
  | bytes b =>
    obtain ⟨-, h⟩ := Prod.mk.inj (Except.ok.inj h)
    cases h
    exact ⟨rfl, rfl⟩
  | list xs =>
    cases h

theorem decodeList_encode (hx : x.encode.length < 2 ^ 63)
    (h : decodeRlpItem (x.encode ++ rest) = .ok (true, payload, r)) :
    ∃ xs, x = .list xs ∧ payload = encodeAll xs ∧ r = rest := by
  rw [decodeRlpItem_encode hx] at h
  cases x with
  | bytes b =>
    cases h
  | list xs =>
    obtain ⟨-, h⟩ := Prod.mk.inj (Except.ok.inj h)
    cases h
    exact ⟨xs, rfl, rfl, rfl⟩

theorem encode_eq_single {y : Item} {b : UInt8} {tl : ByteString} (hx : x.encode.length < 2 ^ 63)
    (hy : y.encode = [b]) (h : x.encode ++ rest = b :: tl) : x.encode = [b] ∧ tl = rest := by
  have happ : x.encode ++ rest = y.encode ++ tl := by rw [hy, h]; rfl
  obtain ⟨rfl, hrest⟩ := encode_inj x y (by omega) (by rw [hy, length_singleton]; norm_num) happ
  exact ⟨hy, hrest.symm⟩

/-! ## Byte strings and numbers -/

theorem encodeSlice_encode (h : (Item.bytes b).encode.length < 2 ^ 63) :
    encodeSlice b = (Item.bytes b).encode := by
  have := le_length_rlpBytes b
  rw [Item.encode] at h ⊢
  exact encodeSlice_eq (by omega)

theorem encodeSlice_item (h : (encodeSlice b).length < 2 ^ 63) :
    ∃ x : Item, encodeSlice b = x.encode := by
  have := le_length_encodeSlice b
  exact ⟨.bytes b, encodeSlice_eq (by omega)⟩

theorem decodeUint_encode (width : Nat) (ofNat : Nat → α)
    (hx : x.encode.length < 2 ^ 63) (h : decodeUint width ofNat (x.encode ++ rest) = .ok (v, r)) :
    r = rest ∧ ∃ n, v = ofNat n ∧ n < 256 ^ width ∧ x.encode = rlpBytes (beMin n) := by
  obtain ⟨⟨payload, r'⟩, hbytes, h⟩ := bind_ok_inv h
  obtain ⟨padded, hpad, h⟩ := bind_ok_inv h
  cases h
  obtain ⟨rfl, rfl⟩ := decodeBytes_encode hx hbytes
  have hfits : payload.length ≤ width ∧ payload.head? ≠ some 0 := by
    have hreturns : (staticLeftPad width payload).Returns := by rw [hpad]; trivial
    rw [returns_staticLeftPad] at hreturns
    have h0 : payload.head? ≠ some 0 := fun h0 => by
      rw [staticLeftPad_zero h0] at hpad
      cases hpad
    exact ⟨Nat.not_lt.mp fun hlt => hreturns ⟨hlt, h0⟩, h0⟩
  obtain ⟨b, hb, hn⟩ := staticLeftPad_fits hfits.1 hfits.2
  obtain rfl : b = padded := Except.ok.inj (hb.symm.trans hpad)
  refine ⟨rfl, beNat payload, by rw [hn], ?_, ?_⟩
  · exact (beNat_lt payload).trans_le (Nat.pow_le_pow_right (by norm_num) hfits.1)
  · rw [beMin_beNat hfits.2]
    rfl

instance : StrictRLP Bool where
  strict {x rest r v} hx h := by
    cases hdata : x.encode ++ rest with
    | nil => rw [hdata] at h; cases h
    | cons b tl =>
      rw [hdata] at h
      simp only [decodeUnfinished] at h
      split at h
      · rename_i hb
        subst hb
        cases h
        obtain ⟨hx1, rfl⟩ := encode_eq_single (y := .bytes []) hx rfl hdata
        exact ⟨rfl, hx1.symm⟩
      · split at h
        · rename_i hb
          subst hb
          cases h
          obtain ⟨hx1, rfl⟩ := encode_eq_single (y := .bytes [1]) hx rfl hdata
          exact ⟨rfl, hx1.symm⟩
        · cases h
  not_nil w h := by cases h
  exists_item v _ := by
    cases v with
    | false => exact ⟨.bytes [], rfl⟩
    | true => exact ⟨.bytes [1], rfl⟩

instance : StrictRLP UInt64 where
  strict {x rest r v} hx h := by
    obtain ⟨hr, n, rfl, hn, henc⟩ := decodeUint_encode 8 UInt64.ofNat hx h
    refine ⟨hr, ?_⟩
    change encodeUint 8 (UInt64.ofNat n).toNat = _
    rw [UInt64.toNat_ofNat_of_lt' hn, encodeUint_eq_rlpBytes (by decide) hn, henc]
  not_nil w h := by cases h
  exists_item v _ := ⟨.bytes (beMin v.toNat), encodeUint_eq_rlpBytes (by decide) v.toNat_lt⟩

instance : StrictRLP U256 where
  strict {x rest r v} hx h := by
    obtain ⟨hr, n, rfl, hn, henc⟩ := decodeUint_encode 32 (BitVec.ofNat 256) hx h
    have hlen : (beMin n).length ≤ 32 := length_beMin_le.mpr hn
    have hval : (BitVec.ofNat 256 n).toNat = n := Nat.mod_eq_of_lt hn
    refine ⟨hr, ?_⟩
    change encodeSlice (significantBytes 32 (BitVec.ofNat 256 n).toNat) = _
    rw [hval, significantBytes_eq hn, encodeSlice_eq (by omega), henc]
  not_nil w h := by cases h
  exists_item _ h := encodeSlice_item h

theorem decodeFixed_strict {v : FixedBytes n}
    (hx : x.encode.length < 2 ^ 63) (h : decodeFixed n (x.encode ++ rest) = .ok (v, r)) :
    r = rest ∧ encode v = x.encode := by
  obtain ⟨⟨payload, r'⟩, hbytes, hcheck⟩ := bind_ok_inv h
  obtain ⟨rfl, rfl⟩ := decodeBytes_encode hx hbytes
  dsimp only at hcheck
  split at hcheck
  · cases hcheck
    exact ⟨rfl, encodeSlice_encode hx⟩
  · cases hcheck

instance : StrictRLP H256 where
  strict := decodeFixed_strict
  not_nil w h := by cases h
  exists_item _ h := encodeSlice_item h

instance : StrictRLP Address where
  strict := decodeFixed_strict
  not_nil w h := by cases h
  exists_item _ h := encodeSlice_item h

instance : StrictRLP Bytes where
  strict {x rest r v} hx h := by
    obtain ⟨⟨payload, r'⟩, hbytes, hval⟩ := Outcome.bind_ok_inv h
    obtain ⟨rfl, rfl⟩ := decodeBytes_encode hx hbytes
    cases hval
    exact ⟨rfl, encodeSlice_encode hx⟩
  not_nil w h := by cases h
  exists_item _ h := encodeSlice_item h

/-! ## Lists, tuples and structs -/

/-- Some bytes that are items one after the other. -/
def AreItems (p : ByteString) : Prop := ∃ xs, p = encodeAll xs

theorem AreItems.nil : AreItems [] := ⟨[], rfl⟩

theorem AreItems.append (hp : AreItems p) (hq : AreItems q) : AreItems (p ++ q) := by
  obtain ⟨xs, rfl⟩ := hp
  obtain ⟨ys, rfl⟩ := hq
  exact ⟨xs ++ ys, (encodeAll_append xs ys).symm⟩

theorem AreItems.exists_item (h : AreItems p) : ∃ x : Item, rlpList p = x.encode := by
  obtain ⟨xs, rfl⟩ := h
  exact ⟨.list xs, rfl⟩

theorem decode_strict [RLPEncode α] [RLPDecode α] [StrictRLP α]
    (hx : x.encode.length < 2 ^ 63) (h : decode x.encode = .ok v) : encode v = x.encode := by
  obtain ⟨⟨v', r⟩, hv, h⟩ := bind_ok_inv h
  rw [← append_nil x.encode] at hv
  have henc := (strict hx hv).2
  change (if !r.isEmpty then _ else _ : Decode _) = _ at h
  split at h
  · cases h
  · cases h
    exact henc

section

variable {α β : Type} [RLPEncode α] [RLPDecode α] [StrictRLP α] [RLPEncode β] [RLPDecode β]
  [StrictRLP β] {v : α} {l : List α} {δ : Type}

theorem AreItems.encode (h : (Rlp.encode v).length < 2 ^ 63) : AreItems (Rlp.encode v) := by
  obtain ⟨x, hx⟩ := StrictRLP.exists_item v h
  exact ⟨[x], by rw [hx, encodeAll_cons, encodeAll_nil, append_nil]⟩

theorem AreItems.encode_append (h : (Rlp.encode v ++ p).length < 2 ^ 63)
    (hp : p.length < 2 ^ 63 → AreItems p) : AreItems (Rlp.encode v ++ p) := by
  rw [length_append] at h
  exact (AreItems.encode (by omega)).append (hp (by omega))

theorem AreItems.flatMap (h : (l.flatMap Rlp.encode).length < 2 ^ 63) :
    AreItems (l.flatMap Rlp.encode) := by
  induction l with
  | nil => exact .nil
  | cons x l ih =>
    exact AreItems.encode_append h ih

theorem strict_first (hlen : (encodeAll xs).length < 2 ^ 63)
    (h : decodeUnfinished (encodeAll xs) = .ok (v, r)) :
    ∃ x ys, xs = x :: ys ∧ encode v = x.encode ∧ r = encodeAll ys := by
  cases xs with
  | nil => exact absurd h (not_nil (v, r))
  | cons x ys =>
    rw [encodeAll_cons, length_append] at hlen
    obtain ⟨rfl, hv⟩ := strict (by omega) h
    exact ⟨x, ys, rfl, hv, rfl⟩

theorem decodeElements_strict
    (hlen : (encodeAll xs).length < 2 ^ 63) (h : decodeElements fuel (encodeAll xs) = .ok l) :
    l.flatMap encode = encodeAll xs := by
  induction fuel generalizing xs l with
  | zero =>
    cases hp : encodeAll xs with
    | nil =>
      rw [hp] at h
      cases h
      rfl
    | cons b tl => rw [hp] at h; cases h
  | succ fuel ih =>
    cases hp : encodeAll xs with
    | nil =>
      rw [hp] at h
      cases h
      rfl
    | cons b tl =>
      rw [decodeElements_succ (by rw [hp]; simp)] at h
      obtain ⟨⟨v, r⟩, hv, h⟩ := bind_ok_inv h
      obtain ⟨vs, hvs, h⟩ := bind_ok_inv h
      cases h
      obtain ⟨x, ys, rfl, hx, rfl⟩ := strict_first hlen hv
      rw [encodeAll_cons, length_append] at hlen
      rw [flatMap_cons, hx, ih (by omega) hvs, ← hp, encodeAll_cons]

instance : StrictRLP (List α) where
  strict {x rest r v} hx h := by
    cases hdata : x.encode ++ rest with
    | nil => rw [hdata] at h; cases h
    | cons b tl =>
      rw [hdata] at h
      simp only [decodeUnfinished] at h
      split at h
      · rename_i hb
        subst hb
        cases h
        obtain ⟨hx1, rfl⟩ := encode_eq_single (y := .list []) hx rfl hdata
        exact ⟨rfl, hx1.symm⟩
      · rw [← hdata] at h
        obtain ⟨⟨isList, payload, r'⟩, hitem, h⟩ := Outcome.bind_ok_inv h
        cases isList with
        | false => cases h
        | true =>
          obtain ⟨l, hl, h⟩ := Outcome.bind_ok_inv h
          cases h
          obtain ⟨xs, rfl, rfl, rfl⟩ := decodeList_encode hx hitem
          have hlen : (encodeAll xs).length < 2 ^ 63 := (le_length_rlpList _).trans_lt hx
          have hflat := decodeElements_strict hlen hl
          refine ⟨rfl, ?_⟩
          rw [encode_list_eq (by rw [hflat]; omega), hflat]
          rfl
  not_nil w h := by cases h
  exists_item l h := by
    have hflat := length_flatMap_le_encode l
    rw [encode_list_eq (by omega)]
    exact (AreItems.flatMap (by omega)).exists_item

instance : StrictRLP (α × β) where
  strict {x rest r v} hx h := by
    change (if (x.encode ++ rest).isEmpty then _ else _ : Decode _) = _ at h
    split at h
    · cases h
    · obtain ⟨⟨isList, payload, r'⟩, hitem, hpair⟩ := Outcome.bind_ok_inv h
      cases isList with
      | false => cases hpair
      | true =>
        obtain ⟨xs, rfl, rfl, rfl⟩ := decodeList_encode hx hitem
        have hall : (encodeAll xs).length < 2 ^ 63 := (le_length_rlpList _).trans_lt hx
        have hlen := hall
        obtain ⟨⟨first, firstRest⟩, hfirst, hpair⟩ := Outcome.bind_ok_inv hpair
        obtain ⟨y, ys, rfl, hy, rfl⟩ := strict_first hlen hfirst
        rw [encodeAll_cons, List.length_append] at hlen
        obtain ⟨⟨second, secondRest⟩, hsecond, hpair⟩ := Outcome.bind_ok_inv hpair
        obtain ⟨z, zs, rfl, hz, rfl⟩ := strict_first (by omega) hsecond
        change (if !(encodeAll zs).isEmpty then _ else _ : Decode _) = _ at hpair
        split at hpair
        · cases hpair
        · rename_i hempty
          cases hpair
          have hzs : encodeAll zs = [] := by simpa using hempty
          have hpay : encodeAll (y :: z :: zs) = encode first ++ encode second := by
            rw [encodeAll_cons, encodeAll_cons, hzs, List.append_nil, hy, hz]
          refine ⟨rfl, ?_⟩
          rw [hpay] at hall
          rw [encode_pair_eq_of hall, Item.encode, hpay]
  not_nil w h := by cases h
  exists_item v h := by
    have hv := encode_pair_eq h
    rw [hv] at h ⊢
    exact (AreItems.encode_append ((le_length_rlpList _).trans_lt h) AreItems.encode).exists_item

/-- An encoder that has written `e` writes the fields that `read` takes from some items as these items. -/
def WritesBack (e : Encoder) (read : Decoder → Decode (α × ByteString)) : Prop :=
  ∀ xs rest v r, (e.tempBuf ++ encodeAll xs).length < 2 ^ 63 → read ⟨encodeAll xs, rest⟩ = .ok (v, r) →
    r = rest ∧ encode v = rlpList (e.tempBuf ++ encodeAll xs)

omit [RLPDecode α] [StrictRLP α] in
theorem strict_struct {read : Decoder → Decode (α × ByteString)} (hread : WritesBack .new read)
    (hx : x.encode.length < 2 ^ 63) (h : (Decoder.new (x.encode ++ rest) >>= read) = .ok (v, r)) :
    r = rest ∧ encode v = x.encode := by
  obtain ⟨d, hnew, hk⟩ := bind_ok_inv h
  obtain ⟨⟨isList, payload, r⟩, hitem, hd⟩ := bind_ok_inv hnew
  cases isList with
  | false => cases hd
  | true =>
    obtain ⟨xs, rfl, rfl, rfl⟩ := decodeList_encode hx hitem
    cases hd
    exact hread _ _ _ _ ((le_length_rlpList _).trans_lt hx) hk

omit [RLPDecode α] [StrictRLP α] in
theorem WritesBack.field {k : β × Decoder → Decode (α × ByteString)}
    (hk : ∀ v, WritesBack (e.encodeField v) fun d => k (v, d)) :
    WritesBack e fun d => d.decodeField β name >>= k := by
  intro xs rest w r hlen h
  obtain ⟨⟨v, ⟨payload, remaining⟩⟩, hfield, h⟩ := bind_ok_inv h
  obtain ⟨hv, hrem⟩ := decodeField_inv hfield
  obtain rfl : remaining = rest := hrem
  have hxs : (encodeAll xs).length < 2 ^ 63 := by
    rw [length_append] at hlen
    omega
  obtain ⟨y, ys, rfl, hy, hpay⟩ := strict_first hxs hv
  obtain rfl : payload = encodeAll ys := hpay
  -- the field goes from the items that are left to what has been written
  have hmoved : (e.encodeField v).tempBuf ++ encodeAll ys = e.tempBuf ++ encodeAll (y :: ys) := by
    rw [tempBuf_encodeField, hy, append_assoc, ← encodeAll_cons]
  rw [← hmoved] at hlen ⊢
  exact hk v _ _ _ _ hlen h

omit [RLPDecode α] [StrictRLP α] in
theorem WritesBack.finish (hv : encode v = e.finish) :
    WritesBack e fun d => d.finish >>= fun rest => pure (v, rest) := by
  intro xs rest w r hlen h
  obtain ⟨rest', hr, h⟩ := bind_ok_inv h
  cases h
  simp only [Decoder.finish] at hr
  split at hr
  · rename_i hempty
    cases hr
    rw [isEmpty_iff.mp hempty, append_nil] at hlen ⊢
    exact ⟨rfl, hv.trans (finish_eq (by omega))⟩
  · cases hr

/-- What is written is some items. -/
def WritesItems (e : Encoder) : Prop := e.tempBuf.length < 2 ^ 63 → AreItems e.tempBuf

theorem WritesItems.new : WritesItems .new := fun _ => .nil

theorem WritesItems.field (he : WritesItems e) : WritesItems (e.encodeField v) := by
  intro h
  rw [tempBuf_encodeField, length_append] at h
  exact (he (by omega)).append (AreItems.encode (by omega))

end

theorem finish_item (he : WritesItems e) (h : e.finish.length < 2 ^ 63) : ∃ x : Item, e.finish = x.encode := by
  obtain ⟨hfin, hlen⟩ := finish_fits h
  rw [hfin]
  exact (he hlen).exists_item

end EthereumRust.Rlp
