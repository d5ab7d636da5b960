import EthereumRust.Core.Codec
import EthereumRust.Rlp.Reads

/-! # Where a transaction ends

The decoder of a transaction with a type skips the header of the string around it and
does not look at the length there: the list inside tells where the transaction ends. -/

namespace EthereumRust.Core
open Rlp List Outcome

variable {data : ByteString}

/-! ## Reads -/

instance : Traced TxKind where
  reads rlp := match rlp with
    | [] => []
    | firstByte :: _ => if firstByte = RLP_NULL then [] else reads Address rlp
  returns_iff rlp := by
    cases rlp with
    | nil => exact iff_of_true (trivial) fine_nil
    | cons firstByte rest =>
      simp only [decodeUnfinished]
      split
      · exact iff_of_true (trivial) fine_nil
      · refine Iff.trans Outcome.returns_bind ?_
        refine Iff.trans (and_iff_left fun _ _ => trivial) ?_
        exact Traced.returns_iff (α := Address) _
  shorter {data v rest} h := by
    cases data with
    | nil => cases h
    | cons firstByte data =>
      simp only [decodeUnfinished] at h
      split at h
      · cases h
        simp
      · obtain ⟨⟨address, rest'⟩, haddress, h⟩ := Outcome.bind_ok_inv h
        cases h
        exact Traced.shorter (α := Address) haddress

instance : TracedStruct LegacyTransaction where
  fields d := fieldReads UInt64 d fun d => fieldReads UInt64 d fun d => fieldReads UInt64 d fun d =>
    fieldReads TxKind d fun d => fieldReads U256 d fun d => fieldReads Bytes d fun d =>
    fieldReads U256 d fun d => fieldReads U256 d fun d => reads U256 d.payload
  readsFields := by
    refine ⟨_, fun _ => rfl, ?_⟩
    iterate 8 refine .field fun _ => ?_
    exact .last fun _ => .finish _

instance : TracedStruct EIP2930Transaction where
  fields d := fieldReads UInt64 d fun d => fieldReads UInt64 d fun d => fieldReads UInt64 d fun d =>
    fieldReads UInt64 d fun d => fieldReads TxKind d fun d => fieldReads U256 d fun d =>
    fieldReads Bytes d fun d => fieldReads AccessList d fun d => fieldReads Bool d fun d =>
    fieldReads U256 d fun d => reads U256 d.payload
  readsFields := by
    refine ⟨_, fun _ => rfl, ?_⟩
    iterate 10 refine .field fun _ => ?_
    exact .last fun _ => .finish _

instance : TracedStruct EIP1559Transaction where
  fields d := fieldReads UInt64 d fun d => fieldReads UInt64 d fun d => fieldReads UInt64 d fun d =>
    fieldReads UInt64 d fun d => fieldReads UInt64 d fun d => fieldReads TxKind d fun d =>
    fieldReads U256 d fun d => fieldReads Bytes d fun d => fieldReads AccessList d fun d =>
    fieldReads Bool d fun d => fieldReads U256 d fun d => reads U256 d.payload
  readsFields := by
    refine ⟨_, fun _ => rfl, ?_⟩
    iterate 11 refine .field fun _ => ?_
    exact .last fun _ => .finish _

instance : TracedStruct EIP4844Transaction where
  fields d := fieldReads UInt64 d fun d => fieldReads UInt64 d fun d => fieldReads UInt64 d fun d =>
    fieldReads UInt64 d fun d => fieldReads UInt64 d fun d => fieldReads Address d fun d =>
    fieldReads U256 d fun d => fieldReads Bytes d fun d => fieldReads AccessList d fun d =>
    fieldReads U256 d fun d => fieldReads (List H256) d fun d => fieldReads Bool d fun d =>
    fieldReads U256 d fun d => reads U256 d.payload
  readsFields := by
    refine ⟨_, fun _ => rfl, ?_⟩
    iterate 13 refine .field fun _ => ?_
    exact .last fun _ => .finish _

/-! ## Items -/

/-- The length that the header at the front declares for the payload. -/
def payloadLength (first : UInt8) (data : ByteString) : Nat :=
  if first ≤ 0x7F then 1
  else if first ≤ 0xB7 then (first - 0x80).toNat
  else if first ≤ 0xBF then beNat (data.take (first - 0xB7).toNat)
  else if first ≤ 0xF7 then (first - 0xC0).toNat
  else beNat (data.take (first - 0xF7).toNat)

def itemLength : ByteString → Nat
  | [] => 0
  | first :: data => headerLength first + payloadLength first data

structure OneItem (b rest : ByteString) : Prop where
  ne_nil : b ≠ []
  fits : itemLength b ≤ b.length
  rest_eq : rest = b.drop (itemLength b)

/-- Bytes that consist of so many items. -/
inductive Items : ByteString → Nat → Prop
  | nil : Items [] 0
  | cons {b rest : ByteString} {n : Nat} (first : OneItem b rest) (others : Items rest n) : Items b (n + 1)

theorem shortPrefixed_drop
    (h : shortPrefixed base first b = .ok (item, rest)) :
    1 + (first - base).toNat ≤ b.length ∧ rest = b.drop (1 + (first - base).toNat) := by
  rw [shortPrefixed] at h
  split at h
  · cases h
  · cases h
    rw [Nat.add_comm 1]
    exact ⟨by omega, rfl⟩

theorem longPrefixed_drop (h8 : (first - base).toNat ≤ 8)
    (h : longPrefixed base first (first :: data) = .ok (item, rest)) :
    (first - base).toNat + 1 + beNat (data.take (first - base).toNat) ≤ (first :: data).length ∧
      rest = (first :: data).drop ((first - base).toNat + 1 + beNat (data.take (first - base).toNat)) := by
  rw [longPrefixed_eq rfl h8, lengthBytes, take_succ_cons, drop_one] at h
  split_ifs at h with h₁ h₂ h₃ h₄
  any_goals cases h
  rw [Nat.add_right_comm]
  exact ⟨Nat.le_of_not_lt h₄, rfl⟩

theorem oneItem_of_split (h : getItemWithPrefix b = .ok (item, rest)) : OneItem b rest := by
  cases b with
  | nil => cases h
  | cons first data =>
    suffices hdrop : itemLength (first :: data) ≤ (first :: data).length ∧
        rest = (first :: data).drop (itemLength (first :: data)) from
      ⟨cons_ne_nil _ _, hdrop.1, hdrop.2⟩
    unfold getItemWithPrefix at h
    rw [itemLength, headerLength, payloadLength]
    dsimp only at h
    split_ifs at h ⊢ with h7 hb7 hbf hf7
    · cases h
      exact ⟨by simp, rfl⟩
    · exact shortPrefixed_drop h
    · exact longPrefixed_drop (sub_b7_le hb7 hbf) h
    · exact shortPrefixed_drop h
    · exact longPrefixed_drop (sub_f7_le hf7) h

/-! ## One transaction -/

namespace Transaction

variable {txType : UInt8} {txs : List Transaction}

/-- The decoder comes back, and what it takes is the first item. -/
def ConsumesOneItem (b : ByteString) : Prop :=
  (decodeUnfinished b : Decode (Transaction × ByteString)).Returns ∧
    ∀ (tx : Transaction) rest, decodeUnfinished b = .ok (tx, rest) → OneItem b rest

def payloadReads (txType : UInt8) (txEncoding : ByteString) : List Read :=
  if txType = 0x0 then reads LegacyTransaction txEncoding
  else if txType = 0x1 then reads EIP2930Transaction txEncoding
  else if txType = 0x2 then reads EIP1559Transaction txEncoding
  else if txType = 0x3 then reads EIP4844Transaction txEncoding
  else []

/-- What follows the header of the string has a type and then something to decode, and if that is a transaction, it is
as long as the header says. -/
def WrappedRight (declared : Nat) : ByteString → Prop
  | [] => False
  | txType :: txEncoding => Fine (payloadReads txType txEncoding) ∧
      ((∃ decoded, decodePayload (txType :: txEncoding) = .ok decoded) → declared = 1 + itemLength txEncoding)

/-- The bytes from which a transaction is decoded as one item. -/
def Delimited : ByteString → Prop
  | [] => False
  | first :: data =>
    if 0xb8 ≤ first ∧ first ≤ 0xbf
    then WrappedRight (payloadLength first data) (data.drop (first - 0xb7).toNat)
    else Fine (reads LegacyTransaction (first :: data))

theorem returns_decodePayload (txType : UInt8) (txEncoding : ByteString) :
    (decodePayload (txType :: txEncoding)).Returns ↔ Fine (payloadReads txType txEncoding) := by
  rw [decodePayload, payloadReads]
  split_ifs
  · rw [returns_map, Traced.returns_iff]
  · rw [returns_map, Traced.returns_iff]
  · rw [returns_map, Traced.returns_iff]
  · rw [returns_map, Traced.returns_iff]
  · exact iff_of_true (trivial) fine_nil

theorem decodePayload_splits {tx : Transaction}
    (h : decodePayload (txType :: txEncoding) = .ok (tx, rest)) :
    ∃ item, getItemWithPrefix txEncoding = .ok (item, rest) := by
  rw [decodePayload] at h
  split_ifs at h
  · obtain ⟨⟨t, rem⟩, ht, heq⟩ := map_eq_ok.mp h
    cases heq
    exact TracedStruct.splits ht
  · obtain ⟨⟨t, rem⟩, ht, heq⟩ := map_eq_ok.mp h
    cases heq
    exact TracedStruct.splits ht
  · obtain ⟨⟨t, rem⟩, ht, heq⟩ := map_eq_ok.mp h
    cases heq
    exact TracedStruct.splits ht
  · obtain ⟨⟨t, rem⟩, ht, heq⟩ := map_eq_ok.mp h
    cases heq
    exact TracedStruct.splits ht
  · cases h

theorem consumesOneItem_legacy (h : isEncodedAsBytes b = .ok false) :
    ConsumesOneItem b ↔ Fine (reads LegacyTransaction b) := by
  rw [ConsumesOneItem, decode_legacy h, returns_map, Traced.returns_iff]
  refine and_iff_left fun tx rest hok => ?_
  obtain ⟨⟨t, rem⟩, ht, heq⟩ := map_eq_ok.mp hok
  cases heq
  obtain ⟨item, hitem⟩ := TracedStruct.splits ht
  exact oneItem_of_split hitem

/-- The transaction in a string ends where the string does if the length is one more than that of its list. -/
theorem oneItem_wrapped_iff (hlo : ¬ first ≤ 0xB7)
    (hhi : first ≤ 0xBF) (hdata : data.drop (first - 0xb7).toNat = txType :: txEncoding)
    (hitem : OneItem txEncoding rest) :
    OneItem (first :: data) rest ↔ payloadLength first data = 1 + itemLength txEncoding := by
  have h7 : ¬ first ≤ 0x7F := fun h => hlo (UInt8.le_trans h (by decide))
  have hheader : headerLength first = (first - 0xb7).toNat + 1 := by
    rw [headerLength, if_neg h7, if_neg hlo, if_pos hhi]
  have hlength : data.length = (first - 0xb7).toNat + (txEncoding.length + 1) := by
    have hdrop := congrArg List.length hdata
    rw [length_drop, length_cons] at hdrop
    omega
  have hsplit : ∀ n, (first :: data).drop ((first - 0xb7).toNat + 1 + (1 + n)) = txEncoding.drop n := by
    intro n
    rw [Nat.add_right_comm, drop_succ_cons, ← drop_drop, hdata, Nat.add_comm 1, drop_succ_cons]
  have hrest := congrArg List.length hitem.rest_eq
  have hfits := hitem.fits
  rw [length_drop] at hrest
  constructor
  · intro h
    have hrest' := congrArg List.length h.rest_eq
    have hfits' := h.fits
    rw [length_drop] at hrest'
    rw [itemLength, length_cons] at hrest' hfits'
    omega
  · intro h
    refine ⟨cons_ne_nil _ _, ?_, ?_⟩
    · rw [itemLength, h, length_cons]
      omega
    · rw [itemLength, hheader, h, hsplit]
      exact hitem.rest_eq

theorem getRlpBytesItemPayload_eq (data : ByteString) (hlo : ¬ first ≤ 0xB7) :
    getRlpBytesItemPayload (first :: data) =
      if (first - 0xb7).toNat ≤ data.length then .ok (data.drop (first - 0xb7).toNat)
      else Outcome.panic "range out of bounds for slice" := by
  have hge : (0xb8 : UInt8) ≤ first := by
    rw [UInt8.le_iff_toNat_le] at hlo ⊢
    change 184 ≤ _
    change ¬ _ ≤ 183 at hlo
    omega
  have hoffset : (first - 0xb8 + 1 : UInt8) = first - 0xb7 := by grind
  rw [getRlpBytesItemPayload, if_neg (UInt8.not_lt.mpr hge), hoffset, Rust.sliceFrom, drop_succ_cons]
  simp

theorem consumesOneItem_wrapped (hlo : ¬ first ≤ 0xB7) (hhi : first ≤ 0xBF)
    (h : isEncodedAsBytes (first :: data) = .ok true) :
    ConsumesOneItem (first :: data) ↔ WrappedRight (payloadLength first data) (data.drop (first - 0xb7).toNat) := by
  have hpayload := getRlpBytesItemPayload_eq data hlo
  split_ifs at hpayload with hk
  · rw [ConsumesOneItem, decode_wrapped h hpayload]
    cases hdata : data.drop (first - 0xb7).toNat with
    | nil => exact iff_of_false (fun hconsumes => hconsumes.1) id
    | cons txType txEncoding =>
      rw [returns_decodePayload]
      refine and_congr_right fun _ => ⟨?_, ?_⟩
      · rintro hone ⟨⟨tx, rest⟩, hok⟩
        obtain ⟨item, hitem⟩ := decodePayload_splits hok
        exact (oneItem_wrapped_iff hlo hhi hdata (oneItem_of_split hitem)).mp (hone tx rest hok)
      · intro hdeclared tx rest hok
        obtain ⟨item, hitem⟩ := decodePayload_splits hok
        exact (oneItem_wrapped_iff hlo hhi hdata (oneItem_of_split hitem)).mpr (hdeclared ⟨_, hok⟩)
  · -- the header is cut off
    have hdecode : (decodeUnfinished (first :: data) : Decode (Transaction × ByteString)) =
        Outcome.panic "range out of bounds for slice" := by
      change (isEncodedAsBytes (first :: data) >>= _) = _
      rw [h]
      rw [hpayload]
      rfl
    rw [ConsumesOneItem, hdecode, drop_eq_nil_of_le (by omega)]
    exact iff_of_false (fun hconsumes => hconsumes.1) id

theorem consumesOneItem_iff (b : ByteString) : ConsumesOneItem b ↔ Delimited b := by
  cases b with
  | nil => exact iff_of_false (fun hconsumes => hconsumes.1) id
  | cons first data =>
    rw [Delimited]
    have hbytes := isEncodedAsBytes_cons first data
    split_ifs with hwrapped
    · obtain ⟨hlo, hhi⟩ := hwrapped
      rw [UInt8.le_iff_toNat_le] at hlo
      have hlo' : ¬ first ≤ 0xB7 := by
        rw [UInt8.le_iff_toNat_le]
        change ¬ _ ≤ 183
        change 184 ≤ _ at hlo
        omega
      refine consumesOneItem_wrapped hlo' hhi ?_
      rw [hbytes, decide_eq_true ⟨hlo, UInt8.le_iff_toNat_le.mp hhi⟩]
    · refine consumesOneItem_legacy ?_
      rw [hbytes]
      exact congrArg Except.ok (decide_eq_false hwrapped)

/-! ## A list of transactions -/

/-- The places in the payload of a list where a transaction is decoded. -/
inductive ReadsAt (payload : ByteString) : ByteString → Prop
  | start : ReadsAt payload payload
  | next {tail rest : ByteString} {tx : Transaction} (h : ReadsAt payload tail)
    (decoded : decodeUnfinished tail = .ok (tx, rest)) : ReadsAt payload rest

theorem items_decodeElements
    (hall : ∀ tail, ReadsAt payload tail → tail ≠ [] → ConsumesOneItem tail) (hdata : ReadsAt payload data)
    (h : decodeElements fuel data = .ok txs) : Items data txs.length := by
  induction fuel generalizing data txs with
  | zero =>
    cases data with
    | nil =>
      cases h
      exact .nil
    | cons b data => cases h
  | succ fuel ih =>
    cases data with
    | nil =>
      cases h
      exact .nil
    | cons b data =>
      obtain ⟨⟨tx, rest⟩, htx, h⟩ := bind_ok_inv h
      obtain ⟨others, hothers, h⟩ := bind_ok_inv h
      cases h
      have hone := (hall _ hdata (cons_ne_nil _ _)).2 tx rest htx
      exact .cons hone (ih (hdata.next htx) hothers)

theorem items_decode (h : decodeUnfinished b = .ok (txs, rest)) :
    ∃ payload, decodeRlpItem b = .ok (true, payload, rest) ∧
      ((∀ tail, ReadsAt payload tail → tail ≠ [] → ConsumesOneItem tail) → Items payload txs.length) := by
  cases b with
  | nil => cases h
  | cons first data =>
    simp only [decodeUnfinished] at h
    split_ifs at h with hempty
    · cases h
      subst hempty
      refine ⟨[], ?_, fun _ => .nil⟩
      simp [decodeRlpItem, shortItem, RLP_EMPTY_LIST]
    · obtain ⟨⟨isList, payload, inputRest⟩, hitem, h⟩ := bind_ok_inv h
      cases isList with
      | false => cases h
      | true =>
        obtain ⟨decoded, hdecoded, h⟩ := bind_ok_inv h
        cases h
        exact ⟨payload, hitem, fun hall => items_decodeElements hall .start hdecoded⟩

/-- A transaction is decoded as one item exactly from the bytes that delimit it, and a list of transactions has as many
transactions as items if each is decoded so. -/
theorem transaction_consumes_one_item_iff (b : ByteString) :
    (ConsumesOneItem b ↔ Delimited b) ∧
    ∀ (rest : ByteString) (txs : List Transaction), decodeUnfinished b = .ok (txs, rest) →
      ∃ payload, decodeRlpItem b = .ok (true, payload, rest) ∧
        ((∀ tail, ReadsAt payload tail → tail ≠ [] → ConsumesOneItem tail) → Items payload txs.length) :=
  ⟨consumesOneItem_iff b, fun _ _ => items_decode⟩

def oneByteString : ByteString := 0xb8 :: 0x01 ::
  (eip1559Transaction ⟨1, 0, 0, 0, 0, .create, 0, ⟨[]⟩, [], false, 0, 0⟩).encodeCanonicalToVec

theorem transaction_consumes_more :
    (decodeUnfinished [] : Decode (Transaction × ByteString)) =
      Outcome.panic "called `Option::unwrap()` on a `None` value" ∧
    (decodeUnfinished [0xb9, 0x01] : Decode (Transaction × ByteString)) =
      Outcome.panic "range out of bounds for slice" ∧
    itemLength oneByteString = 3 ∧ oneByteString.length = 16 ∧
    (decodeUnfinished oneByteString : Decode (Transaction × ByteString)) =
      .ok (eip1559Transaction ⟨1, 0, 0, 0, 0, .create, 0, ⟨[]⟩, [], false, 0, 0⟩, []) ∧
    (decode (0xd0 :: oneByteString) : Decode (List Transaction)) =
      .ok [eip1559Transaction ⟨1, 0, 0, 0, 0, .create, 0, ⟨[]⟩, [], false, 0, 0⟩] ∧
    ¬ ConsumesOneItem oneByteString := by
  have hfacts : itemLength oneByteString = 3 ∧ oneByteString.length = 16 ∧
      (decodeUnfinished oneByteString : Decode (Transaction × ByteString)) =
        .ok (eip1559Transaction ⟨1, 0, 0, 0, 0, .create, 0, ⟨[]⟩, [], false, 0, 0⟩, []) := by
    decide +kernel
  refine ⟨rfl, by decide +kernel, hfacts.1, hfacts.2.1, hfacts.2.2, by decide +kernel, fun hconsumes => ?_⟩
  have hrest := congrArg List.length (hconsumes.2 _ _ hfacts.2.2).rest_eq
  rw [List.length_drop, hfacts.1, hfacts.2.1] at hrest
  exact absurd hrest (by decide)

def legacyItem : ByteString := 0xc9 :: replicate 9 0x80

theorem transaction_consumes_one_item_iff_list :
    decodeUnfinished (0xd4 :: (legacyItem ++ legacyItem)) =
      .ok (replicate 2 (legacyTransaction ⟨0, 0, 0, .create, 0, ⟨[]⟩, 0, 0, 0⟩), []) ∧
    (∀ tail, ReadsAt (legacyItem ++ legacyItem) tail → tail ≠ [] → ConsumesOneItem tail) ∧
    Items (legacyItem ++ legacyItem) 2 := by
  have hlist : decodeUnfinished (0xd4 :: (legacyItem ++ legacyItem)) =
      .ok (replicate 2 (legacyTransaction ⟨0, 0, 0, .create, 0, ⟨[]⟩, 0, 0, 0⟩), []) := by decide +kernel
  have hfirst : decodeUnfinished (legacyItem ++ legacyItem) =
      .ok (legacyTransaction ⟨0, 0, 0, .create, 0, ⟨[]⟩, 0, 0, 0⟩, legacyItem) := by decide +kernel
  have hsecond : decodeUnfinished legacyItem =
      .ok (legacyTransaction ⟨0, 0, 0, .create, 0, ⟨[]⟩, 0, 0, 0⟩, []) := by decide +kernel
  have hconsumes {tail rest : ByteString} {tx : Transaction} (h : decodeUnfinished tail = .ok (tx, rest))
      (hitem : OneItem tail rest) : ConsumesOneItem tail := by
    refine ⟨h ▸ trivial, fun tx' rest' h' => ?_⟩
    cases h.symm.trans h'
    exact hitem
  have hall : ∀ tail, ReadsAt (legacyItem ++ legacyItem) tail → tail ≠ [] → ConsumesOneItem tail := by
    intro tail hreads
    suffices hplaces : tail = legacyItem ++ legacyItem ∨ tail = legacyItem ∨ tail = [] by
      rcases hplaces with rfl | rfl | rfl
      · exact fun _ => hconsumes hfirst ⟨by decide, by decide, by decide⟩
      · exact fun _ => hconsumes hsecond ⟨by decide, by decide, by decide⟩
      · exact fun hne => absurd rfl hne
    induction hreads with
    | start => exact .inl rfl
    | next _ decoded ih =>
      rcases ih with rfl | rfl | rfl
      · cases hfirst.symm.trans decoded
        exact .inr (.inl rfl)
      · cases hsecond.symm.trans decoded
        exact .inr (.inr rfl)
      · cases decoded
  obtain ⟨payload, hitem, hitems⟩ :=
    (transaction_consumes_one_item_iff (0xd4 :: (legacyItem ++ legacyItem))).2 _ _ hlist
  have hpayload : decodeRlpItem (0xd4 :: (legacyItem ++ legacyItem)) = .ok (true, legacyItem ++ legacyItem, []) := by
    decide +kernel
  cases hpayload.symm.trans hitem
  exact ⟨hlist, hall, hitems hall⟩

end Transaction
end EthereumRust.Core
