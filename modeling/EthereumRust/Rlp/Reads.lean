import EthereumRust.Rlp.Lawful

/-! # Where a decoder panics

Splitting an item off panics when its length does not fit a machine word together with
its header, the padding of an integer when the string is longer than the integer. A
decoder comes back unless one of its reads is bad. -/

namespace EthereumRust.Rlp
open List Outcome

/-- The length of the item at the front does not fit a word together with its header. -/
def Oversized : ByteString → Prop
  | [] => False
  | first :: data => (first = 0xBF ∨ first = 0xFF) ∧ 8 ≤ data.length ∧ 2 ^ 64 ≤ beNat (data.take 8) + 9

/-! ## Splitting an item -/

theorem beNat_replicate_append (k : Nat) (b : ByteString) : beNat (List.replicate k 0 ++ b) = beNat b := by
  induction k with
  | zero => rfl
  | succ k ih => rw [replicate_succ, cons_append, beNat_cons, ih]; simp

theorem returns_staticLeftPad :
    (staticLeftPad n data).Returns ↔ ¬ (n < data.length ∧ data.head? ≠ some 0) := by
  cases data with
  | nil => simp [staticLeftPad]
  | cons x data =>
    simp only [staticLeftPad, List.head?_cons, Option.some.injEq, ne_eq]
    split
    · rename_i hx
      simp [hx, Decode.fail]
    · rename_i hx
      split
      · rename_i hn
        simp only [returns_ok, true_iff]
        omega
      · rename_i hn
        simp only [not_returns_panic, false_iff, not_not]
        exact ⟨by omega, hx⟩

theorem staticLeftPad_fits (hn : data.length ≤ n) (h0 : data.head? ≠ some 0) :
    ∃ b, staticLeftPad n data = .ok b ∧ beNat b = beNat data := by
  cases data with
  | nil => exact ⟨_, rfl, by simpa using beNat_replicate_append n []⟩
  | cons x data =>
    have hx : x ≠ 0 := by simpa using h0
    exact ⟨List.replicate (n - (x :: data).length) 0 ++ x :: data,
      by simp only [staticLeftPad, if_neg hx, if_pos hn], beNat_replicate_append _ _⟩

theorem staticLeftPad_zero (h0 : data.head? = some 0) :
    staticLeftPad n data = Decode.fail .malformedData := by
  cases data with
  | nil => cases h0
  | cons x data =>
    have hx : x = 0 := by simpa using h0
    simp only [staticLeftPad, if_pos hx]

/-- A byte string that starts with zero is less than one that is a byte shorter can be. -/
theorem beNat_lt_of_head {b : ByteString} (h : b.head? = some 0) (hb : b.length ≤ w + 1) :
    beNat b < 256 ^ w := by
  cases b with
  | nil => cases h
  | cons x b =>
    obtain rfl : x = 0 := by simpa using h
    rw [beNat_cons]
    have := (beNat_lt b).trans_le (Nat.pow_le_pow_right (by norm_num) (Nat.le_of_succ_le_succ hb))
    simpa using this

/-- The length bytes behind a first byte. -/
def lengthBytes (k : Nat) (data : ByteString) : ByteString := (data.take (k + 1)).drop 1

theorem longPrefixed_eq
    (hk : (firstByte - base).toNat = k) (h8 : k ≤ 8) :
    longPrefixed base firstByte data =
      if data.length < k + 1 then Decode.fail .invalidLength
      else if (lengthBytes k data).head? = some 0 then Decode.fail .malformedData
      else if 2 ^ 64 ≤ k + beNat (lengthBytes k data) + 1 then Outcome.panic "attempt to add with overflow"
      else if data.length < k + beNat (lengthBytes k data) + 1 then Decode.fail .invalidLength
      else .ok (data.take (k + beNat (lengthBytes k data) + 1), data.drop (k + beNat (lengthBytes k data) + 1)) := by
  have hlen : (lengthBytes k data).length ≤ 8 := by
    rw [lengthBytes, length_drop, length_take]
    omega
  rw [longPrefixed, hk]
  change (if _ then _ else staticLeftPad 8 (lengthBytes k data) >>= _) = _
  split
  · rfl
  · split
    · rename_i h0
      rw [staticLeftPad_zero h0]
      rfl
    · rename_i h0
      obtain ⟨b, hb, hn⟩ := staticLeftPad_fits hlen h0
      rw [hb, bind_ok, hn]
      unfold Rust.add Rust.wordSize
      dsimp only
      by_cases hbig : 2 ^ 64 ≤ k + beNat (lengthBytes k data) + 1
      · rw [if_pos hbig]
        by_cases h : k + beNat (lengthBytes k data) < 2 ^ 64
        · rw [if_pos h, bind_ok, if_neg (by omega)]
          rfl
        · rw [if_neg h]
          rfl
      · rw [if_pos (by omega), bind_ok, if_pos (by omega), bind_ok, if_neg hbig]
        rfl

/-- The number of bytes in front of the payload. -/
def headerLength (first : UInt8) : Nat :=
  if first ≤ 0x7F then 0
  else if first ≤ 0xB7 then 1
  else if first ≤ 0xBF then (first - 0xB7).toNat + 1
  else if first ≤ 0xF7 then 1
  else (first - 0xF7).toNat + 1

theorem sub_base {first b : UInt8} (hlo : ¬ first ≤ b) (hhi : first.toNat ≤ b.toNat + 8) :
    (first - b).toNat ≤ 8 ∧ ((first - b).toNat = 8 ↔ first.toNat = b.toNat + 8) := by
  rw [UInt8.le_iff_toNat_le] at hlo
  rw [UInt8.toNat_sub_of_le _ _ (le_of_toNat_le (by omega))]
  omega

theorem sub_b7_le {first : UInt8} (hlo : ¬ first ≤ 0xB7) (hhi : first ≤ 0xBF) : (first - 0xB7).toNat ≤ 8 :=
  (sub_base hlo (UInt8.le_iff_toNat_le.mp hhi)).1

theorem sub_f7_le {first : UInt8} (hlo : ¬ first ≤ 0xF7) : (first - 0xF7).toNat ≤ 8 :=
  (sub_base hlo (Nat.le_of_lt_succ first.toNat_lt)).1

/-- The first byte says by which of two ways an item is split off. A byte that stands for itself is an item that ends
where its header would. -/
theorem getItemWithPrefix_cases (first : UInt8) : ∃ base,
    (headerLength first ≤ 1 ∧ ¬ (first = 0xBF ∨ first = 0xFF) ∧
      ∀ data, getItemWithPrefix (first :: data) = shortPrefixed base first (first :: data)) ∨
    (headerLength first = (first - base).toNat + 1 ∧ (first - base).toNat ≤ 8 ∧
      ((first - base).toNat = 8 ↔ first = 0xBF ∨ first = 0xFF) ∧
      ∀ data, getItemWithPrefix (first :: data) = longPrefixed base first (first :: data)) := by
  unfold headerLength getItemWithPrefix
  dsimp only
  simp only [← UInt8.toNat_inj, UInt8.le_iff_toNat_le, UInt8.reduceToNat]
  by_cases h7 : first.toNat ≤ 0x7F
  · refine ⟨first, .inl ⟨by simp [h7], by omega, fun data => ?_⟩⟩
    simp [h7, shortPrefixed]
  by_cases hb7 : first.toNat ≤ 0xB7
  · exact ⟨0x80, .inl ⟨by simp [h7, hb7], by omega, fun data => by simp [h7, hb7]⟩⟩
  by_cases hbf : first.toNat ≤ 0xBF
  · obtain ⟨hle, heq⟩ := sub_base (b := 0xB7) (mt UInt8.le_iff_toNat_le.mp hb7) hbf
    refine ⟨0xB7, .inr ⟨by simp [h7, hb7, hbf], hle, ?_, fun data => by simp [h7, hb7, hbf]⟩⟩
    simp only [heq, UInt8.reduceToNat]
    omega
  by_cases hf7 : first.toNat ≤ 0xF7
  · exact ⟨RLP_EMPTY_LIST, .inl ⟨by simp [h7, hb7, hbf, hf7], by omega, fun data => by simp [h7, hb7, hbf, hf7]⟩⟩
  · have hlt := first.toNat_lt
    obtain ⟨hle, heq⟩ := sub_base (b := 0xF7) (mt UInt8.le_iff_toNat_le.mp hf7) (Nat.le_of_lt_succ hlt)
    refine ⟨0xF7, .inr ⟨by simp [h7, hb7, hbf, hf7], hle, ?_, fun data => by simp [h7, hb7, hbf, hf7]⟩⟩
    simp only [heq, UInt8.reduceToNat]
    omega

theorem shortItem_eq (isList : Bool) (base first : UInt8) (data : ByteString) :
    shortItem isList base first data =
      (fun (item, rest) => (isList, item.drop 1, rest)) <$> shortPrefixed base first data := by
  simp only [shortItem, shortPrefixed]
  split <;> rfl

theorem longItem_eq (isList : Bool) (base first : UInt8) (data : ByteString) :
    longItem isList base first data =
      (fun (item, rest) => (isList, item.drop ((first - base).toNat + 1), rest)) <$>
        longPrefixed base first data := by
  rw [longItem, longPrefixed]
  dsimp only
  split
  · rfl
  · rw [map_bind]
    refine bind_congr fun lengthBytes => ?_
    rw [map_bind]
    refine bind_congr fun total => ?_
    rw [map_bind]
    refine bind_congr fun total => ?_
    split <;> rfl

/-- The payload of an item is what follows its header, and the first byte tells a list. -/
theorem decodeRlpItem_eq (first : UInt8) (data : ByteString) :
    decodeRlpItem (first :: data) =
      (fun (item, rest) => (!decide (first ≤ 0xBF), item.drop (headerLength first), rest)) <$>
        getItemWithPrefix (first :: data) := by
  unfold decodeRlpItem getItemWithPrefix headerLength
  dsimp only
  by_cases h7 : first ≤ 0x7F
  · have hbf : first ≤ 0xBF := UInt8.le_trans h7 (by decide)
    simp only [if_pos h7, hbf]
    rfl
  by_cases hb7 : first ≤ 0xB7
  · have hbf : first ≤ 0xBF := UInt8.le_trans hb7 (by decide)
    simp only [if_neg h7, if_pos hb7, hbf, shortItem_eq]
    rfl
  by_cases hbf : first ≤ 0xBF
  · simp only [if_neg h7, if_neg hb7, hbf, longItem_eq]
    rfl
  by_cases hf7 : first ≤ 0xF7
  · simp only [if_neg h7, if_neg hb7, if_pos hf7, hbf, shortItem_eq]
    rfl
  · simp only [if_neg h7, if_neg hb7, if_neg hf7, hbf, longItem_eq]
    rfl

theorem shortPrefixed_ok
    (h : shortPrefixed base first data = .ok (item, rest)) : data = item ++ rest ∧ 1 ≤ item.length := by
  simp only [shortPrefixed] at h
  split at h
  · cases h
  · cases h
    exact ⟨(take_append_drop _ _).symm, by rw [length_take]; omega⟩

theorem longPrefixed_ok
    (hk : (first - base).toNat = k) (h8 : k ≤ 8) (h : longPrefixed base first data = .ok (item, rest)) :
    data = item ++ rest ∧ k + 1 ≤ item.length := by
  rw [longPrefixed_eq hk h8] at h
  split at h
  · cases h
  · split at h
    · cases h
    · split at h
      · cases h
      · split at h
        · cases h
        · cases h
          exact ⟨(take_append_drop _ _).symm, by rw [length_take]; omega⟩

theorem getItemWithPrefix_ok {first : UInt8} {item rest : ByteString}
    (h : getItemWithPrefix (first :: data) = .ok (item, rest)) :
    first :: data = item ++ rest ∧ 1 ≤ item.length ∧ headerLength first ≤ item.length := by
  obtain ⟨base, ⟨hlength, -, hsplit⟩ | ⟨hlength, h8, -, hsplit⟩⟩ := getItemWithPrefix_cases first
  · obtain ⟨hdata, hlen⟩ := shortPrefixed_ok (hsplit data ▸ h)
    exact ⟨hdata, hlen, hlength.trans hlen⟩
  · obtain ⟨hdata, hlen⟩ := longPrefixed_ok rfl h8 (hsplit data ▸ h)
    exact ⟨hdata, by omega, hlength ▸ hlen⟩

theorem shortPrefixed_append (rest : ByteString)
    (h : shortPrefixed base first item = .ok (item, [])) :
    shortPrefixed base first (item ++ rest) = .ok (item, rest) := by
  simp only [shortPrefixed] at h ⊢
  split at h
  · cases h
  · rename_i hlength
    obtain ⟨-, hdrop⟩ := Prod.mk.inj (Except.ok.inj h)
    have hle := drop_eq_nil_iff.mp hdrop
    have heq : (first - base).toNat + 1 = item.length := by omega
    rw [heq, if_neg (by simp), take_left, drop_left]

theorem longPrefixed_append (hk : (first - base).toNat = k)
    (h8 : k ≤ 8) (rest : ByteString) (h : longPrefixed base first item = .ok (item, [])) :
    longPrefixed base first (item ++ rest) = .ok (item, rest) := by
  rw [longPrefixed_eq hk h8] at h ⊢
  split_ifs at h with hheader hzero hover hlength
  any_goals cases h
  have hbytes : lengthBytes k (item ++ rest) = lengthBytes k item := by
    rw [lengthBytes, lengthBytes, take_append_of_le_length (by omega)]
  obtain ⟨-, hdrop⟩ := Prod.mk.inj (Except.ok.inj h)
  have hle := drop_eq_nil_iff.mp hdrop
  have heq : k + beNat (lengthBytes k item) + 1 = item.length := by omega
  have hlonger : item.length ≤ (item ++ rest).length := by simp
  rw [hbytes, if_neg (by omega), if_neg hzero, if_neg hover, if_neg (by omega), heq, take_left, drop_left]

theorem getItemWithPrefix_append (rest : ByteString)
    (h : getItemWithPrefix item = .ok (item, [])) : getItemWithPrefix (item ++ rest) = .ok (item, rest) := by
  cases item with
  | nil => cases h
  | cons first data =>
    obtain ⟨base, ⟨-, -, hsplit⟩ | ⟨-, h8, -, hsplit⟩⟩ := getItemWithPrefix_cases first
    · exact (hsplit _).trans (shortPrefixed_append rest (hsplit data ▸ h))
    · exact (hsplit _).trans (longPrefixed_append rfl h8 rest (hsplit data ▸ h))

theorem returns_shortPrefixed (base first : UInt8) (data : ByteString) :
    (shortPrefixed base first data).Returns := by
  simp only [shortPrefixed]
  split
  · trivial
  · trivial

theorem returns_longPrefixed {base first : UInt8} {k : Nat}
    (hk : (first - base).toNat = k) (h8 : k ≤ 8) :
    (longPrefixed base first (first :: data)).Returns ↔
      ¬ (k = 8 ∧ 8 ≤ data.length ∧ 2 ^ 64 ≤ beNat (data.take 8) + 9) := by
  have hbytes : lengthBytes k (first :: data) = data.take k := by simp [lengthBytes]
  have hlt : beNat (data.take k) < 256 ^ k := (beNat_lt _).trans_le
    (Nat.pow_le_pow_right (by norm_num) (length_take_le _ _))
  rw [longPrefixed_eq hk h8, hbytes, length_cons]
  split
  · rename_i hlen
    simp only [Decode.fail, returns_error, true_iff]
    omega
  · split
    · -- a length that starts with zero is too small to overflow
      rename_i h0
      simp only [Decode.fail, returns_error, true_iff]
      rintro ⟨rfl, -, hbig⟩
      have := beNat_lt_of_head (w := 7) h0 (length_take_le _ _)
      omega
    · split
      · rename_i hbig
        simp only [not_returns_panic, false_iff, not_not]
        have hk8 : k = 8 := by
          by_contra hne
          have h7 : 256 ^ k ≤ 256 ^ 7 := Nat.pow_le_pow_right (by norm_num) (by omega)
          omega
        subst hk8
        exact ⟨rfl, by omega, by omega⟩
      · rename_i hbig
        have hnot : ¬ (k = 8 ∧ 8 ≤ data.length ∧ 2 ^ 64 ≤ beNat (data.take 8) + 9) := by
          rintro ⟨rfl, -, h⟩
          omega
        split
        · simp only [Decode.fail, returns_error, true_iff]
          exact hnot
        · simp only [returns_ok, true_iff]
          exact hnot

theorem returns_getItemWithPrefix (data : ByteString) :
    (getItemWithPrefix data).Returns ↔ ¬ Oversized data := by
  cases data with
  | nil => simp [getItemWithPrefix, Oversized, Decode.fail]
  | cons first data =>
    rw [Oversized]
    obtain ⟨base, ⟨-, hfirst, hsplit⟩ | ⟨-, h8, hfirst, hsplit⟩⟩ := getItemWithPrefix_cases first
    · rw [hsplit]
      exact iff_of_true (returns_shortPrefixed _ _ _) fun h => hfirst h.1
    · rw [hsplit, returns_longPrefixed rfl h8, hfirst]

theorem returns_decodeRlpItem (data : ByteString) : (decodeRlpItem data).Returns ↔ ¬ Oversized data := by
  rw [← returns_getItemWithPrefix]
  cases data with
  | nil => simp [decodeRlpItem, getItemWithPrefix, Decode.fail]
  | cons first data => rw [decodeRlpItem_eq, returns_map]

/-- The two functions split the same bytes at the same places. -/
theorem decodeRlpItem_ok
    (h : decodeRlpItem data = .ok (isList, payload, rest)) :
    ∃ header, data = header ++ payload ++ rest ∧ getItemWithPrefix data = .ok (header ++ payload, rest) := by
  cases data with
  | nil => cases h
  | cons first data =>
    rw [decodeRlpItem_eq, map_eq_ok] at h
    obtain ⟨⟨item, rest'⟩, hitem, heq⟩ := h
    obtain ⟨-, hpr⟩ := Prod.mk.inj heq
    cases hpr
    refine ⟨item.take (headerLength first), ?_, ?_⟩
    · rw [take_append_drop, ← (getItemWithPrefix_ok hitem).1]
    · rw [take_append_drop, hitem]

theorem decodeRlpItem_ok_iff (data : ByteString) :
    (∃ r, decodeRlpItem data = .ok r) ↔ ∃ r, getItemWithPrefix data = .ok r := by
  cases data with
  | nil => simp [decodeRlpItem, getItemWithPrefix, Decode.fail]
  | cons first data =>
    simp only [decodeRlpItem_eq, map_eq_ok]
    constructor
    · rintro ⟨_, a, ha, -⟩
      exact ⟨a, ha⟩
    · rintro ⟨a, ha⟩
      exact ⟨_, a, ha, rfl⟩

theorem decodeRlpItem_shorter
    (h : decodeRlpItem data = .ok (isList, payload, rest)) : rest.length < data.length := by
  cases data with
  | nil => cases h
  | cons first data =>
    obtain ⟨header, -, hitem⟩ := decodeRlpItem_ok h
    obtain ⟨hdata, hpos, -⟩ := getItemWithPrefix_ok hitem
    have := congrArg List.length hdata
    rw [length_append] at this
    omega

theorem getItemWithPrefix_shorter
    (h : getItemWithPrefix data = .ok (item, rest)) : rest.length < data.length := by
  obtain ⟨⟨isList, payload, rest'⟩, hitem⟩ := (decodeRlpItem_ok_iff data).mpr ⟨_, h⟩
  obtain ⟨_, -, h'⟩ := decodeRlpItem_ok hitem
  obtain ⟨-, rfl⟩ := Prod.mk.inj (Except.ok.inj (h'.symm.trans h))
  exact decodeRlpItem_shorter hitem

/-! ## Reads -/

/-- The item is a string that is longer than the integer and does not start with zero. -/
def Overlong (width : Nat) (data : ByteString) : Prop :=
  match decodeRlpItem data with
  | .ok (false, payload, _) => width < payload.length ∧ payload.head? ≠ some 0
  | _ => False

/-- A place where a decoder can panic: an item is split off, an integer of `width` bytes is taken,
or an item or a text is unwrapped. -/
inductive Read where
  | item (data : ByteString)
  | uint (width : Nat) (data : ByteString)
  | unwrapItem (data : ByteString)
  | unwrapText (data : ByteString)

def Read.Bad : Read → Prop
  | item data => Oversized data
  | uint width data => Oversized data ∨ Overlong width data
  | unwrapItem data => ¬ ∃ r, getItemWithPrefix data = .ok r
  | unwrapText data => ¬ ∃ s : String, decode data = .ok s

/-- None of the reads is bad. -/
def Fine (rs : List Read) : Prop := ∀ r ∈ rs, ¬ r.Bad

@[simp] theorem fine_nil : Fine [] := by simp [Fine]

@[simp] theorem fine_cons : Fine (r :: rs) ↔ ¬ r.Bad ∧ Fine rs := by
  simp [Fine]

@[simp] theorem fine_append : Fine (rs ++ rs') ↔ Fine rs ∧ Fine rs' := by
  simp [Fine, or_imp, forall_and]

/-- The reads that follow a step: none if it fails. -/
def thenReads {ε α : Type} (x : Outcome ε α) (f : α → List Read) : List Read :=
  match x with
  | .ok a => f a
  | .error _ => []

theorem fine_thenReads {ε α : Type} {x : Outcome ε α} {f : α → List Read} :
    Fine (thenReads x f) ↔ ∀ a, x = .ok a → Fine (f a) := by
  cases x <;> simp [thenReads]

theorem returns_follow {ε α β : Type} {x : Outcome ε α} {k : α → Outcome ε β} (rs : List Read)
    {f : α → List Read} (hx : x.Returns ↔ Fine rs) (hk : ∀ a, x = .ok a → ((k a).Returns ↔ Fine (f a))) :
    (x >>= k).Returns ↔ Fine (rs ++ thenReads x f) := by
  rw [returns_bind, fine_append, fine_thenReads, hx]
  exact and_congr_right fun _ => forall_congr' fun a => forall_congr' fun ha => hk a ha

/-- A decoder with its reads. Every value takes at least one byte. -/
class Traced (α : Type) [RLPDecode α] where
  reads : ByteString → List Read
  returns_iff : ∀ data, (decodeUnfinished data : Decode (α × ByteString)).Returns ↔ Fine (reads data)
  shorter : ∀ {data : ByteString} {v : α} {rest : ByteString},
    decodeUnfinished data = .ok (v, rest) → rest.length < data.length

export Traced (reads)

/-! ### Base types -/

theorem returns_decodeBytes (data : ByteString) : (decodeBytes data).Returns ↔ Fine [.item data] := by
  rw [decodeBytes, returns_bind, returns_decodeRlpItem, fine_cons]
  refine and_congr_right fun _ => ?_
  simp only [fine_nil, iff_true]
  rintro ⟨isList, payload, rest⟩ -
  cases isList
  · trivial
  · trivial

theorem decodeBytes_eq_ok :
    decodeBytes data = .ok (payload, rest) ↔ decodeRlpItem data = .ok (false, payload, rest) := by
  unfold decodeBytes
  rcases decodeRlpItem data with e | ⟨isList, payload', rest'⟩
  · simp
  · cases isList <;> simp [Decode.fail]

theorem decodeBytes_shorter (h : decodeBytes data = .ok (payload, rest)) :
    rest.length < data.length :=
  decodeRlpItem_shorter (decodeBytes_eq_ok.mp h)

theorem returns_decodeUint {α : Type} (width : Nat) (ofNat : Nat → α) (data : ByteString) :
    (decodeUint width ofNat data).Returns ↔ Fine [.uint width data] := by
  rw [decodeUint, returns_bind, returns_decodeBytes]
  simp only [fine_cons, fine_nil, and_true, Read.Bad, not_or, Overlong]
  refine and_congr_right fun _ => ?_
  constructor
  · intro h
    split
    · rename_i payload rest hitem
      have := h (payload, rest) (decodeBytes_eq_ok.mpr hitem)
      rw [returns_bind, returns_staticLeftPad] at this
      exact this.1
    · exact id
  · rintro h ⟨payload, rest⟩ hbytes
    rw [decodeBytes_eq_ok.mp hbytes] at h
    rw [returns_bind, returns_staticLeftPad]
    exact ⟨h, fun _ _ => trivial⟩

theorem decodeUint_shorter {α : Type} (width : Nat) (ofNat : Nat → α) {v : α}
    (h : decodeUint width ofNat data = .ok (v, rest)) : rest.length < data.length := by
  obtain ⟨⟨payload, rest'⟩, hbytes, h⟩ := bind_ok_inv h
  obtain ⟨b, -, h⟩ := bind_ok_inv h
  cases h
  exact decodeBytes_shorter hbytes

theorem returns_checked {α : Type} {f : ByteString × ByteString → Decode α} (data : ByteString)
    (hf : ∀ p, (f p).Returns) : (decodeBytes data >>= f).Returns ↔ Fine [.item data] := by
  rw [returns_bind, returns_decodeBytes]
  exact and_iff_left fun p _ => hf p

theorem returns_decodeFixed (n : Nat) (data : ByteString) : (decodeFixed n data).Returns ↔ Fine [.item data] := by
  refine returns_checked data fun ⟨payload, rest⟩ => ?_
  dsimp only
  split
  · trivial
  · trivial

theorem decodeFixed_shorter {v : FixedBytes n}
    (h : decodeFixed n data = .ok (v, rest)) : rest.length < data.length := by
  obtain ⟨⟨payload, rest'⟩, hbytes, h⟩ := bind_ok_inv h
  dsimp only at h
  split at h
  · cases h
    exact decodeBytes_shorter hbytes
  · cases h

instance : Traced Bool where
  reads _ := []
  returns_iff data := by
    simp only [fine_nil, iff_true]
    cases data with
    | nil => trivial
    | cons b rest =>
      simp only [decodeUnfinished]
      split
      · trivial
      · split
        · trivial
        · trivial
  shorter {data v rest} h := by
    cases data with
    | nil => cases h
    | cons b data =>
      simp only [decodeUnfinished] at h
      split at h
      · cases h
        simp
      · split at h
        · cases h
          simp
        · cases h

instance : Traced UInt8 where
  reads _ := []
  returns_iff data := by
    simp only [fine_nil, iff_true]
    cases data with
    | nil => trivial
    | cons b rest =>
      simp only [decodeUnfinished]
      split
      · trivial
      · split
        · trivial
        · split
          · split
            · trivial
            · trivial
          · trivial
  shorter {data v rest} h := by
    cases data with
    | nil => cases h
    | cons b data =>
      simp only [decodeUnfinished] at h
      split at h
      · cases h
        simp
      · split at h
        · cases h
          simp
        · split at h
          · split at h
            · cases h
              simp
            · cases h
          · cases h

instance : Traced UInt16 where
  reads data := [.uint 2 data]
  returns_iff := returns_decodeUint 2 UInt16.ofNat
  shorter := decodeUint_shorter 2 UInt16.ofNat

instance : Traced UInt32 where
  reads data := [.uint 4 data]
  returns_iff := returns_decodeUint 4 UInt32.ofNat
  shorter := decodeUint_shorter 4 UInt32.ofNat

instance : Traced UInt64 where
  reads data := [.uint 8 data]
  returns_iff := returns_decodeUint 8 UInt64.ofNat
  shorter := decodeUint_shorter 8 UInt64.ofNat

instance : Traced U256 where
  reads data := [.uint 32 data]
  returns_iff := returns_decodeUint 32 (BitVec.ofNat 256)
  shorter := decodeUint_shorter 32 (BitVec.ofNat 256)

instance : Traced H256 where
  reads data := [.item data]
  returns_iff := returns_decodeFixed 32
  shorter := decodeFixed_shorter

instance : Traced Address where
  reads data := [.item data]
  returns_iff := returns_decodeFixed 20
  shorter := decodeFixed_shorter

instance : Traced Bloom where
  reads data := [.item data]
  returns_iff := returns_decodeFixed 256
  shorter := decodeFixed_shorter

instance : Traced H512 where
  reads data := [.item data]
  returns_iff := returns_decodeFixed 64
  shorter := decodeFixed_shorter

instance : Traced Bytes where
  reads data := [.item data]
  returns_iff data := returns_checked data fun _ => trivial
  shorter h := by
    obtain ⟨⟨payload, rest'⟩, hbytes, h⟩ := bind_ok_inv h
    cases h
    exact decodeBytes_shorter hbytes

instance : Traced String where
  reads data := [.item data]
  returns_iff data := by
    refine returns_checked data fun ⟨payload, rest⟩ => ?_
    dsimp only
    split
    · trivial
    · trivial
  shorter h := by
    obtain ⟨⟨payload, rest'⟩, hbytes, h⟩ := bind_ok_inv h
    dsimp only at h
    split at h
    · cases h
      exact decodeBytes_shorter hbytes
    · cases h

instance : Traced IpAddr where
  reads data := [.item data]
  returns_iff data := by
    refine returns_checked data fun ⟨payload, rest⟩ => ?_
    dsimp only
    split
    · trivial
    · split
      · trivial
      · trivial
  shorter h := by
    obtain ⟨⟨payload, rest'⟩, hbytes, h⟩ := bind_ok_inv h
    dsimp only at h
    split at h
    · cases h
      exact decodeBytes_shorter hbytes
    · split at h
      · cases h
        exact decodeBytes_shorter hbytes
      · cases h

/-! ### Lists and tuples -/

/-- The reads of a list whose payload is read by `f`. -/
def listReads (rlp : ByteString) (f : ByteString → List Read) : List Read :=
  .item rlp :: thenReads (decodeRlpItem rlp) fun (isList, payload, _) => if isList then f payload else []

theorem returns_listReads {α : Type} {k : Bool × ByteString × ByteString → Decode α}
    {f : ByteString → List Read} (hstring : ∀ payload rest, (k (false, payload, rest)).Returns)
    (hlist : ∀ payload rest, (k (true, payload, rest)).Returns ↔ Fine (f payload)) :
    (decodeRlpItem rlp >>= k).Returns ↔ Fine (listReads rlp f) := by
  refine returns_follow [.item rlp] ?_ ?_
  · rw [returns_decodeRlpItem, fine_cons]
    exact (and_iff_left fine_nil).symm
  · rintro ⟨isList, payload, rest⟩ -
    cases isList with
    | false => exact iff_of_true (hstring payload rest) fine_nil
    | true => exact hlist payload rest

section

variable {α β γ : Type} [RLPDecode α] [Traced α] [RLPDecode β] [Traced β] [RLPDecode γ] [Traced γ]

/-- The reads of the loop over a list's payload. -/
def elementReads (α : Type) [RLPDecode α] [Traced α] : Nat → ByteString → List Read
  | _, [] => []
  | 0, _ :: _ => []
  | fuel + 1, data =>
    reads α data ++ thenReads (decodeUnfinished data : Decode (α × ByteString)) fun (_, rest) =>
      elementReads α fuel rest

/-- An element takes at least a byte, so the loop ends. -/
theorem returns_decodeElements {data : ByteString} (hfuel : data.length ≤ fuel) :
    (decodeElements fuel data : Decode (List α)).Returns ↔ Fine (elementReads α fuel data) := by
  induction fuel generalizing data with
  | zero =>
    obtain rfl := length_eq_zero_iff.mp (Nat.le_zero.mp hfuel)
    exact iff_of_true (trivial) fine_nil
  | succ fuel ih =>
    cases data with
    | nil => exact iff_of_true (trivial) fine_nil
    | cons b data =>
      refine returns_follow _ (Traced.returns_iff _) fun ⟨v, rest⟩ hv => ?_
      have := Traced.shorter hv
      refine Iff.trans ?_ (ih (by omega))
      rw [returns_bind]
      exact and_iff_left fun _ _ => trivial

instance : Traced (List α) where
  reads rlp := match rlp with
    | [] => []
    | b :: _ => if b = RLP_EMPTY_LIST then []
      else listReads rlp fun payload => elementReads α payload.length payload
  returns_iff rlp := by
    cases rlp with
    | nil => exact iff_of_true (trivial) fine_nil
    | cons b rest =>
      simp only [decodeUnfinished]
      split
      · exact iff_of_true (trivial) fine_nil
      · refine returns_listReads (fun _ _ => trivial) fun payload rest => ?_
        refine Iff.trans returns_bind ?_
        rw [returns_decodeElements le_rfl]
        exact and_iff_left fun _ _ => trivial
  shorter {data v rest} h := by
    cases data with
    | nil => cases h
    | cons b data =>
      simp only [decodeUnfinished] at h
      split at h
      · cases h
        simp
      · obtain ⟨⟨isList, payload, rest'⟩, hitem, h⟩ := bind_ok_inv h
        cases isList with
        | false => cases h
        | true =>
          obtain ⟨_, -, h⟩ := bind_ok_inv h
          cases h
          exact decodeRlpItem_shorter hitem

theorem returns_ite_fail {δ : Type} {c : Bool} {e : RLPDecodeError} (v : δ) :
    (if c then Decode.fail e else pure v : Decode δ).Returns := by
  split
  · trivial
  · trivial

instance : Traced (α × β) where
  reads rlp := if rlp.isEmpty then [] else listReads rlp fun payload =>
    reads α payload ++ thenReads (decodeUnfinished payload : Decode (α × ByteString)) fun (_, rest) =>
      reads β rest
  returns_iff rlp := by
    change (if rlp.isEmpty then _ else _ : Decode _).Returns ↔ _
    split
    · exact iff_of_true (trivial) fine_nil
    · refine returns_listReads (fun _ _ => trivial) fun payload rest => ?_
      refine returns_follow _ (Traced.returns_iff payload) fun ⟨first, firstRest⟩ _ => ?_
      refine Iff.trans returns_bind ?_
      rw [Traced.returns_iff]
      exact and_iff_left fun _ _ => returns_ite_fail _
  shorter {data v rest} h := by
    change (if data.isEmpty then _ else _ : Decode _) = _ at h
    split at h
    · cases h
    · obtain ⟨⟨isList, payload, rest'⟩, hitem, h⟩ := bind_ok_inv h
      cases isList with
      | false => cases h
      | true =>
        obtain ⟨⟨first, firstRest⟩, -, h⟩ := bind_ok_inv h
        obtain ⟨⟨second, secondRest⟩, -, h⟩ := bind_ok_inv h
        change (if !secondRest.isEmpty then _ else _ : Decode _) = _ at h
        split at h
        · cases h
        · cases h
          exact decodeRlpItem_shorter hitem

instance : Traced (Triple α β γ) where
  reads rlp := if rlp.isEmpty then [] else listReads rlp fun payload =>
    reads α payload ++ thenReads (decodeUnfinished payload : Decode (α × ByteString)) fun (_, rest) =>
      reads β rest ++ thenReads (decodeUnfinished rest : Decode (β × ByteString)) fun (_, rest) =>
        reads γ rest
  returns_iff rlp := by
    change (if rlp.isEmpty then _ else _ : Decode _).Returns ↔ _
    split
    · exact iff_of_true (trivial) fine_nil
    · refine returns_listReads (fun _ _ => trivial) fun payload rest => ?_
      refine returns_follow _ (Traced.returns_iff payload) fun ⟨first, firstRest⟩ _ => ?_
      refine returns_follow _ (Traced.returns_iff firstRest) fun ⟨second, secondRest⟩ _ => ?_
      refine Iff.trans returns_bind ?_
      rw [Traced.returns_iff]
      exact and_iff_left fun _ _ => returns_ite_fail _
  shorter {data v rest} h := by
    change (if data.isEmpty then _ else _ : Decode _) = _ at h
    split at h
    · cases h
    · obtain ⟨⟨isList, payload, rest'⟩, hitem, h⟩ := bind_ok_inv h
      cases isList with
      | false => cases h
      | true =>
        obtain ⟨⟨first, firstRest⟩, -, h⟩ := bind_ok_inv h
        obtain ⟨⟨second, secondRest⟩, -, h⟩ := bind_ok_inv h
        obtain ⟨⟨third, thirdRest⟩, -, h⟩ := bind_ok_inv h
        change (if !thirdRest.isEmpty then _ else _ : Decode _) = _ at h
        split at h
        · cases h
        · cases h
          exact decodeRlpItem_shorter hitem

end

/-! ### Structs -/

section

variable {α γ : Type} [RLPDecode α] {d : Decoder}

theorem decodeOptionalField_remaining {v : Option α}
    (h : d.decodeOptionalField α = .ok (v, d')) : d'.remaining = d.remaining := by
  rw [Decoder.decodeOptionalField] at h
  split at h
  · cases h
    rfl
  · cases h
    rfl
  · cases h
  · cases h

variable [Traced α]

/-- The reads of a struct whose fields are read by `f`. -/
def structReads (rlp : ByteString) (f : Decoder → List Read) : List Read :=
  .item rlp :: thenReads (Decoder.new rlp) f

/-- The reads of a field and of what comes after it. -/
def fieldReads (α : Type) [RLPDecode α] [Traced α] (d : Decoder) (f : Decoder → List Read) : List Read :=
  reads α d.payload ++ thenReads (decodeUnfinished d.payload : Decode (α × ByteString)) fun (_, rest) =>
    f { d with payload := rest }

/-- The fields that `read` takes: it comes back unless one of the reads is bad, with what follows the struct. -/
structure ReadsFields (read : Decoder → Decode (γ × ByteString)) (rs : Decoder → List Read) : Prop where
  returns : ∀ d, (read d).Returns ↔ Fine (rs d)
  ends : ∀ d v rest, read d = .ok (v, rest) → rest = d.remaining

namespace ReadsFields

theorem none (v : γ) : ReadsFields (fun d => .ok (v, d.remaining)) fun _ => [] where
  returns _ := iff_of_true trivial fine_nil
  ends _ _ _ h := (Prod.mk.inj (Except.ok.inj h)).2.symm

theorem finish (v : γ) : ReadsFields (fun d => d.finish >>= fun rest => pure (v, rest)) fun _ => [] where
  returns d := by
    refine iff_of_true (returns_bind.mpr ⟨?_, fun _ _ => trivial⟩) fine_nil
    rw [Decoder.finish]
    split
    · trivial
    · trivial
  ends d v' rest h := by
    obtain ⟨rest', hfinish, hrest⟩ := bind_ok_inv h
    cases hrest
    rw [Decoder.finish] at hfinish
    split at hfinish
    · exact (Except.ok.inj hfinish).symm
    · cases hfinish

theorem field {k : α × Decoder → Decode (γ × ByteString)} {f : Decoder → List Read}
    (hk : ∀ v, ReadsFields (fun d => k (v, d)) f) :
    ReadsFields (fun d => d.decodeField α name >>= k) fun d => fieldReads α d f where
  returns d := by
    rw [Decoder.decodeField, bind_assoc]
    refine Iff.trans returns_bind ?_
    rw [returns_mapErr, Traced.returns_iff, fieldReads, fine_append, fine_thenReads]
    refine and_congr_right fun _ => forall_congr' fun read => ?_
    obtain ⟨v, rest⟩ := read
    rw [mapErr_eq_ok]
    exact imp_congr_right fun _ => (hk v).returns _
  ends d v rest h := by
    obtain ⟨⟨field, d'⟩, hfield, hrest⟩ := bind_ok_inv h
    obtain ⟨⟨field', payload⟩, -, hd⟩ := bind_ok_inv hfield
    cases hd
    exact (hk field).ends ⟨payload, d.remaining⟩ v rest hrest

theorem last {k : α × Decoder → Decode (γ × ByteString)} (hk : ∀ v, ReadsFields (fun d => k (v, d)) fun _ => []) :
    ReadsFields (fun d => d.decodeField α name >>= k) fun d => reads α d.payload where
  returns d := by
    rw [(field hk).returns, fieldReads, fine_append, fine_thenReads]
    exact and_iff_left fun _ _ => fine_nil
  ends := (field hk).ends

end ReadsFields

/-- An optional field that cannot be decoded counts as missing, but its decoder may panic. -/
theorem returns_optionalField : (d.decodeOptionalField α).Returns ↔ Fine (reads α d.payload) := by
  rw [← Traced.returns_iff, Decoder.decodeOptionalField]
  split <;> simp_all [Outcome.Returns]

theorem ReadsFields.optional {k : Option α × Decoder → Decode (γ × ByteString)}
    (hk : ∀ v, ReadsFields (fun d => k (v, d)) fun _ => []) :
    ReadsFields (fun d => d.decodeOptionalField α >>= k) fun d => reads α d.payload where
  returns d := by
    rw [returns_bind, returns_optionalField]
    exact and_iff_left fun p _ => ((hk p.1).returns p.2).mpr fine_nil
  ends d v rest h := by
    obtain ⟨⟨field, d'⟩, hfield, hrest⟩ := bind_ok_inv h
    rw [← decodeOptionalField_remaining hfield]
    exact (hk field).ends d' v rest hrest

variable {read : Decoder → Decode (γ × ByteString)} {rs : Decoder → List Read}

theorem ReadsFields.returns_new (h : ReadsFields read rs) (rlp : ByteString) :
    (Decoder.new rlp >>= read).Returns ↔ Fine (structReads rlp rs) := by
  refine returns_follow [.item rlp] ?_ fun d _ => h.returns d
  rw [Decoder.new, returns_bind, returns_decodeRlpItem, fine_cons, and_iff_left fine_nil]
  refine and_iff_left ?_
  rintro ⟨isList, payload, remaining⟩ -
  cases isList
  · trivial
  · trivial

theorem ReadsFields.splits (h : ReadsFields read rs) (hok : Decoder.new rlp >>= read = .ok (v, rest)) :
    ∃ item, getItemWithPrefix rlp = .ok (item, rest) := by
  obtain ⟨d, hnew, hrest⟩ := bind_ok_inv hok
  obtain ⟨⟨isList, payload, remaining⟩, hitem, hd⟩ := bind_ok_inv hnew
  cases isList with
  | false => cases hd
  | true =>
    cases hd
    obtain ⟨header, -, hsplit⟩ := decodeRlpItem_ok hitem
    rw [h.ends _ v rest hrest]
    exact ⟨_, hsplit⟩

theorem ReadsFields.shorter (h : ReadsFields read rs) (hok : Decoder.new rlp >>= read = .ok (v, rest)) :
    rest.length < rlp.length := by
  obtain ⟨item, hitem⟩ := h.splits hok
  exact getItemWithPrefix_shorter hitem

/-- A struct with the reads of its fields. -/
class TracedStruct (γ : Type) [RLPDecode γ] where
  fields : Decoder → List Read
  readsFields : ∃ read, (∀ rlp, (decodeUnfinished rlp : Decode (γ × ByteString)) = Decoder.new rlp >>= read) ∧
    ReadsFields read fields

variable [RLPDecode γ] [TracedStruct γ]

instance : Traced γ where
  reads rlp := structReads rlp (TracedStruct.fields γ)
  returns_iff rlp := by
    obtain ⟨read, hdecode, hread⟩ := TracedStruct.readsFields (γ := γ)
    rw [hdecode, hread.returns_new]
  shorter h := by
    obtain ⟨read, hdecode, hread⟩ := TracedStruct.readsFields (γ := γ)
    exact hread.shorter ((hdecode _).symm.trans h)

theorem TracedStruct.splits {v : γ} (h : decodeUnfinished data = .ok (v, rest)) :
    ∃ item, getItemWithPrefix data = .ok (item, rest) := by
  obtain ⟨read, hdecode, hread⟩ := TracedStruct.readsFields (γ := γ)
  exact hread.splits ((hdecode _).symm.trans h)

end

/-! ### All the types that are decoded -/

/-- The base types of the crate that it decodes; two of them it does not encode. -/
inductive DecodeBase where
  | coded (b : Base)
  | u128
  | bytesMut

namespace DecodeBase

def Value : DecodeBase → Type
  | coded b => b.Value
  | u128 => BitVec 128
  | bytesMut => Bytes

instance (b : DecodeBase) : RLPDecode b.Value := match b with
  | coded b => inferInstanceAs (RLPDecode b.Value)
  | u128 => ⟨"u128", decodeUint 16 (BitVec.ofNat 128)⟩
  | bytesMut => ⟨"bytes::bytes_mut::BytesMut", (decodeUnfinished : ByteString → Decode (Bytes × ByteString))⟩

end DecodeBase

@[reducible] def Base.traced (b : Base) : Traced b.Value := match b with
  | bool => inferInstanceAs (Traced Bool)
  | u8 => inferInstanceAs (Traced UInt8)
  | u16 => inferInstanceAs (Traced UInt16)
  | u32 => inferInstanceAs (Traced UInt32)
  | u64 => inferInstanceAs (Traced UInt64)
  | usize => ⟨fun data => [.uint 8 data], returns_decodeUint 8 UInt64.ofNat,
      decodeUint_shorter 8 UInt64.ofNat⟩
  | bytes => inferInstanceAs (Traced Bytes)
  | string => inferInstanceAs (Traced String)
  | u256 => inferInstanceAs (Traced U256)
  | ipAddr => inferInstanceAs (Traced IpAddr)
  | address => inferInstanceAs (Traced Address)
  | h256 => inferInstanceAs (Traced H256)
  | h512 => inferInstanceAs (Traced H512)
  | bloom => inferInstanceAs (Traced Bloom)
  | array n => ⟨fun data => [.item data], returns_decodeFixed n, decodeFixed_shorter⟩
  | h32 | ipv4Addr => ⟨fun data => [.item data], returns_decodeFixed 4, decodeFixed_shorter⟩
  | h64 => ⟨fun data => [.item data], returns_decodeFixed 8, decodeFixed_shorter⟩
  | h128 | ipv6Addr => ⟨fun data => [.item data], returns_decodeFixed 16, decodeFixed_shorter⟩
  | h264 => ⟨fun data => [.item data], returns_decodeFixed 33, decodeFixed_shorter⟩
  | signature => ⟨fun data => [.item data], returns_decodeFixed 65, decodeFixed_shorter⟩

instance (b : DecodeBase) : Traced b.Value := match b with
  | .coded b => b.traced
  | .u128 => ⟨fun data => [.uint 16 data], returns_decodeUint 16 (BitVec.ofNat 128),
      decodeUint_shorter 16 (BitVec.ofNat 128)⟩
  | .bytesMut => ⟨reads Bytes, Traced.returns_iff (α := Bytes), Traced.shorter (α := Bytes)⟩

@[reducible] def Nested.traced {β : Type} {val : β → Type} [∀ b, RLPDecode (val b)] [∀ b, Traced (val b)] :
    (t : Nested β) → Traced (t.Value val)
  | base b => inferInstanceAs (Traced (val b))
  | vec t => let : Traced (t.Value val) := t.traced; inferInstanceAs (Traced (List (t.Value val)))
  | pair s t => let : Traced (s.Value val) := s.traced; let : Traced (t.Value val) := t.traced
    inferInstanceAs (Traced (s.Value val × t.Value val))
  | triple s t u => let : Traced (s.Value val) := s.traced; let : Traced (t.Value val) := t.traced
    let : Traced (u.Value val) := u.traced
    inferInstanceAs (Traced (Triple (s.Value val) (t.Value val) (u.Value val)))

instance {β : Type} {val : β → Type} [∀ b, RLPDecode (val b)] [∀ b, Traced (val b)] (t : Nested β) :
    Traced (t.Value val) := t.traced

theorem returns_decode {α : Type} [RLPDecode α] [Traced α] (b : ByteString) :
    (decode b : Decode α).Returns ↔ Fine (reads α b) := by
  rw [decode, returns_bind, Traced.returns_iff]
  exact and_iff_left fun _ _ => returns_ite_fail _

/-- The two ways to split an item come back on the same bytes, split them at the same places and
lose none; and a decoder of any nested type comes back unless one of its reads is bad. -/
theorem decoding_returns_iff (b : ByteString) :
    ((decodeRlpItem b).Returns ↔ ¬ Oversized b) ∧ ((getItemWithPrefix b).Returns ↔ ¬ Oversized b) ∧
      ((∃ r, decodeRlpItem b = .ok r) ↔ ∃ r, getItemWithPrefix b = .ok r) ∧
      (∀ isList payload rest, decodeRlpItem b = .ok (isList, payload, rest) →
        ∃ header, b = header ++ payload ++ rest ∧ getItemWithPrefix b = .ok (header ++ payload, rest)) ∧
      ∀ t : Nested DecodeBase, (decode b : Decode (t.Value DecodeBase.Value)).Returns ↔
        ∀ r ∈ reads (t.Value DecodeBase.Value) b, ¬ r.Bad :=
  ⟨returns_decodeRlpItem b, returns_getItemWithPrefix b, decodeRlpItem_ok_iff b,
    fun _ _ _ h => decodeRlpItem_ok h, fun _ => returns_decode b⟩

/-- A length of all ones, and a string of three bytes where a `u16` is decoded. -/
theorem decoding_panics :
    decodeRlpItem (0xBF :: List.replicate 8 0xFF) = Outcome.panic "attempt to add with overflow" ∧
      getItemWithPrefix (0xBF :: List.replicate 8 0xFF) = Outcome.panic "attempt to add with overflow" ∧
      (decode [0x83, 1, 2, 3] : Decode UInt16) =
        Outcome.panic "source slice length does not match destination slice length" := by
  decide +kernel

end EthereumRust.Rlp
