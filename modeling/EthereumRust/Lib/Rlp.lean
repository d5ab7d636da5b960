import EthereumRust.Lib.Bytes

/-! # Recursive length prefixes

A byte below `0x80` stands for itself, anything else is preceded by its length, which is
a 64-bit number. -/

namespace EthereumRust
open List UInt8

inductive Item where
  | bytes (b : ByteString)
  | list (xs : List Item)

/-- The length in front of a payload; strings count from `0x80`, lists from `0xC0`. -/
def rlpHeader (base len : Nat) : ByteString :=
  if len < 56 then [UInt8.ofNat (base + len)]
  else UInt8.ofNat (base + 55 + (beMin len).length) :: beMin len

def rlpBytes (b : ByteString) : ByteString :=
  match b with
  | [x] => if x < 0x80 then [x] else rlpHeader 0x80 1 ++ [x]
  | b => rlpHeader 0x80 b.length ++ b

def rlpList (payload : ByteString) : ByteString := rlpHeader 0xC0 payload.length ++ payload

namespace Item

mutual

def encode : Item → ByteString
  | .bytes b => rlpBytes b
  | .list xs => rlpList (encodeAll xs)

def encodeAll : List Item → ByteString
  | [] => []
  | x :: xs => x.encode ++ encodeAll xs

end

@[simp] theorem encodeAll_append (xs ys : List Item) :
    encodeAll (xs ++ ys) = encodeAll xs ++ encodeAll ys := by
  induction xs with
  | nil => rfl
  | cons x xs ih => simp [encodeAll, ih]

@[simp] theorem encodeAll_nil : encodeAll [] = [] := rfl
@[simp] theorem encodeAll_cons (x : Item) (xs : List Item) :
    encodeAll (x :: xs) = x.encode ++ encodeAll xs := rfl

end Item

/-! ## Lengths -/

theorem length_rlpHeader_le (base : Nat) (h : len < 2 ^ 64) :
    (rlpHeader base len).length ≤ 9 := by
  unfold rlpHeader
  split
  · simp
  · have : (beMin len).length ≤ 8 := length_beMin_le.mpr (by simpa using h)
    simp; omega

theorem length_rlpHeader_pos (base len : Nat) : 0 < (rlpHeader base len).length := by
  unfold rlpHeader
  split <;> simp

theorem rlpBytes_single (h : x < 0x80) : rlpBytes [x] = [x] := by simp [rlpBytes, h]

theorem rlpBytes_of_length (h : b.length ≠ 1) :
    rlpBytes b = rlpHeader 0x80 b.length ++ b := by
  match b with
  | [] => rfl
  | [x] => simp at h
  | x :: y :: b => rfl

theorem rlpBytes_of_ge (h : ¬ x < 0x80) : rlpBytes [x] = rlpHeader 0x80 1 ++ [x] := by
  simp [rlpBytes, h]

theorem length_rlpBytes_pos (b : ByteString) : 0 < (rlpBytes b).length := by
  unfold rlpBytes
  split
  · split
    · simp
    · simp
  · have := length_rlpHeader_pos 0x80 b.length
    simp; omega

theorem le_length_rlpBytes (b : ByteString) : b.length ≤ (rlpBytes b).length := by
  unfold rlpBytes
  split
  · split <;> simp
  · simp

theorem length_rlpBytes_le (h : b.length < 2 ^ 64) :
    (rlpBytes b).length ≤ b.length + 9 := by
  have hh := length_rlpHeader_le 0x80 h
  unfold rlpBytes
  split
  · split
    · simp
    · simp [rlpHeader]
  · rw [length_append]; omega

theorem le_length_rlpList (p : ByteString) : p.length ≤ (rlpList p).length := by
  simp [rlpList]

theorem length_rlpList_pos (p : ByteString) : 0 < (rlpList p).length := by
  have := length_rlpHeader_pos 0xC0 p.length
  simp [rlpList]; omega

theorem length_rlpList_le (h : p.length < 2 ^ 64) :
    (rlpList p).length ≤ p.length + 9 := by
  have := length_rlpHeader_le 0xC0 h
  rw [rlpList, length_append]; omega

theorem Item.length_encode_pos (x : Item) : 0 < x.encode.length := by
  cases x with
  | bytes b => exact length_rlpBytes_pos b
  | list xs => exact length_rlpList_pos _

/-! ## One way to read an encoding -/

theorem rlpHeader_first (base : Nat) (hb : base ≤ 0xC0) (hlen : len < 2 ^ 64) :
    ∃ x tl, rlpHeader base len = x :: tl ∧ base ≤ x.toNat ∧ x.toNat < base + 64 := by
  unfold rlpHeader
  split
  · refine ⟨_, _, rfl, ?_⟩
    rw [toNat_ofNat']
    omega
  · have h8 : (beMin len).length ≤ 8 := length_beMin_le.mpr (by simpa using hlen)
    refine ⟨_, _, rfl, ?_⟩
    rw [toNat_ofNat']
    omega

theorem rlpHeader_inj (_hb : base ≤ 0xC0)
    (hk : k < 2 ^ 64) (hl : l < 2 ^ 64) (h : rlpHeader base k ++ xs = rlpHeader base l ++ ys) :
    k = l ∧ xs = ys := by
  have hk8 : (beMin k).length ≤ 8 := length_beMin_le.mpr (by simpa using hk)
  have hl8 : (beMin l).length ≤ 8 := length_beMin_le.mpr (by simpa using hl)
  unfold rlpHeader at h
  split at h <;> split at h
  · obtain ⟨hx, hxs⟩ := List.cons.inj h
    have := congrArg UInt8.toNat hx
    rw [toNat_ofNat', toNat_ofNat'] at this
    exact ⟨by omega, hxs⟩
  · obtain ⟨hx, -⟩ := List.cons.inj h
    have := congrArg UInt8.toNat hx
    have hpos := length_beMin_pos (k := l) (by omega)
    rw [toNat_ofNat', toNat_ofNat'] at this
    omega
  · obtain ⟨hx, -⟩ := List.cons.inj h
    have := congrArg UInt8.toNat hx
    have hpos := length_beMin_pos (k := k) (by omega)
    rw [toNat_ofNat', toNat_ofNat'] at this
    omega
  · obtain ⟨hx, htl⟩ := List.cons.inj h
    have := congrArg UInt8.toNat hx
    rw [toNat_ofNat', toNat_ofNat'] at this
    obtain ⟨hm, hrest⟩ := append_inj htl (by omega)
    exact ⟨beMin_injective hm, hrest⟩

theorem rlpBytes_inj {a : ByteString} (ha : a.length < 2 ^ 64) (hb : b.length < 2 ^ 64)
    (h : rlpBytes a ++ xs = rlpBytes b ++ ys) : a = b ∧ xs = ys := by
  -- a byte that stands for itself is below every header
  have hself : ∀ {x : UInt8} {b xs ys : ByteString}, x < 0x80 → b.length < 2 ^ 64 →
      (rlpHeader 0x80 b.length ++ b) ++ ys = [x] ++ xs → False := by
    intro x b xs ys hx hb he
    obtain ⟨y, tl, hh, hlo, -⟩ := rlpHeader_first 0x80 (by norm_num) hb
    rw [hh] at he
    have hxy := (List.cons.inj he).1
    rw [hxy] at hlo
    have : x.toNat < 0x80 := by simpa using lt_iff_toNat_lt.mp hx
    omega
  have hcases : ∀ c : ByteString, (∃ x, c = [x] ∧ x < 0x80 ∧ rlpBytes c = [x]) ∨
      rlpBytes c = rlpHeader 0x80 c.length ++ c := by
    intro c
    by_cases hc : c.length = 1
    · obtain ⟨x, rfl⟩ := length_eq_one_iff.mp hc
      by_cases hx : x < 0x80
      · exact .inl ⟨x, rfl, hx, rlpBytes_single hx⟩
      · exact .inr (rlpBytes_of_ge hx)
    · exact .inr (rlpBytes_of_length hc)
  rcases hcases a with ⟨x, hax, hx, hea⟩ | hea <;> rcases hcases b with ⟨y, hby, hy, heb⟩ | heb
  · rw [hea, heb] at h
    obtain ⟨hxy, hrest⟩ := List.cons.inj h
    exact ⟨by rw [hax, hby, hxy], hrest⟩
  · rw [hea, heb] at h
    exact (hself hx hb h.symm).elim
  · rw [hea, heb] at h
    exact (hself hy ha h).elim
  · rw [hea, heb, append_assoc, append_assoc] at h
    obtain ⟨hlen, hrest⟩ := rlpHeader_inj (by norm_num) ha hb h
    exact append_inj hrest hlen

theorem rlpBytes_ne_rlpList (hb : b.length < 2 ^ 64) (hp : p.length < 2 ^ 64) :
    rlpBytes b ++ xs ≠ rlpList p ++ ys := by
  intro h
  obtain ⟨y, tl, hy, hlo, -⟩ := rlpHeader_first 0xC0 (by norm_num) hp
  obtain ⟨x, tl', hx, hhi⟩ : ∃ x tl', rlpBytes b = x :: tl' ∧ x.toNat < 0xC0 := by
    by_cases h1 : b.length = 1
    · obtain ⟨x, rfl⟩ := length_eq_one_iff.mp h1
      by_cases hx : x < 0x80
      · refine ⟨x, [], rlpBytes_single hx, ?_⟩
        have : x.toNat < 0x80 := by simpa using lt_iff_toNat_lt.mp hx
        omega
      · exact ⟨_, _, rlpBytes_of_ge hx, by decide⟩
    · obtain ⟨x, t, hh, -, hlt⟩ := rlpHeader_first 0x80 (by norm_num) hb
      exact ⟨x, t ++ b, by rw [rlpBytes_of_length h1, hh]; rfl, by omega⟩
  rw [hx, rlpList, hy] at h
  have hxy := (List.cons.inj h).1
  rw [hxy] at hhi
  omega

namespace Item

mutual

theorem encode_inj : ∀ (a b : Item) {xs ys : ByteString}, a.encode.length < 2 ^ 64 →
    b.encode.length < 2 ^ 64 → a.encode ++ xs = b.encode ++ ys → a = b ∧ xs = ys
  | .bytes a, .bytes b, xs, ys, ha, hb, h => by
    obtain ⟨rfl, hrest⟩ := rlpBytes_inj (lt_of_le_of_lt (le_length_rlpBytes a) ha)
      (lt_of_le_of_lt (le_length_rlpBytes b) hb) h
    exact ⟨rfl, hrest⟩
  | .bytes a, .list bs, xs, ys, ha, hb, h =>
    (rlpBytes_ne_rlpList (lt_of_le_of_lt (le_length_rlpBytes a) ha)
      (lt_of_le_of_lt (le_length_rlpList _) hb) h).elim
  | .list as, .bytes b, xs, ys, ha, hb, h =>
    (rlpBytes_ne_rlpList (lt_of_le_of_lt (le_length_rlpBytes b) hb)
      (lt_of_le_of_lt (le_length_rlpList _) ha) h.symm).elim
  | .list as, .list bs, xs, ys, ha, hb, h => by
    have ha' := lt_of_le_of_lt (le_length_rlpList (encodeAll as)) ha
    have hb' := lt_of_le_of_lt (le_length_rlpList (encodeAll bs)) hb
    simp only [encode, rlpList, append_assoc] at h
    obtain ⟨hlen, hrest⟩ := rlpHeader_inj (by norm_num) ha' hb' h
    obtain ⟨hp, hxy⟩ := append_inj hrest hlen
    exact ⟨by rw [encodeAll_inj as bs ha' hb' hp], hxy⟩

theorem encodeAll_inj : ∀ (as bs : List Item), (encodeAll as).length < 2 ^ 64 →
    (encodeAll bs).length < 2 ^ 64 → encodeAll as = encodeAll bs → as = bs
  | [], [], _, _, _ => rfl
  | [], b :: bs, _, _, h => by
    have := congrArg List.length h
    have hpos := b.length_encode_pos
    simp only [encodeAll_nil, encodeAll_cons, length_append, length_nil] at this
    omega
  | a :: as, [], _, _, h => by
    have := congrArg List.length h
    have hpos := a.length_encode_pos
    simp only [encodeAll_nil, encodeAll_cons, length_append, length_nil] at this
    omega
  | a :: as, b :: bs, ha, hb, h => by
    simp only [encodeAll_cons, length_append] at ha hb h
    obtain ⟨rfl, hrest⟩ := encode_inj a b (by omega) (by omega) h
    rw [encodeAll_inj as bs (by omega) (by omega) hrest]

end

/-- Items no longer than a 64-bit length are told apart by their encodings. -/
theorem encode_injective {a b : Item} (ha : a.encode.length < 2 ^ 64) (hb : b.encode.length < 2 ^ 64)
    (h : a.encode = b.encode) : a = b :=
  (encode_inj a b ha hb (congrArg (· ++ ([] : ByteString)) h)).1

end Item

/-! ## Reading an encoding back -/

/-- The first item of some data: whether it is a list, its payload, and what follows it. -/
def rlpSplit : ByteString → Option (Bool × ByteString × ByteString)
  | [] => none
  | x :: data =>
    if x.toNat < 0x80 then some (false, [x], data)
    else
      let k := (x.toNat - 0x80) % 0x40
      let long := k - 55
      let len := if k < 56 then k else beNat (data.take long)
      let data := data.drop long
      if len ≤ data.length then some (decide (0xC0 ≤ x.toNat), data.take len, data.drop len) else none

theorem rlpSplit_header (hb : base = 0x80 ∨ base = 0xC0)
    (hp : p.length < 2 ^ 64) (rest : ByteString) :
    rlpSplit (rlpHeader base p.length ++ (p ++ rest)) = some (decide (base = 0xC0), p, rest) := by
  have h8 : (beMin p.length).length ≤ 8 := length_beMin_le.mpr (by simpa using hp)
  have hbase : ∀ k, k < 64 → (UInt8.ofNat (base + k)).toNat = base + k ∧
      (base + k - 0x80) % 0x40 = k ∧ ¬ base + k < 0x80 ∧
      decide (0xC0 ≤ base + k) = decide (base = 0xC0) := by
    intro k hk
    refine ⟨?_, by omega, by omega, ?_⟩
    · rw [toNat_ofNat']; omega
    · rw [decide_eq_decide]; omega
  unfold rlpHeader
  split
  · rename_i h
    obtain ⟨hx, hk, hlow, hlist⟩ := hbase p.length (by omega)
    simp only [cons_append, rlpSplit, hx, hk, hlow, h, hlist,
      show p.length - 55 = 0 by omega]
    simp
  · have hpos := length_beMin_pos (k := p.length) (by omega)
    obtain ⟨hx, hk, hlow, hlist⟩ := hbase (55 + (beMin p.length).length) (by omega)
    rw [← Nat.add_assoc] at hx hk hlow hlist
    simp only [cons_append, rlpSplit, hx, hk, hlow, hlist,
      show ¬ 55 + (beMin p.length).length < 56 by omega]
    simp

theorem rlpSplit_rlpBytes (hb : b.length < 2 ^ 64) (rest : ByteString) :
    rlpSplit (rlpBytes b ++ rest) = some (false, b, rest) := by
  have hheader := rlpSplit_header (.inl rfl) hb rest
  by_cases h1 : b.length = 1
  · obtain ⟨x, rfl⟩ := length_eq_one_iff.mp h1
    by_cases hx : x < 0x80
    · have hx' : x.toNat < 0x80 := by simpa using lt_iff_toNat_lt.mp hx
      rw [rlpBytes_single hx]
      simp [rlpSplit, hx']
    · rw [rlpBytes_of_ge hx]
      exact hheader
  · rw [rlpBytes_of_length h1, append_assoc]
    exact hheader

theorem rlpSplit_rlpList (hp : p.length < 2 ^ 64) (rest : ByteString) :
    rlpSplit (rlpList p ++ rest) = some (true, p, rest) := by
  rw [rlpList, append_assoc]
  exact rlpSplit_header (.inr rfl) hp rest

theorem length_lt_rlpList (p : ByteString) : p.length < (rlpList p).length := by
  have := length_rlpHeader_pos 0xC0 p.length
  rw [rlpList, length_append]
  omega

namespace Item

mutual

/-- Twice as many rounds as there are bytes are enough. -/
def read : Nat → ByteString → Option (Item × ByteString)
  | 0, _ => none
  | fuel + 1, data =>
    match rlpSplit data with
    | some (true, payload, rest) => (readAll fuel payload).map fun xs => (.list xs, rest)
    | some (false, payload, rest) => some (.bytes payload, rest)
    | none => none

def readAll : Nat → ByteString → Option (List Item)
  | _, [] => some []
  | 0, _ :: _ => none
  | fuel + 1, data =>
    match read fuel data with
    | some (x, rest) => (readAll fuel rest).map (x :: ·)
    | none => none

end

/-- The item that the data is the encoding of. -/
def decode (data : ByteString) : Option Item :=
  match read (2 * data.length) data with
  | some (x, []) => some x
  | _ => none

mutual

theorem read_encode : ∀ (x : Item) (rest : ByteString) (fuel : Nat), x.encode.length < 2 ^ 64 →
    2 * x.encode.length ≤ fuel → read fuel (x.encode ++ rest) = some (x, rest)
  | x, rest, 0, _, hfuel => by
    have := x.length_encode_pos
    omega
  | .bytes b, rest, fuel + 1, hlen, _ => by
    rw [read, encode, rlpSplit_rlpBytes (lt_of_le_of_lt (le_length_rlpBytes b) hlen)]
  | .list xs, rest, fuel + 1, hlen, hfuel => by
    have hlt := length_lt_rlpList (encodeAll xs)
    rw [encode] at hlen hfuel
    rw [read, encode, rlpSplit_rlpList (by omega)]
    simp only [readAll_encodeAll xs fuel (by omega) (by omega), Option.map_some]

theorem readAll_encodeAll : ∀ (xs : List Item) (fuel : Nat), (encodeAll xs).length < 2 ^ 64 →
    2 * (encodeAll xs).length + 1 ≤ fuel → readAll fuel (encodeAll xs) = some xs
  | [], 0, _, _ => rfl
  | [], fuel + 1, _, _ => rfl
  | _ :: _, 0, _, hfuel => by omega
  | x :: xs, fuel + 1, hlen, hfuel => by
    have hpos := x.length_encode_pos
    rw [encodeAll_cons, length_append] at hlen hfuel
    obtain ⟨b, tl, hb⟩ := exists_cons_of_length_pos hpos
    have hread : readAll (fuel + 1) (x.encode ++ encodeAll xs) =
        match read fuel (x.encode ++ encodeAll xs) with
        | some (x, rest) => (readAll fuel rest).map (x :: ·)
        | none => none := by
      rw [hb]; rfl
    rw [encodeAll_cons, hread, read_encode x _ fuel (by omega) (by omega)]
    simp only [readAll_encodeAll xs fuel (by omega) (by omega), Option.map_some]

end

theorem decode_encode {x : Item} (h : x.encode.length < 2 ^ 64) : decode x.encode = some x := by
  have := read_encode x [] (2 * x.encode.length) h le_rfl
  rw [append_nil] at this
  rw [decode, this]

end Item
end EthereumRust
