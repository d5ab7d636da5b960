import EthereumRust.Rpc.Params

/-! # Numbers and bytes as JSON texts: `crates/core/serde_utils.rs`

The text of an error of the crate `hex` is left out. -/

namespace EthereumRust.Rpc
open Rlp

/-- `encode` and `decode` of the crate `hex` -/
class Hex where
  encode : ByteString → List Char
  decode : List Char → Option ByteString
  encode_digits (bytes : ByteString) : ∀ c ∈ encode bytes, ∃ d < 16, c = Nat.digitChar d
  decode_encode (bytes : ByteString) : decode (encode bytes) = some bytes

def hexText [Hex] (bytes : ByteString) : String := String.ofList ('0' :: 'x' :: Hex.encode bytes)

end EthereumRust.Rpc

namespace EthereumRust.SerdeUtils
open Rlp Rpc

inductive DeError where
  /-- Another kind of JSON value was expected. -/
  | invalidType
  | custom (message : String)
  /-- `custom` with the text of a `hex::FromHexError`. -/
  | fromHex
  deriving DecidableEq

abbrev De := Except DeError

/-! ## Texts -/

def digitValue (c : Char) : Option Nat :=
  if '0' ≤ c ∧ c ≤ '9' then some (c.toNat - '0'.toNat)
  else if 'a' ≤ c ∧ c ≤ 'z' then some (c.toNat - 'a'.toNat + 10)
  else if 'A' ≤ c ∧ c ≤ 'Z' then some (c.toNat - 'A'.toNat + 10)
  else none

def toDigit (radix : Nat) (c : Char) : Option Nat := (digitValue c).filter (· < radix)

def pushDigit (radix bound n : Nat) (c : Char) : Option Nat := do
  let digit ← toDigit radix c
  if n * radix + digit < bound then some (n * radix + digit) else none

def fromStrRadix (radix bound : Nat) : List Char → Option Nat
  | [] | ['+'] | ['-'] => none
  | '+' :: digits => digits.foldlM (pushDigit radix bound) 0
  | digits => digits.foldlM (pushDigit radix bound) 0

def trimStart : List Char → List Char
  | '0' :: 'x' :: text => trimStart text
  | text => text

def lowerHex (n : Nat) : List Char :=
  if n = 0 then ['0'] else ((Nat.digits 16 n).map Nat.digitChar).reverse

def formatHex (n : Nat) : String := String.ofList ('0' :: 'x' :: lowerHex n)

/-- A number with `{:#018x}`: zeros up to a width of 18, the `0x` included. -/
def formatPadded (n : Nat) : String :=
  String.ofList ('0' :: 'x' :: (List.replicate (16 - (lowerHex n).length) '0' ++ lowerHex n))

def string : Value → De String
  | .string text => .ok text
  | _ => .error .invalidType

def optString : Value → De (Option String)
  | .null => .ok none
  | .string text => .ok (some text)
  | _ => .error .invalidType

def strings : Value → De (List String)
  | .array values => values.mapM string
  | _ => .error .invalidType

def parse (radix bound : Nat) (message value : String) : De Nat :=
  match fromStrRadix radix bound (trimStart value.toList) with
  | some n => .ok n
  | none => .error (.custom message)

/-! ## The modules -/

namespace U64

def FAILED : String := "Failed to deserialize u64 value"

namespace HexStr

def deserialize (d : Value) : De UInt64 := do
  let value ← string d
  let n ← parse 16 (2 ^ 64) FAILED value
  pure (UInt64.ofNat n)

def serialize (value : UInt64) : Value := .string (formatHex value.toNat)

end HexStr

namespace HexStrPadding

def deserialize (d : Value) : De UInt64 := HexStr.deserialize d

def serialize (value : UInt64) : Value := .string (formatPadded value.toNat)

end HexStrPadding

namespace HexStrOpt

def serialize : Option UInt64 → Value
  | some value => .string (formatHex value.toNat)
  | none => .null

def deserialize (d : Value) : De (Option UInt64) := do
  let value ← optString d
  match value with
  | some s =>
    if s.isEmpty then pure none
    else
      let n ← parse 16 (2 ^ 64) FAILED s
      pure (some (UInt64.ofNat n))
  | none => pure none

end HexStrOpt

namespace HexStrOptPadded

def serialize : Option UInt64 → Value
  | some value => .string (formatPadded value.toNat)
  | none => .null

def deserialize (d : Value) : De (Option UInt64) := HexStrOpt.deserialize d

end HexStrOptPadded
end U64

namespace U128.HexStr

/-- The digits that are written in base 16 are read in base 32. -/
def deserialize (d : Value) : De (BitVec 128) := do
  let value ← string d
  let n ← parse 32 (2 ^ 128) "Failed to deserialize u128 value" value
  pure (BitVec.ofNat 128 n)

def serialize (value : BitVec 128) : Value := .string (formatHex value.toNat)

end U128.HexStr

namespace Bytes

variable [Hex]

def decode (value : String) : De Bytes :=
  match Hex.decode (trimStart value.toList) with
  | some bytes => .ok ⟨bytes⟩
  | none => .error .fromHex

def deserialize (d : Value) : De Bytes := do
  let value ← string d
  decode value

def serialize (value : Bytes) : Value := .string (hexText value.data)

def Vec.deserialize (d : Value) : De (List Bytes) := do
  let value ← strings d
  value.mapM decode

def Vec.serialize (value : List Bytes) : Value := .array (value.map fun encoded => .string (hexText encoded.data))

end Bytes

namespace Bool

def deserialize (d : Value) : De Bool := do
  let value ← string d
  let n ← parse 16 (2 ^ 8) "Failed to deserialize hex string to boolean value" value
  pure (n != 0)

def serialize (value : Bool) : Value := .string (formatHex value.toNat)

end Bool

/-! ## What is read from what was written -/

/-- A text of hex digits in lower case. -/
def IsHex (text : List Char) : Prop := ∀ c ∈ text, ∃ d < 16, c = Nat.digitChar d

theorem isHex_lowerHex (n : Nat) : IsHex (lowerHex n) := by
  intro c hc
  unfold lowerHex at hc
  split at hc
  · exact ⟨0, by decide, List.mem_singleton.mp hc⟩
  · rw [List.mem_reverse, List.mem_map] at hc
    obtain ⟨d, hd, rfl⟩ := hc
    exact ⟨d, Nat.digits_lt_base (by decide) hd, rfl⟩

/-- The `0x` is taken away once, as no digit is an `x`. -/
theorem trimStart_hex (h : IsHex text) : trimStart ('0' :: 'x' :: text) = text := by
  rw [trimStart]
  unfold trimStart
  split
  · obtain ⟨d, hd, hx⟩ := h 'x' (by simp)
    interval_cases d <;> simp at hx
  · rfl

theorem toDigit_digitChar (hradix : 16 ≤ radix) (h : d < 16) : toDigit radix (Nat.digitChar d) = some d := by
  have hvalue : digitValue (Nat.digitChar d) = some d := by interval_cases d <;> decide
  rw [toDigit, hvalue, Option.filter_some, if_pos (by simpa using h.trans_le hradix)]

theorem fromStrRadix_of_isHex (h : IsHex text) (hne : text ≠ []) :
    fromStrRadix radix bound text = text.foldlM (pushDigit radix bound) 0 := by
  have hsign : ∀ c ∈ text, c ≠ '+' ∧ c ≠ '-' := by
    intro c hc
    obtain ⟨d, hd, rfl⟩ := h c hc
    exact digitChar_ne_sign hd
  unfold fromStrRadix
  split <;> simp_all

theorem pushDigit_digitChar (hradix : 16 ≤ radix) (h : d < 16) :
    pushDigit radix bound n (Nat.digitChar d) = if n * radix + d < bound then some (n * radix + d) else none := by
  rw [pushDigit, toDigit_digitChar hradix h]
  rfl

theorem foldlM_pushDigit (hradix : 16 ≤ radix) (hbound : 0 < bound) (hdigits : ∀ d ∈ digits, d < 16) :
    (digits.map Nat.digitChar).reverse.foldlM (pushDigit radix bound) 0 =
      if Nat.ofDigits radix digits < bound then some (Nat.ofDigits radix digits) else none := by
  induction digits with
  | nil => exact (if_pos hbound).symm
  | cons d digits ih =>
    rw [List.map_cons, List.reverse_cons, List.foldlM_append, ih fun e he => hdigits e (List.mem_cons_of_mem _ he),
      Nat.ofDigits_cons, Nat.add_comm, Nat.mul_comm]
    split
    · change (pushDigit radix bound _ (Nat.digitChar d) >>= some) = _
      rw [pushDigit_digitChar hradix (hdigits d List.mem_cons_self)]
      split <;> rfl
    · have hle := Nat.le_mul_of_pos_right (Nat.ofDigits radix digits) (by omega : 0 < radix)
      rw [if_neg (by omega)]
      rfl

theorem foldlM_zeros (hradix : 16 ≤ radix) (hbound : 0 < bound) (k : Nat) (text : List Char) :
    (List.replicate k '0' ++ text).foldlM (pushDigit radix bound) 0 = text.foldlM (pushDigit radix bound) 0 := by
  have hzero : pushDigit radix bound 0 (Nat.digitChar 0) = some 0 := by
    rw [pushDigit_digitChar hradix (by decide), Nat.zero_mul, if_pos hbound]
  induction k with
  | zero => rfl
  | succ k ih =>
    change (pushDigit radix bound 0 (Nat.digitChar 0) >>= _) = _
    rw [hzero]
    exact ih

theorem foldlM_lowerHex (hradix : 16 ≤ radix) (hbound : 0 < bound) (n : Nat) :
    (lowerHex n).foldlM (pushDigit radix bound) 0 = if Nat.ofDigits radix (Nat.digits 16 n) < bound then
      some (Nat.ofDigits radix (Nat.digits 16 n)) else none := by
  unfold lowerHex
  split
  · rename_i hzero
    rw [hzero, Nat.digits_zero, Nat.ofDigits_nil, if_pos hbound]
    exact foldlM_zeros hradix hbound 1 []
  · exact foldlM_pushDigit hradix hbound fun d hd => Nat.digits_lt_base (by decide) hd

theorem lowerHex_ne_nil (n : Nat) : lowerHex n ≠ [] := by
  unfold lowerHex
  split
  · exact List.cons_ne_nil _ _
  · rename_i hzero
    simpa [Nat.digits_eq_nil_iff_eq_zero] using hzero

theorem parse_formatHex (hradix : 16 ≤ radix) (hbound : 0 < bound) (message : String) :
    parse radix bound message (formatHex n) = if Nat.ofDigits radix (Nat.digits 16 n) < bound then
      .ok (Nat.ofDigits radix (Nat.digits 16 n)) else .error (.custom message) := by
  rw [parse, formatHex, String.toList_ofList, trimStart_hex (isHex_lowerHex n),
    fromStrRadix_of_isHex (isHex_lowerHex n) (lowerHex_ne_nil n), foldlM_lowerHex hradix hbound]
  split_ifs <;> rfl

theorem parse_formatHex_same (h : n < bound) (message : String) : parse 16 bound message (formatHex n) = .ok n := by
  rw [parse_formatHex le_rfl (by omega), Nat.ofDigits_digits, if_pos h]

theorem parse_formatPadded (h : n < bound) (message : String) : parse 16 bound message (formatPadded n) = .ok n := by
  have hhex : IsHex (List.replicate (16 - (lowerHex n).length) '0' ++ lowerHex n) := by
    intro c hc
    rcases List.mem_append.mp hc with hc | hc
    · exact ⟨0, by decide, List.eq_of_mem_replicate hc⟩
    · exact isHex_lowerHex n c hc
  have hread := parse_formatHex_same h message
  rw [parse, formatHex, String.toList_ofList, trimStart_hex (isHex_lowerHex n),
    fromStrRadix_of_isHex (isHex_lowerHex n) (lowerHex_ne_nil n)] at hread
  rwa [parse, formatPadded, String.toList_ofList, trimStart_hex hhex,
    fromStrRadix_of_isHex hhex (List.append_ne_nil_of_right_ne_nil _ (lowerHex_ne_nil n)),
    foldlM_zeros le_rfl (by omega)]

/-- Hex digits read in base 32 are the number itself only if there is one of them. -/
theorem ofDigits_32_iff : Nat.ofDigits 32 (Nat.digits 16 n) = n ↔ n < 16 := by
  by_cases h : n < 16
  · refine iff_of_true ?_ h
    by_cases hzero : n = 0
    · rw [hzero]
      rfl
    · rw [Nat.digits_of_lt 16 n hzero h, Nat.ofDigits_singleton]
  · refine iff_of_false (fun heq => ?_) h
    rw [Nat.digits_of_two_le_of_pos (by decide) (by omega), Nat.ofDigits_cons] at heq
    have hmono := Nat.ofDigits_monotone (Nat.digits 16 (n / 16)) (by decide : 16 ≤ 32)
    rw [Nat.ofDigits_digits] at hmono
    omega

theorem Bytes.decode_hexText [Hex] (value : Bytes) : Bytes.decode (hexText value.data) = .ok value := by
  rw [Bytes.decode, hexText, String.toList_ofList, trimStart_hex (Hex.encode_digits _), Hex.decode_encode]

theorem Bytes.Vec.deserialize_serialize [Hex] (values : List Bytes) :
    Bytes.Vec.deserialize (Bytes.Vec.serialize values) = .ok values := by
  have hdecode : (values.map fun value => hexText value.data).mapM Bytes.decode = .ok values := by
    induction values with
    | nil => rfl
    | cons value values ih => rw [List.map_cons, List.mapM_cons, Bytes.decode_hexText, ih]; rfl
  have hstrings : strings (Bytes.Vec.serialize values) = .ok (values.map fun value => hexText value.data) := by
    change (values.map fun encoded => Value.string (hexText encoded.data)).mapM string = _
    clear hdecode
    induction values with
    | nil => rfl
    | cons value values ih => rw [List.map_cons, List.mapM_cons, ih]; rfl
  rw [Bytes.Vec.deserialize, hstrings]
  exact hdecode

theorem U64.read_ofNat {text : String} {value : UInt64} (h : parse 16 (2 ^ 64) U64.FAILED text = .ok value.toNat) :
    U64.HexStr.deserialize (.string text) = .ok value := by
  change (parse 16 (2 ^ 64) U64.FAILED text >>= fun n => pure (UInt64.ofNat n)) = _
  rw [h]
  exact congrArg Except.ok UInt64.ofNat_toNat

theorem U64.read_opt {text : String} {value : UInt64} (hne : text.isEmpty = false)
    (h : parse 16 (2 ^ 64) U64.FAILED text = .ok value.toNat) :
    U64.HexStrOpt.deserialize (.string text) = .ok (some value) := by
  change (if text.isEmpty then pure none else parse 16 (2 ^ 64) U64.FAILED text >>= fun n =>
    pure (some (UInt64.ofNat n))) = _
  rw [hne, h]
  exact congrArg (fun n => Except.ok (some n)) UInt64.ofNat_toNat

theorem U128.deserialize_serialize_iff (w : BitVec 128) :
    U128.HexStr.deserialize (U128.HexStr.serialize w) = .ok w ↔ w.toNat < 16 := by
  rw [← ofDigits_32_iff]
  change (parse 32 (2 ^ 128) _ (formatHex w.toNat) >>= fun n => pure (BitVec.ofNat 128 n)) = _ ↔ _
  rw [parse_formatHex (by decide) (by decide)]
  generalize Nat.ofDigits 32 (Nat.digits 16 w.toNat) = read
  split
  · rename_i hlt
    change Except.ok (BitVec.ofNat 128 read) = _ ↔ _
    rw [Except.ok.injEq, ← BitVec.toNat_inj, BitVec.toNat_ofNat, Nat.mod_eq_of_lt hlt]
  · rename_i hover
    exact iff_of_false nofun fun heq => hover (heq ▸ w.isLt)

/-- Every module reads back what it writes, except the one for `u128`, which does so for
numbers of one digit. -/
theorem serde_utils_inverse [Hex] (n : UInt64) (o : Option UInt64) (w : BitVec 128) (b : Bool) (bytes : Bytes)
    (list : List Bytes) :
    U64.HexStr.deserialize (U64.HexStr.serialize n) = .ok n ∧
    U64.HexStrPadding.deserialize (U64.HexStrPadding.serialize n) = .ok n ∧
    U64.HexStrOpt.deserialize (U64.HexStrOpt.serialize o) = .ok o ∧
    U64.HexStrOptPadded.deserialize (U64.HexStrOptPadded.serialize o) = .ok o ∧
    (U128.HexStr.deserialize (U128.HexStr.serialize w) = .ok w ↔ w.toNat < 16) ∧
    Bytes.deserialize (Bytes.serialize bytes) = .ok bytes ∧
    Bytes.Vec.deserialize (Bytes.Vec.serialize list) = .ok list ∧
    Bool.deserialize (Bool.serialize b) = .ok b := by
  have hplain (v : UInt64) := parse_formatHex_same v.toNat_lt U64.FAILED
  have hpadded (v : UInt64) := parse_formatPadded v.toNat_lt U64.FAILED
  refine ⟨U64.read_ofNat (hplain n), U64.read_ofNat (hpadded n), ?_, ?_, U128.deserialize_serialize_iff w,
    Bytes.decode_hexText bytes, Bytes.Vec.deserialize_serialize list, ?_⟩
  · cases o with
    | none => rfl
    | some v => exact U64.read_opt (by simp [formatHex]) (hplain v)
  · cases o with
    | none => rfl
    | some v => exact U64.read_opt (by simp [formatPadded]) (hpadded v)
  · have hlt : b.toNat < 2 ^ 8 := b.toNat_lt.trans (by decide)
    change (parse 16 (2 ^ 8) _ (formatHex b.toNat) >>= fun n => pure (n != 0)) = _
    cases b <;> rfl

/-- The text of 16 is read as 32. -/
theorem u128_sixteen : U128.HexStr.deserialize (U128.HexStr.serialize 16) = .ok 32 := by decide +kernel

/-! ## Two digits for a byte -/

def hexEncode (bytes : ByteString) : List Char :=
  bytes.flatMap fun b => [Nat.digitChar (b.toNat / 16), Nat.digitChar (b.toNat % 16)]

def hexDecode : List Char → Option ByteString
  | [] => some []
  | [_] => none
  | a :: b :: text => do
    let high ← toDigit 16 a
    let low ← toDigit 16 b
    let bytes ← hexDecode text
    some (UInt8.ofNat (16 * high + low) :: bytes)

theorem isHex_hexEncode (bytes : ByteString) : IsHex (hexEncode bytes) := by
  intro c hc
  obtain ⟨b, -, hc⟩ := List.mem_flatMap.mp hc
  have hb := b.toNat_lt
  rcases List.mem_pair.mp hc with rfl | rfl
  · exact ⟨b.toNat / 16, by omega, rfl⟩
  · exact ⟨b.toNat % 16, by omega, rfl⟩

theorem hexDecode_hexEncode (bytes : ByteString) : hexDecode (hexEncode bytes) = some bytes := by
  induction bytes with
  | nil => rfl
  | cons b bytes ih =>
    have hb := b.toNat_lt
    change (do
      let high ← toDigit 16 (Nat.digitChar (b.toNat / 16))
      let low ← toDigit 16 (Nat.digitChar (b.toNat % 16))
      let bytes ← hexDecode (hexEncode bytes)
      some (UInt8.ofNat (16 * high + low) :: bytes)) = _
    rw [toDigit_digitChar le_rfl (by omega), toDigit_digitChar le_rfl (by omega), ih]
    change some (UInt8.ofNat (16 * (b.toNat / 16) + b.toNat % 16) :: bytes) = _
    rw [Nat.div_add_mod, UInt8.ofNat_toNat]

@[reducible] def twoDigits : Hex := ⟨hexEncode, hexDecode, isHex_hexEncode, hexDecode_hexEncode⟩

end EthereumRust.SerdeUtils
