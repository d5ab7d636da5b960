import EthereumRust.Lib.Exec
import EthereumRust.Lib.Bytes

/-! # `crates/rlp`: encoding

`RLPEncode::encode` returns what it appends. Lengths are those of data in memory. -/

namespace EthereumRust.Rlp

def RLP_NULL : UInt8 := 0x80
def RLP_EMPTY_LIST : UInt8 := 0xC0

abbrev FixedBytes (n : Nat) := { b : ByteString // b.length = n }

abbrev H256 := FixedBytes 32
abbrev Address := FixedBytes 20
abbrev Bloom := FixedBytes 256

structure Bytes where
  data : ByteString
  deriving DecidableEq

abbrev U256 := BitVec 256

abbrev H512 := FixedBytes 64

inductive IpAddr where
  | v4 (octets : FixedBytes 4)
  | v6 (octets : FixedBytes 16)
  deriving DecidableEq

def IpAddr.localhost : IpAddr := .v4 ⟨[127, 0, 0, 1], rfl⟩

structure Triple (α β γ : Type) where
  fst : α
  snd : β
  trd : γ
  deriving DecidableEq

class RLPEncode (α : Type) where
  encode : α → ByteString

export RLPEncode (encode)

def length {α : Type} [RLPEncode α] (self : α) : Nat := (encode self).length

def significantBytes (width n : Nat) : ByteString := (beBytes width n).dropWhile (· == 0)

def encodeUint (width n : Nat) : ByteString :=
  if n = 0 then [RLP_NULL]
  else if n ≤ 0x7F then [UInt8.ofNat n]
  else
    let bytes := significantBytes width n
    (RLP_NULL + UInt8.ofNat bytes.length) :: bytes

instance : RLPEncode Bool where
  encode self := if self then [0x01] else [RLP_NULL]

instance : RLPEncode UInt8 where
  encode self := encodeUint 1 self.toNat

instance : RLPEncode UInt16 where
  encode self := encodeUint 2 self.toNat

instance : RLPEncode UInt32 where
  encode self := encodeUint 4 self.toNat

instance : RLPEncode UInt64 where
  encode self := encodeUint 8 self.toNat

def encodeSlice (self : ByteString) : ByteString :=
  match self with
  | [b] => if b < RLP_NULL then [b] else [RLP_NULL + 1, b]
  | self =>
    if self.length < 56 then (RLP_NULL + UInt8.ofNat self.length) :: self
    else
      let bytes := significantBytes 8 self.length
      ((0xb7 + UInt8.ofNat bytes.length) :: bytes) ++ self

instance {n : Nat} : RLPEncode (FixedBytes n) where
  encode self := encodeSlice self.1

instance : RLPEncode Bytes where
  encode self := encodeSlice self.data

instance : RLPEncode U256 where
  encode self := encodeSlice (significantBytes 32 self.toNat)

instance : RLPEncode String where
  encode self := encodeSlice self.toByteArray.data.toList

instance : RLPEncode IpAddr where
  encode
    | .v4 ip => encode ip
    | .v6 ip => encode ip

def encodeLength (totalLen : Nat) : ByteString :=
  if totalLen < 56 then [0xc0 + UInt8.ofNat totalLen]
  else
    let bytes := significantBytes 8 totalLen
    (0xf7 + UInt8.ofNat bytes.length) :: bytes

/-- `Vec<T>`: the list of the encodings of its elements. -/
instance {α : Type} [RLPEncode α] : RLPEncode (List α) where
  encode self :=
    if self.isEmpty then [0xc0]
    else encodeLength (self.map length).sum ++ self.flatMap encode

instance {α β : Type} [RLPEncode α] [RLPEncode β] : RLPEncode (α × β) where
  encode self := encodeLength (length self.1 + length self.2) ++ encode self.1 ++ encode self.2

instance {α β γ : Type} [RLPEncode α] [RLPEncode β] [RLPEncode γ] : RLPEncode (Triple α β γ) where
  encode self := encodeLength (length self.fst + length self.snd + length self.trd) ++
    encode self.fst ++ encode self.snd ++ encode self.trd

/-- The struct encoding helper: the fields encoded so far. -/
structure Encoder where
  tempBuf : ByteString

namespace Encoder

def new : Encoder := ⟨[]⟩

def encodeField {α : Type} [RLPEncode α] (self : Encoder) (value : α) : Encoder :=
  ⟨self.tempBuf ++ encode value⟩

def encodeOptionalField {α : Type} [RLPEncode α] (self : Encoder) (optValue : Option α) : Encoder :=
  match optValue with
  | some value => self.encodeField value
  | none => self

/-- The values are encoded already, the keys are not. -/
def encodeKeyValueList (self : Encoder) (list : List (Bytes × Bytes)) : Encoder :=
  ⟨self.tempBuf ++ list.flatMap fun (key, value) => encode key ++ value.data⟩

def finish (self : Encoder) : ByteString := encodeLength self.tempBuf.length ++ self.tempBuf

end Encoder
end EthereumRust.Rlp
