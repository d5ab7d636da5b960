import EthereumRust.Rlp.Encode

/-! # `crates/rlp`: decoding

Sums of lengths read from the data can overflow, and then the call panics. -/

namespace EthereumRust.Rlp

inductive RLPDecodeError where
  | invalidLength
  | malformedData
  | malformedBoolean
  | unexpectedList
  | unexpectedString
  | custom (message : String)
  deriving DecidableEq, Repr

def RLPDecodeError.toString : RLPDecodeError → String
  | invalidLength => "InvalidLength"
  | malformedData => "MalformedData"
  | malformedBoolean => "MalformedBoolean"
  | unexpectedList => "UnexpectedList"
  | unexpectedString => "UnexpectedString"
  | custom message => message

abbrev Decode (α : Type) := Outcome RLPDecodeError α

def Decode.fail {α : Type} (e : RLPDecodeError) : Decode α := .error (.error e)

class RLPDecode (α : Type) where
  /-- `std::any::type_name` -/
  typeName : String
  decodeUnfinished : ByteString → Decode (α × ByteString)

export RLPDecode (decodeUnfinished)

def decode {α : Type} [RLPDecode α] (rlp : ByteString) : Decode α := do
  let (decoded, remaining) ← decodeUnfinished rlp
  if !remaining.isEmpty then Decode.fail .invalidLength else pure decoded

def staticLeftPad (n : Nat) (data : ByteString) : Decode ByteString :=
  match data with
  | [] => .ok (List.replicate n 0)
  | b :: _ =>
    if b = 0 then Decode.fail .malformedData
    else if data.length ≤ n then .ok (List.replicate (n - data.length) 0 ++ data)
    else Outcome.panic "source slice length does not match destination slice length"

def shortItem (isList : Bool) (base firstByte : UInt8) (data : ByteString) :
    Decode (Bool × ByteString × ByteString) :=
  let length := (firstByte - base).toNat
  if data.length < length + 1 then Decode.fail .invalidLength
  else .ok (isList, (data.take (length + 1)).drop 1, data.drop (length + 1))

def longItem (isList : Bool) (base firstByte : UInt8) (data : ByteString) :
    Decode (Bool × ByteString × ByteString) := do
  let lengthOfLength := (firstByte - base).toNat
  if data.length < lengthOfLength + 1 then Decode.fail .invalidLength else
  let lengthBytes ← staticLeftPad 8 ((data.take (lengthOfLength + 1)).drop 1)
  let length := beNat lengthBytes
  let total ← Rust.add lengthOfLength length
  let total ← Rust.add total 1
  if data.length < total then Decode.fail .invalidLength
  else pure (isList, (data.take total).drop (lengthOfLength + 1), data.drop total)

def decodeRlpItem (data : ByteString) : Decode (Bool × ByteString × ByteString) :=
  match data with
  | [] => Decode.fail .invalidLength
  | firstByte :: _ =>
    if firstByte ≤ 0x7F then .ok (false, data.take 1, data.drop 1)
    else if firstByte ≤ 0xB7 then shortItem false 0x80 firstByte data
    else if firstByte ≤ 0xBF then longItem false 0xB7 firstByte data
    else if firstByte ≤ 0xF7 then shortItem true RLP_EMPTY_LIST firstByte data
    else longItem true 0xF7 firstByte data

/-- The same, with the header left on the first part. -/
def shortPrefixed (base firstByte : UInt8) (data : ByteString) : Decode (ByteString × ByteString) :=
  let length := (firstByte - base).toNat
  if data.length < length + 1 then Decode.fail .invalidLength
  else .ok (data.take (length + 1), data.drop (length + 1))

def longPrefixed (base firstByte : UInt8) (data : ByteString) : Decode (ByteString × ByteString) := do
  let lengthOfLength := (firstByte - base).toNat
  if data.length < lengthOfLength + 1 then Decode.fail .invalidLength else
  let lengthBytes ← staticLeftPad 8 ((data.take (lengthOfLength + 1)).drop 1)
  let length := beNat lengthBytes
  let total ← Rust.add lengthOfLength length
  let total ← Rust.add total 1
  if data.length < total then Decode.fail .invalidLength
  else pure (data.take total, data.drop total)

/-- Splits the first item, including its header, from the bytes after it. -/
def getItemWithPrefix (data : ByteString) : Decode (ByteString × ByteString) :=
  match data with
  | [] => Decode.fail .invalidLength
  | firstByte :: _ =>
    if firstByte ≤ 0x7F then .ok (data.take 1, data.drop 1)
    else if firstByte ≤ 0xB7 then shortPrefixed 0x80 firstByte data
    else if firstByte ≤ 0xBF then longPrefixed 0xB7 firstByte data
    else if firstByte ≤ 0xF7 then shortPrefixed RLP_EMPTY_LIST firstByte data
    else longPrefixed 0xF7 firstByte data

def isEncodedAsBytes (rlp : ByteString) : Decode Bool :=
  match rlp with
  | [] => Outcome.panic "called `Option::unwrap()` on a `None` value"
  | first :: _ => .ok (0xb8 ≤ first && first ≤ 0xbf)

/-- Receives an RLP bytes item (first byte between 0xb8 and 0xbf) and returns its payload,
with whatever follows the item. -/
def getRlpBytesItemPayload (rlp : ByteString) : Decode ByteString :=
  match rlp with
  | [] => Outcome.panic "called `Option::unwrap()` on a `None` value"
  | first :: _ =>
    if first < 0xb8 then Outcome.panic "attempt to subtract with overflow"
    else Rust.sliceFrom rlp ((first - 0xb8 + 1).toNat + 1)

def decodeBytes (data : ByteString) : Decode (ByteString × ByteString) := do
  let (isList, payload, rest) ← decodeRlpItem data
  if isList then Decode.fail .unexpectedList else pure (payload, rest)

instance : RLPDecode Bool where
  typeName := "bool"
  decodeUnfinished
    | [] => Decode.fail .invalidLength
    | b :: rest =>
      if b = RLP_NULL then .ok (false, rest)
      else if b = 0x01 then .ok (true, rest)
      else Decode.fail .malformedBoolean

instance : RLPDecode UInt8 where
  typeName := "u8"
  decodeUnfinished
    | [] => Decode.fail .invalidLength
    | b :: rest =>
      if b ≤ 0x7F then .ok (b, rest)
      else if b = RLP_NULL then .ok (0, rest)
      else match rest with
        | c :: rest => if b = RLP_NULL + 1 then .ok (c, rest) else Decode.fail .malformedData
        | [] => Decode.fail .malformedData

instance : RLPDecode UInt64 where
  typeName := "u64"
  decodeUnfinished rlp := do
    let (bytes, rest) ← decodeBytes rlp
    let paddedBytes ← staticLeftPad 8 bytes
    pure (UInt64.ofNat (beNat paddedBytes), rest)

/-- The decoder of the unsigned integers of `width` bytes. -/
def decodeUint {α : Type} (width : Nat) (ofNat : Nat → α) (rlp : ByteString) :
    Decode (α × ByteString) := do
  let (bytes, rest) ← decodeBytes rlp
  let paddedBytes ← staticLeftPad width bytes
  pure (ofNat (beNat paddedBytes), rest)

instance : RLPDecode UInt16 where
  typeName := "u16"
  decodeUnfinished := decodeUint 2 UInt16.ofNat

instance : RLPDecode UInt32 where
  typeName := "u32"
  decodeUnfinished := decodeUint 4 UInt32.ofNat

def decodeFixed (n : Nat) (rlp : ByteString) : Decode (FixedBytes n × ByteString) := do
  let (decodedBytes, rest) ← decodeBytes rlp
  if h : decodedBytes.length = n then pure (⟨decodedBytes, h⟩, rest)
  else Decode.fail .invalidLength

instance : RLPDecode (FixedBytes 8) where
  typeName := "[u8; 8]"
  decodeUnfinished := decodeFixed 8

instance : RLPDecode H256 where
  typeName := "primitive_types::H256"
  decodeUnfinished := decodeFixed 32

instance : RLPDecode Address where
  typeName := "primitive_types::H160"
  decodeUnfinished := decodeFixed 20

instance : RLPDecode Bloom where
  typeName := "ethbloom::Bloom"
  decodeUnfinished := decodeFixed 256

instance : RLPDecode H512 where
  typeName := "primitive_types::H512"
  decodeUnfinished := decodeFixed 64

instance : RLPDecode Bytes where
  typeName := "bytes::bytes::Bytes"
  decodeUnfinished rlp := do
    let (decoded, rest) ← decodeBytes rlp
    pure (⟨decoded⟩, rest)

instance : RLPDecode U256 where
  typeName := "primitive_types::U256"
  decodeUnfinished rlp := do
    let (bytes, rest) ← decodeBytes rlp
    let paddedBytes ← staticLeftPad 32 bytes
    pure (BitVec.ofNat 256 (beNat paddedBytes), rest)

instance : RLPDecode String where
  typeName := "alloc::string::String"
  decodeUnfinished rlp := do
    let (strBytes, rest) ← decodeBytes rlp
    match String.fromUTF8? ⟨⟨strBytes⟩⟩ with
    | some value => pure (value, rest)
    | none => Decode.fail .malformedData

instance : RLPDecode IpAddr where
  typeName := "core::net::ip_addr::IpAddr"
  decodeUnfinished rlp := do
    let (ipBytes, rest) ← decodeBytes rlp
    if h : ipBytes.length = 4 then pure (.v4 ⟨ipBytes, h⟩, rest)
    else if h : ipBytes.length = 16 then pure (.v6 ⟨ipBytes, h⟩, rest)
    else Decode.fail .invalidLength

/-- The loop over a list's payload. An element that takes no byte repeats for
ever, so as many rounds as there are bytes are enough. -/
def decodeElements {α : Type} [RLPDecode α] : Nat → ByteString → Decode (List α)
  | _, [] => .ok []
  | 0, _ :: _ => .error .diverged
  | fuel + 1, currentSlice => do
    let (item, restCurrentList) ← decodeUnfinished currentSlice
    let result ← decodeElements fuel restCurrentList
    pure (item :: result)

instance {α : Type} [RLPDecode α] : RLPDecode (List α) where
  typeName := "alloc::vec::Vec<" ++ RLPDecode.typeName α ++ ">"
  decodeUnfinished rlp :=
    match rlp with
    | [] => Decode.fail .invalidLength
    | b :: rest =>
      if b = RLP_EMPTY_LIST then .ok ([], rest)
      else do
        let (isList, payload, inputRest) ← decodeRlpItem rlp
        if !isList then Decode.fail .malformedData else
        let result ← decodeElements payload.length payload
        pure (result, inputRest)

instance {α β : Type} [RLPDecode α] [RLPDecode β] : RLPDecode (α × β) where
  typeName := "(" ++ RLPDecode.typeName α ++ ", " ++ RLPDecode.typeName β ++ ")"
  decodeUnfinished rlp := do
    if rlp.isEmpty then Decode.fail .invalidLength else
    let (isList, payload, inputRest) ← decodeRlpItem rlp
    if !isList then Decode.fail .malformedData else
    let (first, firstRest) ← decodeUnfinished payload
    let (second, secondRest) ← decodeUnfinished firstRest
    if !secondRest.isEmpty then Decode.fail .malformedData else
    pure ((first, second), inputRest)

instance {α β γ : Type} [RLPDecode α] [RLPDecode β] [RLPDecode γ] : RLPDecode (Triple α β γ) where
  typeName := "(" ++ RLPDecode.typeName α ++ ", " ++ RLPDecode.typeName β ++ ", " ++
    RLPDecode.typeName γ ++ ")"
  decodeUnfinished rlp := do
    if rlp.isEmpty then Decode.fail .invalidLength else
    let (isList, payload, inputRest) ← decodeRlpItem rlp
    if !isList then Decode.fail .malformedData else
    let (first, firstRest) ← decodeUnfinished payload
    let (second, secondRest) ← decodeUnfinished firstRest
    let (third, thirdRest) ← decodeUnfinished secondRest
    if !thirdRest.isEmpty then Decode.fail .malformedData else
    pure (⟨first, second, third⟩, inputRest)

/-- The struct decoding helper. -/
structure Decoder where
  payload : ByteString
  remaining : ByteString

namespace Decoder

def new (buf : ByteString) : Decode Decoder := do
  let (isList, payload, remaining) ← decodeRlpItem buf
  if isList then pure ⟨payload, remaining⟩ else Decode.fail .unexpectedString

def fieldDecodeError (typ fieldName : String) (err : RLPDecodeError) : RLPDecodeError :=
  .custom ("Error decoding field '" ++ fieldName ++ "' of type " ++ typ ++ ": " ++ err.toString)

def decodeField (α : Type) [RLPDecode α] (self : Decoder) (name : String) : Decode (α × Decoder) := do
  let (field, rest) ← (decodeUnfinished self.payload : Decode (α × ByteString)).mapErr
    (fieldDecodeError (RLPDecode.typeName α) name)
  pure (field, { self with payload := rest })

/-- Returns the next field without decoding it, its header included. -/
def getEncodedItem (self : Decoder) : Decode (ByteString × Decoder) := do
  let (field, rest) ← getItemWithPrefix self.payload
  pure (field, { self with payload := rest })

/-- Returns `some` field if there is one to decode, otherwise `none`. -/
def decodeOptionalField (α : Type) [RLPDecode α] (self : Decoder) : Decode (Option α × Decoder) :=
  match (decodeUnfinished self.payload : Decode (α × ByteString)) with
  | .ok (field, rest) => .ok (some field, { self with payload := rest })
  | .error (.error _) => .ok (none, self)
  | .error (.panic m) => .error (.panic m)
  | .error .diverged => .error .diverged

def finish (self : Decoder) : Decode ByteString :=
  if self.payload.isEmpty then .ok self.remaining else Decode.fail .malformedData

/-- Discards what is left of the payload instead of failing. -/
def finishUnchecked (self : Decoder) : ByteString := self.remaining

end Decoder
end EthereumRust.Rlp
