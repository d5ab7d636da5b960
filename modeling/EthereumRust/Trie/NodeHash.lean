import EthereumRust.Rlp.Encode
import EthereumRust.Trie.Nibble

/-! # Node references and the hashed encoding: `crates/trie/node_hash.rs`

Keccak-256 itself is not modelled: it is the parameter `Keccak256.digest`. -/

namespace EthereumRust.Mpt
open Nibble Rlp

/-- The hash function of the `sha3` crate. -/
class Keccak256 where
  digest : ByteString → H256

export Keccak256 (digest)

/-- Keccak-256 on the inputs of a table. -/
@[reducible] def Keccak256.ofTable (table : List (ByteString × Nat)) : Keccak256 where
  digest b := ⟨beBytes 32 ((table.lookup b).getD 0), length_beBytes _ _⟩

@[reducible] def Keccak256.empty : Keccak256 := Keccak256.ofTable []

inductive NodeHash where
  | hashed (hash : H256)
  | inline (encoded : ByteString)
  deriving DecidableEq

namespace NodeHash

def fromEncodedRaw [Keccak256] (encoded : ByteString) : NodeHash :=
  if encoded.length ≥ 32 then .hashed (digest encoded) else .inline encoded

/-- The final root hash: unlike a reference, it hashes short nodes too. -/
def finalize [Keccak256] : NodeHash → H256
  | .inline x => digest x
  | .hashed x => x

def isValid : NodeHash → Bool
  | .inline v => !v.isEmpty
  | .hashed _ => true

def constDefault : NodeHash := .inline []

def fromVec (value : ByteString) : NodeHash :=
  if h : value.length = 32 then .hashed ⟨value, h⟩ else .inline value

def toVec : NodeHash → ByteString
  | .hashed x => x.1
  | .inline x => x

end NodeHash

inductive PathKind where
  | extension
  | leaf

def PathKind.intoFlag : PathKind → UInt8
  | .extension => 0x00
  | .leaf => 0x20

def computeByteUsage (value : Nat) : Nat :=
  let bitsUsed := if value = 0 then 0 else value.log2 + 1
  (bitsUsed - 1) / 8 + 1

/-! `NodeEncoder`: each function returns what it appends to the encoder's buffer. -/

namespace NodeEncoder

variable {ε : Type}

def bytesLen (valueLen : Nat) (firstValue : UInt8) : Nat :=
  if valueLen = 1 ∧ firstValue < 128 then 1
  else if valueLen < 56 then valueLen + 1
  else valueLen + computeByteUsage valueLen + 1

def pathLen (valueLen : Nat) : Nat := bytesLen (valueLen / 2 + 1) 0

def writeLen (shortBase longBase : UInt8) (value : Nat) : ByteString :=
  if value < 56 then [shortBase + UInt8.ofNat value]
  else
    let lLen := computeByteUsage value
    (longBase + UInt8.ofNat lLen) :: (beBytes 8 value).drop (8 - lLen)

def writeListHeader (childrenLen : Nat) : ByteString := writeLen 0xC0 0xF7 childrenLen

/-- The hex-prefix form of a path, given its length and the half-bytes its iterator yields. -/
def writePath (nibbleCount : Nat) (nibbleIter : List Nibble) (kind : PathKind) :
    Outcome ε ByteString := do
  let (flag, nibbleIter) ←
    if nibbleCount % 2 != 0 then
      match nibbleIter with
      | x :: rest => pure ((kind.intoFlag ||| 0x10) ||| x.toByte, rest)
      | [] => Outcome.panic "called `Option::unwrap()` on a `None` value"
    else pure (kind.intoFlag, nibbleIter)
  let len := if nibbleCount > 1 then writeLen 0x80 0xB7 (nibbleCount / 2 + 1) else []
  pure (len ++ flag :: packPairs nibbleIter)

def writePathSlice (value : NibbleSlice) (kind : PathKind) : Outcome ε ByteString :=
  writePath value.rest.length value.rest kind

def writePathVec (value : NibbleVec) (kind : PathKind) : Outcome ε ByteString := do
  let nibbleCount ← value.len
  writePath nibbleCount value.iter kind

def writeBytes (value : ByteString) : ByteString :=
  match value with
  | [b] => if b < 128 then [b] else writeLen 0x80 0xB7 1 ++ [b]
  | value => writeLen 0x80 0xB7 value.length ++ value

end NodeEncoder
end EthereumRust.Mpt
