import EthereumRust.Trie.Node

/-! # Transactions: `crates/core/types/transaction.rs`

The field `to` is called `recipient`. Recovering a public key is the work of the
`secp256k1` crate, here `Secp256k1.recover`. The JSON forms are left out. -/

namespace EthereumRust.Core
open Rlp Mpt

/-- `SECP256K1.recover_ecdsa` on a compact signature, or `none` where the crate reports an error. -/
class Secp256k1 where
  recover : (signature : FixedBytes 64) → (yParity : Bool) → (message : H256) → Option (FixedBytes 64)

inductive TxKind where
  | call (address : Address)
  | create
  deriving DecidableEq

abbrev AccessList := List (Address × List H256)

structure LegacyTransaction where
  nonce : UInt64
  gasPrice : UInt64
  gas : UInt64
  recipient : TxKind
  value : U256
  data : Bytes
  v : U256
  r : U256
  s : U256
  deriving DecidableEq

structure EIP2930Transaction where
  chainId : UInt64
  nonce : UInt64
  gasPrice : UInt64
  gasLimit : UInt64
  recipient : TxKind
  value : U256
  data : Bytes
  accessList : AccessList
  signatureYParity : Bool
  signatureR : U256
  signatureS : U256
  deriving DecidableEq

structure EIP1559Transaction where
  chainId : UInt64
  nonce : UInt64
  maxPriorityFeePerGas : UInt64
  maxFeePerGas : UInt64
  gasLimit : UInt64
  recipient : TxKind
  value : U256
  data : Bytes
  accessList : AccessList
  signatureYParity : Bool
  signatureR : U256
  signatureS : U256
  deriving DecidableEq

structure EIP4844Transaction where
  chainId : UInt64
  nonce : UInt64
  maxPriorityFeePerGas : UInt64
  maxFeePerGas : UInt64
  gas : UInt64
  recipient : Address
  value : U256
  data : Bytes
  accessList : AccessList
  maxFeePerBlobGas : U256
  blobVersionedHashes : List H256
  signatureYParity : Bool
  signatureR : U256
  signatureS : U256
  deriving DecidableEq

inductive Transaction where
  | legacyTransaction (tx : LegacyTransaction)
  | eip2930Transaction (tx : EIP2930Transaction)
  | eip1559Transaction (tx : EIP1559Transaction)
  | eip4844Transaction (tx : EIP4844Transaction)
  deriving DecidableEq

inductive TxType where
  | legacy
  | eip2930
  | eip1559
  | eip4844
  deriving DecidableEq, Repr

def TxType.toU8 : TxType → UInt8
  | legacy => 0x00
  | eip2930 => 0x01
  | eip1559 => 0x02
  | eip4844 => 0x03

/-! ## Encoding -/

instance : RLPEncode TxKind where
  encode
    | .call address => encode address
    | .create => [RLP_NULL]

def LegacyTransaction.payload (tx : LegacyTransaction) : Encoder :=
  (((((Encoder.new.encodeField tx.nonce).encodeField tx.gasPrice).encodeField tx.gas).encodeField
    tx.recipient).encodeField tx.value).encodeField tx.data

def EIP2930Transaction.payload (tx : EIP2930Transaction) : Encoder :=
  (((((((Encoder.new.encodeField tx.chainId).encodeField tx.nonce).encodeField tx.gasPrice).encodeField
    tx.gasLimit).encodeField tx.recipient).encodeField tx.value).encodeField tx.data).encodeField tx.accessList

def EIP1559Transaction.payload (tx : EIP1559Transaction) : Encoder :=
  ((((((((Encoder.new.encodeField tx.chainId).encodeField tx.nonce).encodeField
    tx.maxPriorityFeePerGas).encodeField tx.maxFeePerGas).encodeField tx.gasLimit).encodeField
    tx.recipient).encodeField tx.value).encodeField tx.data).encodeField tx.accessList

def EIP4844Transaction.payload (tx : EIP4844Transaction) : Encoder :=
  ((((((((((Encoder.new.encodeField tx.chainId).encodeField tx.nonce).encodeField
    tx.maxPriorityFeePerGas).encodeField tx.maxFeePerGas).encodeField tx.gas).encodeField
    tx.recipient).encodeField tx.value).encodeField tx.data).encodeField tx.accessList).encodeField
    tx.maxFeePerBlobGas).encodeField tx.blobVersionedHashes

instance : RLPEncode LegacyTransaction where
  encode self := (((self.payload.encodeField self.v).encodeField self.r).encodeField self.s).finish

instance : RLPEncode EIP2930Transaction where
  encode self := (((self.payload.encodeField self.signatureYParity).encodeField
    self.signatureR).encodeField self.signatureS).finish

instance : RLPEncode EIP1559Transaction where
  encode self := (((self.payload.encodeField self.signatureYParity).encodeField
    self.signatureR).encodeField self.signatureS).finish

instance : RLPEncode EIP4844Transaction where
  encode self := (((self.payload.encodeField self.signatureYParity).encodeField
    self.signatureR).encodeField self.signatureS).finish

/-! ## Decoding -/

instance : RLPDecode TxKind where
  typeName := "ethereum_rust_core::types::transaction::TxKind"
  decodeUnfinished rlp :=
    match rlp with
    | [] => Decode.fail .invalidLength
    | firstByte :: rest =>
      if firstByte = RLP_NULL then .ok (.create, rest)
      else do
        let (t, rest) ← decodeUnfinished rlp
        pure (.call t, rest)

instance : RLPDecode LegacyTransaction where
  typeName := "ethereum_rust_core::types::transaction::LegacyTransaction"
  decodeUnfinished rlp := do
    let decoder ← Decoder.new rlp
    let (nonce, decoder) ← decoder.decodeField UInt64 "nonce"
    let (gasPrice, decoder) ← decoder.decodeField UInt64 "gas_price"
    let (gas, decoder) ← decoder.decodeField UInt64 "gas"
    let (recipient, decoder) ← decoder.decodeField TxKind "to"
    let (value, decoder) ← decoder.decodeField U256 "value"
    let (data, decoder) ← decoder.decodeField Bytes "data"
    let (v, decoder) ← decoder.decodeField U256 "v"
    let (r, decoder) ← decoder.decodeField U256 "r"
    let (s, decoder) ← decoder.decodeField U256 "s"
    let rest ← decoder.finish
    pure (⟨nonce, gasPrice, gas, recipient, value, data, v, r, s⟩, rest)

instance : RLPDecode EIP2930Transaction where
  typeName := "ethereum_rust_core::types::transaction::EIP2930Transaction"
  decodeUnfinished rlp := do
    let decoder ← Decoder.new rlp
    let (chainId, decoder) ← decoder.decodeField UInt64 "chain_id"
    let (nonce, decoder) ← decoder.decodeField UInt64 "nonce"
    let (gasPrice, decoder) ← decoder.decodeField UInt64 "gas_price"
    let (gasLimit, decoder) ← decoder.decodeField UInt64 "gas_limit"
    let (recipient, decoder) ← decoder.decodeField TxKind "to"
    let (value, decoder) ← decoder.decodeField U256 "value"
    let (data, decoder) ← decoder.decodeField Bytes "data"
    let (accessList, decoder) ← decoder.decodeField AccessList "access_list"
    let (signatureYParity, decoder) ← decoder.decodeField Bool "signature_y_parity"
    let (signatureR, decoder) ← decoder.decodeField U256 "signature_r"
    let (signatureS, decoder) ← decoder.decodeField U256 "signature_s"
    let rest ← decoder.finish
    pure (⟨chainId, nonce, gasPrice, gasLimit, recipient, value, data, accessList, signatureYParity,
      signatureR, signatureS⟩, rest)

instance : RLPDecode EIP1559Transaction where
  typeName := "ethereum_rust_core::types::transaction::EIP1559Transaction"
  decodeUnfinished rlp := do
    let decoder ← Decoder.new rlp
    let (chainId, decoder) ← decoder.decodeField UInt64 "chain_id"
    let (nonce, decoder) ← decoder.decodeField UInt64 "nonce"
    let (maxPriorityFeePerGas, decoder) ← decoder.decodeField UInt64 "max_priority_fee_per_gas"
    let (maxFeePerGas, decoder) ← decoder.decodeField UInt64 "max_fee_per_gas"
    let (gasLimit, decoder) ← decoder.decodeField UInt64 "gas_limit"
    let (recipient, decoder) ← decoder.decodeField TxKind "to"
    let (value, decoder) ← decoder.decodeField U256 "value"
    let (data, decoder) ← decoder.decodeField Bytes "data"
    let (accessList, decoder) ← decoder.decodeField AccessList "access_list"
    let (signatureYParity, decoder) ← decoder.decodeField Bool "signature_y_parity"
    let (signatureR, decoder) ← decoder.decodeField U256 "signature_r"
    let (signatureS, decoder) ← decoder.decodeField U256 "signature_s"
    let rest ← decoder.finish
    pure (⟨chainId, nonce, maxPriorityFeePerGas, maxFeePerGas, gasLimit, recipient, value, data, accessList,
      signatureYParity, signatureR, signatureS⟩, rest)

instance : RLPDecode EIP4844Transaction where
  typeName := "ethereum_rust_core::types::transaction::EIP4844Transaction"
  decodeUnfinished rlp := do
    let decoder ← Decoder.new rlp
    let (chainId, decoder) ← decoder.decodeField UInt64 "chain_id"
    let (nonce, decoder) ← decoder.decodeField UInt64 "nonce"
    let (maxPriorityFeePerGas, decoder) ← decoder.decodeField UInt64 "max_priority_fee_per_gas"
    let (maxFeePerGas, decoder) ← decoder.decodeField UInt64 "max_fee_per_gas"
    let (gas, decoder) ← decoder.decodeField UInt64 "gas"
    let (recipient, decoder) ← decoder.decodeField Address "to"
    let (value, decoder) ← decoder.decodeField U256 "value"
    let (data, decoder) ← decoder.decodeField Bytes "data"
    let (accessList, decoder) ← decoder.decodeField AccessList "access_list"
    let (maxFeePerBlobGas, decoder) ← decoder.decodeField U256 "max_fee_per_blob_gas"
    let (blobVersionedHashes, decoder) ← decoder.decodeField (List H256) "blob_versioned_hashes"
    let (signatureYParity, decoder) ← decoder.decodeField Bool "signature_y_parity"
    let (signatureR, decoder) ← decoder.decodeField U256 "signature_r"
    let (signatureS, decoder) ← decoder.decodeField U256 "signature_s"
    let rest ← decoder.finish
    pure (⟨chainId, nonce, maxPriorityFeePerGas, maxFeePerGas, gas, recipient, value, data, accessList,
      maxFeePerBlobGas, blobVersionedHashes, signatureYParity, signatureR, signatureS⟩, rest)

namespace Transaction

def txType : Transaction → TxType
  | legacyTransaction _ => .legacy
  | eip2930Transaction _ => .eip2930
  | eip1559Transaction _ => .eip1559
  | eip4844Transaction _ => .eip4844

def decodeCanonical (bytes : ByteString) : Decode Transaction :=
  match bytes with
  | txType :: txBytes =>
    if txType < 0x7f then
      if txType = 0x0 then legacyTransaction <$> decode txBytes
      else if txType = 0x1 then eip2930Transaction <$> decode txBytes
      else if txType = 0x2 then eip1559Transaction <$> decode txBytes
      else if txType = 0x3 then eip4844Transaction <$> decode txBytes
      else Decode.fail (.custom ("Invalid transaction type: " ++ toString txType.toNat))
    else legacyTransaction <$> decode bytes
  | [] => legacyTransaction <$> decode bytes

/-- Encodes a transaction in canonical format: the type as a byte, except for a legacy
transaction, then the transaction. -/
def encodeCanonicalToVec (self : Transaction) : ByteString :=
  match self with
  | legacyTransaction t => encode t
  | eip2930Transaction t => self.txType.toU8 :: encode t
  | eip1559Transaction t => self.txType.toU8 :: encode t
  | eip4844Transaction t => self.txType.toU8 :: encode t

/-- In a list, a transaction that is not a legacy one is a byte string that holds its canonical
encoding. -/
instance : RLPEncode Transaction where
  encode self := match self with
    | legacyTransaction t => encode t
    | tx => encode (⟨tx.encodeCanonicalToVec⟩ : Bytes)

/-- The payload of the string that a transaction is wrapped in: the type, and the transaction. -/
def decodePayload (payload : ByteString) : Decode (Transaction × ByteString) :=
  match payload with
  | [] => Outcome.panic "called `Option::unwrap()` on a `None` value"
  | txType :: txEncoding =>
    if txType = 0x0 then (fun (tx, rem) => (legacyTransaction tx, rem)) <$> decodeUnfinished txEncoding
    else if txType = 0x1 then (fun (tx, rem) => (eip2930Transaction tx, rem)) <$> decodeUnfinished txEncoding
    else if txType = 0x2 then (fun (tx, rem) => (eip1559Transaction tx, rem)) <$> decodeUnfinished txEncoding
    else if txType = 0x3 then (fun (tx, rem) => (eip4844Transaction tx, rem)) <$> decodeUnfinished txEncoding
    else Decode.fail (.custom ("Invalid transaction type: " ++ toString txType.toNat))

/-- A transaction is either the list of a legacy transaction or a string that holds the canonical
encoding of another one. -/
instance : RLPDecode Transaction where
  typeName := "ethereum_rust_core::types::transaction::Transaction"
  decodeUnfinished rlp := do
    if ← isEncodedAsBytes rlp then
      let payload ← getRlpBytesItemPayload rlp
      decodePayload payload
    else (fun (tx, rem) => (legacyTransaction tx, rem)) <$> decodeUnfinished rlp

def computeHash [Keccak256] (self : Transaction) : H256 := digest self.encodeCanonicalToVec

/-! ## Accessors -/

def gasLimit : Transaction → UInt64
  | legacyTransaction tx => tx.gas
  | eip2930Transaction tx => tx.gasLimit
  | eip1559Transaction tx => tx.gasLimit
  | eip4844Transaction tx => tx.gas

def gasPrice : Transaction → UInt64
  | legacyTransaction tx => tx.gasPrice
  | eip2930Transaction tx => tx.gasPrice
  | eip1559Transaction tx => tx.maxFeePerGas
  | eip4844Transaction tx => tx.maxFeePerGas

def recipient : Transaction → TxKind
  | legacyTransaction tx => tx.recipient
  | eip2930Transaction tx => tx.recipient
  | eip1559Transaction tx => tx.recipient
  | eip4844Transaction tx => .call tx.recipient

def value : Transaction → U256
  | legacyTransaction tx => tx.value
  | eip2930Transaction tx => tx.value
  | eip1559Transaction tx => tx.value
  | eip4844Transaction tx => tx.value

def maxPriorityFee : Transaction → Option UInt64
  | legacyTransaction _ => none
  | eip2930Transaction _ => none
  | eip1559Transaction tx => some tx.maxPriorityFeePerGas
  | eip4844Transaction tx => some tx.maxPriorityFeePerGas

def accessList : Transaction → AccessList
  | legacyTransaction _ => []
  | eip2930Transaction tx => tx.accessList
  | eip1559Transaction tx => tx.accessList
  | eip4844Transaction tx => tx.accessList

def nonce : Transaction → UInt64
  | legacyTransaction tx => tx.nonce
  | eip2930Transaction tx => tx.nonce
  | eip1559Transaction tx => tx.nonce
  | eip4844Transaction tx => tx.nonce

def data : Transaction → Bytes
  | legacyTransaction tx => tx.data
  | eip2930Transaction tx => tx.data
  | eip1559Transaction tx => tx.data
  | eip4844Transaction tx => tx.data

def blobVersionedHashes : Transaction → List H256
  | legacyTransaction _ => []
  | eip2930Transaction _ => []
  | eip1559Transaction _ => []
  | eip4844Transaction tx => tx.blobVersionedHashes

def maxFeePerBlobGas : Transaction → Option U256
  | legacyTransaction _ => none
  | eip2930Transaction _ => none
  | eip1559Transaction _ => none
  | eip4844Transaction tx => some tx.maxFeePerBlobGas

def maxFeePerGas : Transaction → Option UInt64
  | legacyTransaction _ => none
  | eip2930Transaction _ => none
  | eip1559Transaction tx => some tx.maxFeePerGas
  | eip4844Transaction tx => some tx.maxFeePerGas

variable {ε : Type}

def asU64 (v : U256) : Outcome ε UInt64 :=
  if v.toNat < Rust.wordSize then .ok (UInt64.ofNat v.toNat)
  else Outcome.panic "Integer overflow when casting to u64"

def deriveLegacyChainId (v : U256) : Outcome ε (Option UInt64) := do
  let v ← asU64 v
  if v = 27 ∨ v = 28 then pure none
  else
    let twice ← Rust.u64Sub v 35
    pure (some (twice / 2))

def chainId : Transaction → Outcome ε (Option UInt64)
  | legacyTransaction tx => deriveLegacyChainId tx.v
  | eip2930Transaction tx => .ok (some tx.chainId)
  | eip1559Transaction tx => .ok (some tx.chainId)
  | eip4844Transaction tx => .ok (some tx.chainId)

def gasTipCap (self : Transaction) : UInt64 := self.maxPriorityFee.getD self.gasPrice

def gasFeeCap (self : Transaction) : UInt64 := self.maxFeePerGas.getD self.gasPrice

def effectiveGasTip (self : Transaction) (baseFee : Option UInt64) : Option UInt64 :=
  match baseFee with
  | none => some self.gasTipCap
  | some baseFee =>
    if baseFee ≤ self.gasFeeCap then some (min (self.gasFeeCap - baseFee) self.gasFeeCap) else none

/-! ## The sender -/

section

variable [Keccak256] [Secp256k1]

def recoverAddress (signatureR signatureS : U256) (signatureYParity : Bool) (message : ByteString) :
    Outcome ε Address :=
  let signature : FixedBytes 64 :=
    ⟨beBytes 32 signatureR.toNat ++ beBytes 32 signatureS.toNat, by simp⟩
  match Secp256k1.recover signature signatureYParity (digest message) with
  | none => Outcome.panic "called `Result::unwrap()` on an `Err` value"
  | some publicKey =>
    let hash := digest publicKey.1
    .ok ⟨hash.1.drop 12, by rw [List.length_drop, hash.2]⟩

/-- The parity that the `v` of a legacy transaction stands for, and the message that was signed. -/
def legacySigned (tx : LegacyTransaction) : Option UInt64 → Outcome ε (Bool × ByteString)
  | none => do
    let v ← asU64 tx.v
    pure (Rust.saturatingSub v 27 != 0, tx.payload.finish)
  | some chainId => do
    let v ← asU64 tx.v
    let twice ← Rust.u64Mul chainId 2
    let offset ← Rust.u64Add 35 twice
    pure (Rust.saturatingSub v offset != 0,
      (((tx.payload.encodeField chainId).encodeField (0 : UInt8)).encodeField (0 : UInt8)).finish)

def sender (self : Transaction) : Outcome ε Address :=
  match self with
  | legacyTransaction tx => do
    let chainId ← deriveLegacyChainId tx.v
    let (signatureYParity, message) ← legacySigned tx chainId
    recoverAddress tx.r tx.s signatureYParity message
  | eip2930Transaction tx =>
    recoverAddress tx.signatureR tx.signatureS tx.signatureYParity
      (self.txType.toU8 :: tx.payload.finish)
  | eip1559Transaction tx =>
    recoverAddress tx.signatureR tx.signatureS tx.signatureYParity
      (self.txType.toU8 :: tx.payload.finish)
  | eip4844Transaction tx =>
    recoverAddress tx.signatureR tx.signatureS tx.signatureYParity
      (self.txType.toU8 :: tx.payload.finish)

end
end Transaction
end EthereumRust.Core
