import EthereumRust.Levm.Frame

/-! # `crates/levm`: word arithmetic and the block environment

The operators of `U256` panic on overflow, the `overflowing_` ones wrap. -/

namespace EthereumRust.Levm

open Rlp (Address H256 U256 FixedBytes)

variable {ε : Type}

namespace Word

def add (a b : U256) : Outcome ε U256 :=
  if a.toNat + b.toNat < 2 ^ 256 then .ok (a + b) else Outcome.panic "arithmetic operation overflow"

def bit (value : U256) (index : Nat) : Bool := value.getLsbD index

def isNegative (value : U256) : Bool := bit value 255

def negate (value : U256) : Outcome ε U256 := add (~~~value) 1

def magnitude (value : U256) : Outcome ε U256 :=
  if isNegative value then negate value else pure value

def signedDiv (dividend divisor : U256) : Outcome ε U256 := do
  let quotientIsNegative := isNegative dividend ^^ isNegative divisor
  let dividend ← magnitude dividend
  let divisor ← magnitude divisor
  let quotient := dividend / divisor
  if quotientIsNegative then negate quotient else pure quotient

def signedMod (dividend divisor : U256) : Outcome ε U256 := do
  let remainderIsNegative := isNegative dividend ^^ isNegative divisor
  let dividend ← magnitude dividend
  let divisor ← magnitude divisor
  let remainder := dividend % divisor
  if remainderIsNegative then negate remainder else pure remainder

def addMod (augend addend divisor : U256) : U256 :=
  let sum := augend + addend
  let overflow := 2 ^ 256 ≤ augend.toNat + addend.toNat
  let remainder := sum % divisor
  if overflow ∨ remainder > divisor then remainder - divisor else remainder

/-- `MULMOD` by a divisor that is not zero. The product is taken with 512 bits, and the low 256 bits
of the remainder are kept. -/
def mulMod (multiplicand multiplier divisor : U256) : U256 :=
  let multiplicand := multiplicand.setWidth 512
  let multiplier := multiplier.setWidth 512
  let divisor := divisor.setWidth 512
  let product := multiplicand * multiplier
  let overflow := 2 ^ 512 ≤ multiplicand.toNat * multiplier.toNat
  let remainder := product % divisor
  let remainder := if overflow ∨ remainder > divisor then remainder - divisor else remainder
  remainder.setWidth 256

def bits (value : U256) : Nat := value.toNat.size

def pow (base exponent : U256) : U256 :=
  (List.range (bits exponent)).foldr
    (fun i power => power * power * if bit exponent i then base else 1) 1

def signExtend (byteSize valueToExtend : U256) : U256 :=
  let byteSize := if byteSize ≤ 31 then byteSize else 31
  let signBitIndex := 8 * byteSize.toNat + 7
  let signBitMask := ((1 : U256) <<< signBitIndex) - 1
  if bit valueToExtend signBitIndex then valueToExtend ||| ~~~signBitMask else valueToExtend &&& signBitMask

def ofBool (b : Bool) : U256 := if b then 1 else 0

def signedLt (lho rho : U256) : Bool :=
  if bit lho 255 = bit rho 255 then lho < rho else bit lho 255

def signedGt (lho rho : U256) : Bool :=
  if bit lho 255 = bit rho 255 then lho > rho else bit rho 255

def byte (value : U256) (index : Nat) : U256 := (value >>> (8 * index)) &&& 0xFF

/-- `BYTE`: an index that is no `usize` counts as the largest one. -/
def byteAt (op1 op2 : U256) : U256 :=
  if op1.toNat < WORD_SIZE then byte op2 (WORD_SIZE - 1 - op1.toNat) else 0

def shiftLeft (shift value : U256) : U256 := if shift < 256 then value <<< shift.toNat else 0

def shiftRight (shift value : U256) : U256 := if shift < 256 then value >>> shift.toNat else 0

def arithmeticShiftRight (value shift : U256) : U256 :=
  if bit value 255 then
    let shifted := value >>> shift.toNat
    let mask := BitVec.allOnes 256 <<< (256 - shift.toNat)
    shifted ||| mask
  else value >>> shift.toNat

def signedShiftRight (shift value : U256) : U256 :=
  if shift < 256 then arithmeticShiftRight value shift
  else if bit value 255 then BitVec.allOnes 256
  else 0

def ofAddress (address : Address) : U256 := wordOfBytes address.1

def toAddress (value : U256) : Address := ⟨beBytes 20 (value.toNat % 2 ^ 64), length_beBytes _ _⟩

def toUsize (value : U256) : Outcome ε Nat :=
  if value.toNat < Rust.wordSize then .ok value.toNat
  else Outcome.panic "called `Result::unwrap()` on an `Err` value"

def toTopic (value : U256) : Outcome ε (FixedBytes 4) :=
  if value.toNat < 2 ^ 32 then .ok ⟨beBytes 4 value.toNat, length_beBytes _ _⟩
  else Outcome.panic "Integer overflow when casting to u32"

end Word

/-! ## `block.rs` -/

structure BlockEnv where
  number : U256
  coinbase : Address
  timestamp : U256
  baseFeePerGas : U256
  gasLimit : Nat
  chainId : Nat
  prevRandao : Option H256
  excessBlobGas : Option Nat
  blobGasUsed : Option Nat

def BlockEnv.default : BlockEnv := ⟨0, CallFrame.zeroAddress, 0, 0, 0, 0, none, none, none⟩

def LAST_AVAILABLE_BLOCK_LIMIT : Nat := 256
def MIN_BLOB_GASPRICE : Nat := 1
def BLOB_GASPRICE_UPDATE_FRACTION : Nat := 3338477
def GAS_PER_BLOB : Nat := 2 ^ 17
def TARGET_BLOB_NUMBER_PER_BLOCK : Nat := 3
def TARGET_BLOB_GAS_PER_BLOCK : Nat := TARGET_BLOB_NUMBER_PER_BLOCK * GAS_PER_BLOB

/-! `u128` arithmetic -/

def u128Size : Nat := 2 ^ 128

def u128Add (a b : Nat) : Outcome ε Nat :=
  if a + b < u128Size then .ok (a + b) else Outcome.panic "attempt to add with overflow"

def u128Mul (a b : Nat) : Outcome ε Nat :=
  if a * b < u128Size then .ok (a * b) else Outcome.panic "attempt to multiply with overflow"

/-- The loop of `fake_exponential`. Every round adds at least one to the output, which is below
`2 ^ 128`, so as many rounds are enough. -/
def fakeExponentialFrom (numerator denominator : Nat) :
    (rounds i output numeratorAccum : Nat) → Outcome ε Nat
  | 0, _, _, _ => .error .diverged
  | rounds + 1, i, output, numeratorAccum => do
    if numeratorAccum = 0 then pure (output / denominator) else
    let output ← u128Add output numeratorAccum
    let product ← u128Mul numeratorAccum numerator
    let divisor ← u128Mul denominator i
    let next ← u128Add i 1
    fakeExponentialFrom numerator denominator rounds next output (product / divisor)

def fakeExponential (factor numerator denominator : Nat) : Outcome ε Nat := do
  Rust.assert (denominator != 0) "attempt to divide by zero"
  let numeratorAccum ← u128Mul factor denominator
  fakeExponentialFrom numerator denominator (u128Size + 1) 1 0 numeratorAccum

namespace BlockEnv

def calcExcessBlobGas (self : BlockEnv) : Outcome ε Nat := do
  let sum ← Rust.add (self.excessBlobGas.getD 0) (self.blobGasUsed.getD 0)
  pure (sum - TARGET_BLOB_GAS_PER_BLOCK)

def calculateBlobGasPrice (self : BlockEnv) : Outcome ε U256 := do
  let excessBlobGas ← self.calcExcessBlobGas
  let price ← fakeExponential MIN_BLOB_GASPRICE excessBlobGas BLOB_GASPRICE_UPDATE_FRACTION
  pure (BitVec.ofNat 256 price)

end BlockEnv
end EthereumRust.Levm
