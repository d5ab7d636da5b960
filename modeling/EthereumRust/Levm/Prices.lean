import EthereumRust.Levm.Memory
import EthereumRust.Levm.Vm

/-! # What the instructions charge

The gas of a round is a toll, which depends on the opcode and its operands, and the cost
of the growth of the memory. The divisions leave the toll out when the divisor is zero. -/

namespace EthereumRust.Levm
open GasCost

open Rlp (U256)

namespace Opcode

/-- The entry of `gas_cost` for an instruction whose price is constant. -/
def price : Opcode → Option Nat
  | ADD => GasCost.ADD
  | MUL => GasCost.MUL
  | SUB => GasCost.SUB
  | DIV => GasCost.DIV
  | SDIV => GasCost.SDIV
  | MOD => GasCost.MOD
  | SMOD => GasCost.SMOD
  | ADDMOD => GasCost.ADDMOD
  | MULMOD => GasCost.MULMOD
  | SIGNEXTEND => GasCost.SIGNEXTEND
  | LT => GasCost.LT
  | GT => GasCost.GT
  | SLT => GasCost.SLT
  | SGT => GasCost.SGT
  | EQ => GasCost.EQ
  | ISZERO => GasCost.ISZERO
  | AND => GasCost.AND
  | OR => GasCost.OR
  | XOR => GasCost.XOR
  | NOT => GasCost.NOT
  | BYTE => GasCost.BYTE
  | SHL => GasCost.SHL
  | SHR => GasCost.SHR
  | SAR => GasCost.SAR
  | CALLDATALOAD => GasCost.CALLDATALOAD
  | CALLDATASIZE => GasCost.CALLDATASIZE
  | RETURNDATASIZE => GasCost.RETURNDATASIZE
  | BLOCKHASH => GasCost.BLOCKHASH
  | COINBASE => GasCost.COINBASE
  | TIMESTAMP => GasCost.TIMESTAMP
  | NUMBER => GasCost.NUMBER
  | PREVRANDAO => GasCost.PREVRANDAO
  | GASLIMIT => GasCost.GASLIMIT
  | CHAINID => GasCost.CHAINID
  | SELFBALANCE => GasCost.SELFBALANCE
  | BASEFEE => GasCost.BASEFEE
  | BLOBHASH => GasCost.BLOBHASH
  | BLOBBASEFEE => GasCost.BLOBBASEFEE
  | POP => GasCost.POP
  | JUMP => GasCost.JUMP
  | JUMPI => GasCost.JUMPI
  | PC => GasCost.PC
  | MSIZE => GasCost.MSIZE
  | GAS => GasCost.GAS
  | JUMPDEST => GasCost.JUMPDEST
  | TLOAD => GasCost.TLOAD
  | TSTORE => GasCost.TSTORE
  | PUSH0 => GasCost.PUSH0
  | PUSH _ | PUSH32 => PUSHN
  | DUP _ => DUPN
  | SWAP _ => SWAPN
  | _ => none

def divisor : Opcode → List U256 → Option U256
  | DIV, _ :: divisor :: _ | SDIV, _ :: divisor :: _ | MOD, _ :: divisor :: _ | SMOD, _ :: divisor :: _ => divisor
  | ADDMOD, _ :: _ :: divisor :: _ | MULMOD, _ :: _ :: divisor :: _ => divisor
  | _, _ => none

/-- What an instruction charges apart from the growth of the memory. -/
def toll (opcode : Opcode) (stack : List U256) : Nat :=
  match opcode.price with
  | some price => if opcode.divisor stack = some 0 then 0 else price
  | none =>
    match opcode, stack with
    | EXP, _ :: exponent :: _ => EXP_STATIC + EXP_DYNAMIC_BASE * ((Word.bits exponent + 7) / 8)
    | KECCAK256, _ :: size :: _ =>
      KECCAK25_STATIC + KECCAK25_DYNAMIC_BASE * Memory.wordsOf size.toNat
    | CALLDATACOPY, _ :: _ :: size :: _ =>
      CALLDATACOPY_STATIC + CALLDATACOPY_DYNAMIC_BASE * Memory.wordsOf size.toNat
    | RETURNDATACOPY, _ :: _ :: size :: _ =>
      RETURNDATACOPY_STATIC + RETURNDATACOPY_DYNAMIC_BASE * Memory.wordsOf size.toNat
    | MCOPY, _ :: _ :: size :: _ =>
      MCOPY_STATIC + MCOPY_DYNAMIC_BASE * Memory.wordsOf size.toNat
    | LOG n, _ :: size :: _ =>
      LOGN_STATIC + LOGN_DYNAMIC_BASE * n + LOGN_DYNAMIC_BYTE_BASE * size.toNat
    | MLOAD, _ => MLOAD_STATIC
    | MSTORE, _ => MSTORE_STATIC
    | MSTORE8, _ => MSTORE8_STATIC
    | _, _ => 0

/-- The range of the memory whose growth an instruction charges: its end and its length. -/
def range : Opcode → List U256 → Option (Nat × Nat)
  | KECCAK256, offset :: size :: _ | LOG _, offset :: size :: _ | RETURN, offset :: size :: _ =>
    some (offset.toNat + size.toNat, size.toNat)
  | CALLDATACOPY, destOffset :: _ :: size :: _ | RETURNDATACOPY, destOffset :: _ :: size :: _ =>
    some (destOffset.toNat + size.toNat, size.toNat)
  | MCOPY, destOffset :: srcOffset :: size :: _ =>
    some (max (srcOffset.toNat + size.toNat) (destOffset.toNat + size.toNat), size.toNat)
  | MLOAD, offset :: _ | MSTORE, offset :: _ => some (offset.toNat + WORD_SIZE, WORD_SIZE)
  | MSTORE8, offset :: _ => some (offset.toNat + 1, 1)
  | _, _ => none

variable {opcode : Opcode}

theorem toll_of_price (h : opcode.price = some cost) (stack : List U256) :
    opcode.toll stack = if opcode.divisor stack = some 0 then 0 else cost := by
  unfold toll
  rw [h]

theorem price_pos (h : opcode.price = some cost) : 0 < cost := by
  cases opcode <;> cases h <;> decide

theorem range_of_price (h : opcode.price = some cost) (stack : List U256) : opcode.range stack = none := by
  cases opcode <;> first | rfl | cases h

end Opcode

/-! ## Bills -/

def Opcode.isCopy : Opcode → Bool
  | CALLDATACOPY | RETURNDATACOPY | MCOPY => true
  | _ => false

/-- The charge for the growth of the memory. -/
def Machine.growth (m : Machine) (opcode : Opcode) : Nat :=
  match opcode.range m.frame.stack with
  | some (stop, _) =>
    match (m.frame.memory.expansionCost stop : Outcome Empty Nat) with
    | .ok charge => charge
    | .error _ => 0
  | none => 0

def Machine.sizeAfter (m : Machine) (opcode : Opcode) : Nat :=
  match opcode.range m.frame.stack with
  | some (stop, size) =>
    if opcode.isCopy = true ∧ size = 0 then m.frame.memory.data.length
    else max m.frame.memory.data.length (Memory.roundUp stop)
  | none => m.frame.memory.data.length

/-- What a round that goes on does to the gas and to the memory of a frame that it neither starts nor leaves. -/
structure Bill (m : Machine) (opcode : Opcode) (m' : Machine) : Prop where
  computed : ∀ stop size, opcode.range m.frame.stack = some (stop, size) →
    (m.frame.memory.expansionCost stop : Outcome Empty Nat) = .ok (m.growth opcode)
  gas : m'.txEnv.consumedGas = m.txEnv.consumedGas + opcode.toll m.frame.stack + m.growth opcode
  size : m'.vm.callFrames = m.vm.callFrames → m'.frame.memory.data.length = m.sizeAfter opcode

section

theorem Bill.plain (hrange : opcode.range m.frame.stack = none)
    (hgas : m'.txEnv.consumedGas = m.txEnv.consumedGas + opcode.toll m.frame.stack)
    (hsize : m'.vm.callFrames = m.vm.callFrames → m'.frame.memory = m.frame.memory) : Bill m opcode m' := by
  refine ⟨fun _ _ h => (Option.some_ne_none _ (h.symm.trans hrange)).elim, ?_, fun h => ?_⟩
  · rw [hgas, Machine.growth, hrange]
    rfl
  · rw [hsize h, Machine.sizeAfter, hrange]

theorem Bill.touching {stop size charge} (hrange : opcode.range m.frame.stack = some (stop, size))
    (hcharge : (m.frame.memory.expansionCost stop : Outcome Empty Nat) = .ok charge)
    (hgas : m'.txEnv.consumedGas = m.txEnv.consumedGas + (opcode.toll m.frame.stack + charge))
    (hsize : m'.vm.callFrames = m.vm.callFrames → m'.frame.memory.data.length =
      if opcode.isCopy = true ∧ size = 0 then m.frame.memory.data.length
      else max m.frame.memory.data.length (Memory.roundUp stop)) : Bill m opcode m' := by
  have hgrowth : m.growth opcode = charge := by
    rw [Machine.growth, hrange]
    dsimp only
    rw [hcharge]
  refine ⟨fun stop' size' h => ?_, ?_, fun h => ?_⟩
  · cases hrange.symm.trans h
    rw [hcharge, hgrowth]
  · rw [hgas, hgrowth, Nat.add_assoc]
  · rw [hsize h, Machine.sizeAfter, hrange]

theorem Bill.constant (hprice : opcode.price = some cost) (hdivisor : ∀ stack, opcode.divisor stack = none)
    (hgas : m'.txEnv.consumedGas = m.txEnv.consumedGas + cost) (hmemory : m'.frame.memory = m.frame.memory) :
    Bill m opcode m' := by
  refine .plain (Opcode.range_of_price hprice _) ?_ fun _ => hmemory
  rw [hgas, Opcode.toll_of_price hprice, hdivisor]
  rfl

end
end EthereumRust.Levm
