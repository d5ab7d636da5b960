import EthereumRust.Rlp.Encode

/-! # `crates/levm`: opcodes, costs, memory and call frames

Values of `usize` and `u64` are natural numbers, and an overflow is a panic. A stack is a
list with its top first. -/

namespace EthereumRust.Levm

open Rlp (Address H256 U256 FixedBytes)

/-! ## `constants.rs` -/

def SUCCESS_FOR_CALL : U256 := 1
def REVERT_FOR_CALL : U256 := 0
def SUCCESS_FOR_RETURN : U256 := 1
def TX_BASE_COST : Nat := 21000
def WORD_SIZE : Nat := 32

namespace GasCost

def ADD : Nat := 3
def MUL : Nat := 5
def SUB : Nat := 3
def DIV : Nat := 5
def SDIV : Nat := 5
def MOD : Nat := 5
def SMOD : Nat := 5
def ADDMOD : Nat := 8
def MULMOD : Nat := 8
def EXP_STATIC : Nat := 10
def EXP_DYNAMIC_BASE : Nat := 50
def SIGNEXTEND : Nat := 5
def LT : Nat := 3
def GT : Nat := 3
def SLT : Nat := 3
def SGT : Nat := 3
def EQ : Nat := 3
def ISZERO : Nat := 3
def AND : Nat := 3
def OR : Nat := 3
def XOR : Nat := 3
def NOT : Nat := 3
def BYTE : Nat := 3
def SHL : Nat := 3
def SHR : Nat := 3
def SAR : Nat := 3
def KECCAK25_STATIC : Nat := 30
def KECCAK25_DYNAMIC_BASE : Nat := 6
def CALLDATALOAD : Nat := 3
def CALLDATASIZE : Nat := 2
def CALLDATACOPY_STATIC : Nat := 3
def CALLDATACOPY_DYNAMIC_BASE : Nat := 3
def RETURNDATASIZE : Nat := 2
def RETURNDATACOPY_STATIC : Nat := 3
def RETURNDATACOPY_DYNAMIC_BASE : Nat := 3
def BLOCKHASH : Nat := 20
def COINBASE : Nat := 2
def TIMESTAMP : Nat := 2
def NUMBER : Nat := 2
def PREVRANDAO : Nat := 2
def GASLIMIT : Nat := 2
def CHAINID : Nat := 2
def SELFBALANCE : Nat := 5
def BASEFEE : Nat := 2
def BLOBHASH : Nat := 3
def BLOBBASEFEE : Nat := 2
def POP : Nat := 2
def MLOAD_STATIC : Nat := 3
def MSTORE_STATIC : Nat := 3
def MSTORE8_STATIC : Nat := 3
def JUMP : Nat := 8
def JUMPI : Nat := 10
def PC : Nat := 2
def MSIZE : Nat := 2
def GAS : Nat := 2
def JUMPDEST : Nat := 1
def TLOAD : Nat := 100
def TSTORE : Nat := 100
def MCOPY_STATIC : Nat := 3
def MCOPY_DYNAMIC_BASE : Nat := 3
def PUSH0 : Nat := 2
def PUSHN : Nat := 3
def DUPN : Nat := 3
def SWAPN : Nat := 3
def LOGN_STATIC : Nat := 375
def LOGN_DYNAMIC_BASE : Nat := 375
def LOGN_DYNAMIC_BYTE_BASE : Nat := 8

end GasCost

namespace CallOpcode

def WARM_ADDRESS_ACCESS_COST : Nat := 100
def COLD_ADDRESS_ACCESS_COST : Nat := 2600
def NON_ZERO_VALUE_COST : Nat := 9000
def BASIC_FALLBACK_FUNCTION_STIPEND : Nat := 2300
def VALUE_TO_EMPTY_ACCOUNT_COST : Nat := 25000

end CallOpcode

/-! ## `opcodes.rs` -/

/-- The numbered families take their number as an argument, counted from zero: `PUSH 0` is the
source's `PUSH1`, `LOG 0` is `LOG0`. -/
inductive Opcode where
  | STOP | ADD | MUL | SUB | DIV | SDIV | MOD | SMOD | ADDMOD | MULMOD | EXP | SIGNEXTEND
  | LT | GT | SLT | SGT | EQ | ISZERO | AND | OR | XOR | NOT | BYTE | SHL | SHR | SAR
  | KECCAK256
  | CALLDATALOAD | CALLDATASIZE | CALLDATACOPY | RETURNDATASIZE | RETURNDATACOPY
  | BLOCKHASH | COINBASE | TIMESTAMP | NUMBER | PREVRANDAO | GASLIMIT | CHAINID | SELFBALANCE | BASEFEE
  | BLOBHASH | BLOBBASEFEE
  | POP | MLOAD | MSTORE | MSTORE8 | SLOAD | SSTORE | JUMP | JUMPI | PC | MSIZE | GAS | JUMPDEST
  | TLOAD | TSTORE | MCOPY
  | PUSH0 | PUSH (n : Fin 31) | PUSH32 | DUP (n : Fin 16) | SWAP (n : Fin 16) | LOG (n : Fin 5)
  | CALL | CALLCODE | RETURN | DELEGATECALL | STATICCALL
  deriving DecidableEq

def hexByte (byte : UInt8) : String :=
  String.ofList [(Nat.digitChar (byte.toNat / 16)).toUpper, (Nat.digitChar (byte.toNat % 16)).toUpper]

def Opcode.ofByte {ε : Type} (byte : UInt8) : Outcome ε Opcode :=
  match byte with
  | 0x00 => .ok STOP
  | 0x01 => .ok ADD
  | 0x16 => .ok AND
  | 0x17 => .ok OR
  | 0x18 => .ok XOR
  | 0x19 => .ok NOT
  | 0x1A => .ok BYTE
  | 0x1B => .ok SHL
  | 0x1C => .ok SHR
  | 0x1D => .ok SAR
  | 0x02 => .ok MUL
  | 0x03 => .ok SUB
  | 0x04 => .ok DIV
  | 0x05 => .ok SDIV
  | 0x06 => .ok MOD
  | 0x07 => .ok SMOD
  | 0x08 => .ok ADDMOD
  | 0x09 => .ok MULMOD
  | 0x0A => .ok EXP
  | 0x0B => .ok SIGNEXTEND
  | 0x10 => .ok LT
  | 0x11 => .ok GT
  | 0x12 => .ok SLT
  | 0x13 => .ok SGT
  | 0x14 => .ok EQ
  | 0x15 => .ok ISZERO
  | 0x20 => .ok KECCAK256
  | 0x35 => .ok CALLDATALOAD
  | 0x36 => .ok CALLDATASIZE
  | 0x37 => .ok CALLDATACOPY
  | 0x3D => .ok RETURNDATASIZE
  | 0x3E => .ok RETURNDATACOPY
  | 0x40 => .ok BLOCKHASH
  | 0x41 => .ok COINBASE
  | 0x42 => .ok TIMESTAMP
  | 0x43 => .ok NUMBER
  | 0x44 => .ok PREVRANDAO
  | 0x45 => .ok GASLIMIT
  | 0x46 => .ok CHAINID
  | 0x47 => .ok SELFBALANCE
  | 0x48 => .ok BASEFEE
  | 0x49 => .ok BLOBHASH
  | 0x4A => .ok BLOBBASEFEE
  | 0x50 => .ok POP
  | 0x56 => .ok JUMP
  | 0x57 => .ok JUMPI
  | 0x58 => .ok PC
  | 0x5B => .ok JUMPDEST
  | 0x5F => .ok PUSH0
  | 0x7F => .ok PUSH32
  | 0x51 => .ok MLOAD
  | 0x52 => .ok MSTORE
  | 0x53 => .ok MSTORE8
  | 0x54 => .ok SLOAD
  | 0x55 => .ok SSTORE
  | 0x59 => .ok MSIZE
  | 0x5A => .ok GAS
  | 0x5E => .ok MCOPY
  | 0x5C => .ok TLOAD
  | 0x5D => .ok TSTORE
  | 0xF1 => .ok CALL
  | 0xF2 => .ok CALLCODE
  | 0xF3 => .ok RETURN
  | 0xF4 => .ok DELEGATECALL
  | 0xFA => .ok STATICCALL
  | _ =>
    if h : 0x60 ≤ byte.toNat ∧ byte.toNat ≤ 0x7E then .ok (PUSH ⟨byte.toNat - 0x60, by omega⟩)
    else if h : 0x80 ≤ byte.toNat ∧ byte.toNat ≤ 0x8F then .ok (DUP ⟨byte.toNat - 0x80, by omega⟩)
    else if h : 0x90 ≤ byte.toNat ∧ byte.toNat ≤ 0x9F then .ok (SWAP ⟨byte.toNat - 0x90, by omega⟩)
    else if h : 0xA0 ≤ byte.toNat ∧ byte.toNat ≤ 0xA4 then .ok (LOG ⟨byte.toNat - 0xA0, by omega⟩)
    else Outcome.panic ("Unknown opcode: 0x" ++ hexByte byte)

/-! ## `memory.rs` -/

def wordOfBytes (bytes : ByteString) : U256 := BitVec.ofNat 256 (beNat bytes)

def bytesOfWord (value : U256) : ByteString := beBytes 32 value.toNat

structure Memory where
  data : ByteString
  deriving DecidableEq

namespace Memory

variable {ε : Type}

def new : Memory := ⟨[]⟩

def nextMultipleOf (a n : Nat) : Outcome ε Nat :=
  if a % n = 0 then .ok a else Rust.add a (n - a % n)

def resize (self : Memory) (offset : Nat) : Outcome ε Memory := do
  let size ← nextMultipleOf offset 32
  if size > self.data.length then pure ⟨self.data ++ List.replicate (size - self.data.length) 0⟩
  else pure self

def getRange (self : Memory) (start stop : Nat) : Outcome ε ByteString :=
  if start ≤ stop ∧ stop ≤ self.data.length then .ok ((self.data.take stop).drop start)
  else Outcome.panic "called `Option::unwrap()` on a `None` value"

def load (self : Memory) (offset : Nat) : Outcome ε (U256 × Memory) := do
  let stop ← Rust.add offset 32
  let self ← self.resize stop
  let valueBytes ← self.getRange offset stop
  pure (wordOfBytes valueBytes, self)

def loadRange (self : Memory) (offset size : Nat) : Outcome ε (ByteString × Memory) := do
  let stop ← Rust.add offset size
  let self ← self.resize stop
  let bytes ← self.getRange offset stop
  pure (bytes, self)

def storeBytes (self : Memory) (offset : Nat) (value : ByteString) : Outcome ε Memory := do
  let stop ← Rust.add offset value.length
  let self ← self.resize stop
  pure ⟨self.data.take offset ++ value ++ self.data.drop stop⟩

def size (self : Memory) : U256 := BitVec.ofNat 256 self.data.length

def copy (self : Memory) (srcOffset destOffset size : Nat) : Outcome ε Memory := do
  let srcStop ← Rust.add srcOffset size
  let destStop ← Rust.add destOffset size
  let self ← self.resize (max srcStop destStop)
  let temp ← Rust.slice self.data srcOffset srcStop
  let _ ← Rust.slice self.data destOffset destStop
  pure ⟨self.data.take destOffset ++ temp ++ self.data.drop destStop⟩

def words (byteSize : Nat) : Outcome ε Nat := do
  let sum ← Rust.add byteSize WORD_SIZE
  let sum ← Rust.sub sum 1
  pure (sum / WORD_SIZE)

def cost (sizeWord : Nat) : Outcome ε Nat := do
  let square ← Rust.mul sizeWord sizeWord
  let linear ← Rust.mul 3 sizeWord
  Rust.add (square / 512) linear

def expansionCost (self : Memory) (memoryByteSize : Nat) : Outcome ε Nat := do
  if memoryByteSize ≤ self.data.length then pure 0 else
  let newMemorySizeWord ← words memoryByteSize
  let newMemoryCost ← cost newMemorySizeWord
  let lastMemorySizeWord ← words self.data.length
  let lastMemoryCost ← cost lastMemorySizeWord
  Rust.sub newMemoryCost lastMemoryCost

end Memory

/-! ## `call_frame.rs` -/

structure Log where
  address : Address
  topics : List (FixedBytes 4)
  data : ByteString
  deriving DecidableEq

structure CallFrame where
  gas : U256
  pc : Nat
  msgSender : Address
  recipient : Address
  codeAddress : Address
  delegate : Option Address
  bytecode : ByteString
  msgValue : U256
  stack : List U256
  memory : Memory
  calldata : ByteString
  returndata : ByteString
  returnDataOffset : Option Nat
  returnDataSize : Option Nat
  isStatic : Bool
  transientStorage : HashMap (Address × U256) U256
  logs : List Log

namespace CallFrame

def zeroAddress : Address := ⟨List.replicate 20 0, rfl⟩

def new (gas : U256) (msgSender recipient codeAddress : Address) (delegate : Option Address)
    (bytecode : ByteString) (msgValue : U256) (calldata : ByteString) (isStatic : Bool) : CallFrame where
  gas := gas
  pc := 0
  msgSender := msgSender
  recipient := recipient
  codeAddress := codeAddress
  delegate := delegate
  bytecode := bytecode
  msgValue := msgValue
  stack := []
  memory := Memory.new
  calldata := calldata
  returndata := []
  returnDataOffset := none
  returnDataSize := none
  isStatic := isStatic
  transientStorage := ∅
  logs := []

def newFromBytecode (bytecode : ByteString) : CallFrame :=
  new 0 zeroAddress zeroAddress zeroAddress none bytecode 0 [] false

variable {ε : Type}

def opcodeAt (self : CallFrame) (offset : Nat) : Outcome ε (Option Opcode) :=
  match self.bytecode[offset]? with
  | some byte => some <$> Opcode.ofByte byte
  | none => .ok none

def incrementPcBy (self : CallFrame) (count : Nat) : Outcome ε CallFrame := do
  let pc ← Rust.add self.pc count
  pure { self with pc := pc }

def nextOpcode (self : CallFrame) : Outcome ε (Option Opcode × CallFrame) := do
  let opcode ← self.opcodeAt self.pc
  let self ← self.incrementPcBy 1
  pure (opcode, self)

def asUsize (value : U256) : Outcome ε Nat :=
  if value.toNat < Rust.wordSize then .ok value.toNat
  else Outcome.panic "Integer overflow when casting to usize"

def validJump (self : CallFrame) (jumpAddress : U256) : Outcome ε Bool := do
  let opcode ← self.opcodeAt (← asUsize jumpAddress)
  pure (opcode == some .JUMPDEST)

def jump (self : CallFrame) (jumpAddress : U256) : Outcome ε CallFrame := do
  if !(← self.validJump jumpAddress) then Outcome.panic "Invalid jump" else
  let pc ← asUsize jumpAddress
  pure { self with pc := pc }

end CallFrame
end EthereumRust.Levm
