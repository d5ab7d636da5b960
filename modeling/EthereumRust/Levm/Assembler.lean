import Mathlib.Data.Nat.Size
import Mathlib.Tactic.FinCases
import EthereumRust.Levm.Padding

/-! # The assembler: `crates/levm/src/operations.rs`

The code of a list of operations is taken apart again by the way the machine fetches: an
opcode, and the bytes behind a `PUSH`. -/

namespace EthereumRust.Levm

open Rlp (U256)
open List Outcome Rust
open Mpt (Keccak256)

variable {ε : Type}

/-! ## Operations -/

inductive Operation where
  | Stop | Add | Mul | Sub | Div | Sdiv | Mod | SMod | Addmod | Mulmod | Exp | SignExtend | Lt | Gt | Slt | Sgt | Eq
  | IsZero | And | Or | Xor | Not | Byte | Shl | Shr | Sar | Keccak256 | CallDataLoad | CallDataSize | CallDataCopy
  | ReturnDataSize | ReturnDataCopy | BlockHash | Coinbase | Timestamp | Number | Prevrandao | Gaslimit | Chainid
  | SelfBalance | Basefee | BlobHash | BlobBaseFee | Pop | Mload | Mstore | Mstore8 | Sload | Sstore | Jump | Jumpi
  | PC | Msize | Gas | Jumpdest | Tload | Tstore | Mcopy | Push0 | Call | CallCode | Return | DelegateCall
  | StaticCall
  | Push32 (value : U256) | Push (n : UInt8) (value : U256) | Dup (n : UInt8) | Swap (n : UInt8) | Log (n : UInt8)
  deriving DecidableEq

def Opcode.toByte : Opcode → UInt8
  | STOP => 0x00 | ADD => 0x01 | MUL => 0x02 | SUB => 0x03 | DIV => 0x04 | SDIV => 0x05 | MOD => 0x06 | SMOD => 0x07
  | ADDMOD => 0x08 | MULMOD => 0x09 | EXP => 0x0A | SIGNEXTEND => 0x0B | LT => 0x10 | GT => 0x11 | SLT => 0x12
  | SGT => 0x13 | EQ => 0x14 | ISZERO => 0x15 | AND => 0x16 | OR => 0x17 | XOR => 0x18 | NOT => 0x19 | BYTE => 0x1A
  | SHL => 0x1B | SHR => 0x1C | SAR => 0x1D | KECCAK256 => 0x20 | CALLDATALOAD => 0x35 | CALLDATASIZE => 0x36
  | CALLDATACOPY => 0x37 | RETURNDATASIZE => 0x3D | RETURNDATACOPY => 0x3E | BLOCKHASH => 0x40 | COINBASE => 0x41
  | TIMESTAMP => 0x42 | NUMBER => 0x43 | PREVRANDAO => 0x44 | GASLIMIT => 0x45 | CHAINID => 0x46 | SELFBALANCE => 0x47
  | BASEFEE => 0x48 | BLOBHASH => 0x49 | BLOBBASEFEE => 0x4A | POP => 0x50 | MLOAD => 0x51 | MSTORE => 0x52
  | MSTORE8 => 0x53 | SLOAD => 0x54 | SSTORE => 0x55 | JUMP => 0x56 | JUMPI => 0x57 | PC => 0x58 | MSIZE => 0x59
  | GAS => 0x5A | JUMPDEST => 0x5B | TLOAD => 0x5C | TSTORE => 0x5D | MCOPY => 0x5E | PUSH0 => 0x5F | CALL => 0xF1
  | CALLCODE => 0xF2 | RETURN => 0xF3 | DELEGATECALL => 0xF4 | STATICCALL => 0xFA
  | PUSH n => UInt8.ofNat (0x60 + n) | PUSH32 => 0x7F | DUP n => UInt8.ofNat (0x80 + n)
  | SWAP n => UInt8.ofNat (0x90 + n) | LOG n => UInt8.ofNat (0xA0 + n)

namespace Operation

local instance neZeroSixteen : NeZero 16 := ⟨by decide⟩

def pushOpcode (n : UInt8) : Opcode :=
  if n = 0 then .PUSH0 else if n = 32 then .PUSH32 else .PUSH (Fin.ofNat 31 (n.toNat - 1))

def opcode : Operation → Opcode
  | Stop => .STOP | Add => .ADD | Mul => .MUL | Sub => .SUB | Div => .DIV | Sdiv => .SDIV | Mod => .MOD
  | SMod => .SMOD | Addmod => .ADDMOD | Mulmod => .MULMOD | Exp => .EXP | SignExtend => .SIGNEXTEND | Lt => .LT
  | Gt => .GT | Slt => .SLT | Sgt => .SGT | Eq => .EQ | IsZero => .ISZERO | And => .AND | Or => .OR | Xor => .XOR
  | Not => .NOT | Byte => .BYTE | Shl => .SHL | Shr => .SHR | Sar => .SAR | Keccak256 => .KECCAK256
  | CallDataLoad => .CALLDATALOAD | CallDataSize => .CALLDATASIZE | CallDataCopy => .CALLDATACOPY
  | ReturnDataSize => .RETURNDATASIZE | ReturnDataCopy => .RETURNDATACOPY | BlockHash => .BLOCKHASH
  | Coinbase => .COINBASE | Timestamp => .TIMESTAMP | Number => .NUMBER | Prevrandao => .PREVRANDAO
  | Gaslimit => .GASLIMIT | Chainid => .CHAINID | SelfBalance => .SELFBALANCE | Basefee => .BASEFEE
  | BlobHash => .BLOBHASH | BlobBaseFee => .BLOBBASEFEE | Pop => .POP | Mload => .MLOAD | Mstore => .MSTORE
  | Mstore8 => .MSTORE8 | Sload => .SLOAD | Sstore => .SSTORE | Jump => .JUMP | Jumpi => .JUMPI | PC => .PC
  | Msize => .MSIZE | Gas => .GAS | Jumpdest => .JUMPDEST | Tload => .TLOAD | Tstore => .TSTORE | Mcopy => .MCOPY
  | Push0 => .PUSH0 | Call => .CALL | CallCode => .CALLCODE | Return => .RETURN | DelegateCall => .DELEGATECALL
  | StaticCall => .STATICCALL
  | Push32 _ => .PUSH32
  | Push n _ => pushOpcode n
  | Dup n => .DUP (Fin.ofNat 16 (n.toNat - 1))
  | Swap n => .SWAP (Fin.ofNat 16 (n.toNat - 1))
  | Log n => .LOG (Fin.ofNat 5 n.toNat)

def pushed : Operation → Option U256
  | Push0 => some 0
  | Push32 value | Push _ value => some value
  | _ => none

end Operation

/-! ## Fetching -/

namespace CallFrame

def readPush (self : CallFrame) (nBytes : Nat) (message : String) : Outcome ε (Option U256 × CallFrame) := do
  let stop ← Rust.add self.pc nBytes
  if stop ≤ self.bytecode.length then
    let frame ← self.incrementPcBy nBytes
    pure (some (wordOfBytes ((self.bytecode.take stop).drop self.pc)), frame)
  else Outcome.panic message

def immediate (self : CallFrame) : Opcode → Outcome ε (Option U256 × CallFrame)
  | .PUSH0 => .ok (some 0, self)
  | .PUSH n => self.readPush (n + 1) "invalid bytecode"
  | .PUSH32 => self.readPush WORD_SIZE "called `Option::unwrap()` on a `None` value"
  | _ => .ok (none, self)

end CallFrame

/-! ## Bytes of operations -/

variable {op : Operation} {ops : List Operation} {frame : CallFrame}

def Opcode.word (bytes : ByteString) : Opcode → Option U256
  | .PUSH0 => some 0
  | .PUSH _ | .PUSH32 => some (wordOfBytes bytes)
  | _ => none

def Operation.Spells (op : Operation) (bytes : ByteString) : Prop :=
  ∃ word, bytes = op.opcode.toByte :: word ∧ word.length = op.opcode.immediate ∧ op.opcode.word word = op.pushed

end EthereumRust.Levm
