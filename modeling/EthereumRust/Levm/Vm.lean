import EthereumRust.Lib.Ensures
import EthereumRust.Levm.Word
import EthereumRust.Trie.NodeHash

/-! # `crates/levm/src/vm.rs`: the interpreter

A round of the loop of `VM::execute` runs the instruction of the next opcode, which says
whether the loop goes on. Instructions that differ in their cost and in the word they
compute are one program with parameters. -/

namespace EthereumRust.Levm
open GasCost

open Rlp (Address H256 U256 FixedBytes)
open Mpt (Keccak256 digest)
open Exec (Flow)

/-! ## State -/

structure StorageSlot where
  originalValue : U256
  currentValue : U256
  deriving DecidableEq

structure Account where
  balance : U256
  bytecode : ByteString
  nonce : Nat
  storage : HashMap U256 StorageSlot

namespace Account

def new (balance : U256) (bytecode : ByteString) : Account := ⟨balance, bytecode, 0, ∅⟩

def empty : Account := new 0 []

def isEmpty (self : Account) : Bool := self.balance == 0 && self.nonce == 0 && self.bytecode.isEmpty

end Account

structure Db where
  accounts : HashMap Address Account
  blockHashes : HashMap U256 H256

namespace Db

def readAccountStorage (self : Db) (address : Address) (key : U256) : Option StorageSlot := do
  let account ← self.accounts.lookup address
  account.storage.lookup key

def writeAccountStorage (self : Db) (address : Address) (key : U256) (slot : StorageSlot) : Db :=
  let account := (self.accounts.lookup address).getD Account.empty
  { self with accounts := self.accounts.insert address { account with storage := account.storage.insert key slot } }

def getAccountBytecode (self : Db) (address : Address) : ByteString :=
  (self.accounts.lookup address).elim [] Account.bytecode

def balance (self : Db) (address : Address) : U256 := (self.accounts.lookup address).elim 0 Account.balance

end Db

/-- The frames are those below the current one, the youngest first. -/
structure VM where
  callFrames : List CallFrame
  blockEnv : BlockEnv
  db : Db
  gasLimit : Nat
  consumedGas : Nat
  warmAddresses : Finset Address

def VM.new (bytecode : ByteString) (address : Address) (balance : U256) : VM where
  callFrames := [CallFrame.newFromBytecode bytecode]
  blockEnv := BlockEnv.default
  db := ⟨AList.singleton address (Account.new balance bytecode), ∅⟩
  gasLimit := 2 ^ 63 - 1
  consumedGas := TX_BASE_COST
  warmAddresses := {address}

/-- What the loop uses of the copy of the machine that stands for the transaction. -/
structure TxEnv where
  gasLimit : Nat
  consumedGas : Nat

structure Machine where
  vm : VM
  txEnv : TxEnv
  frame : CallFrame

/-- Programs of the loop. They fail only by a panic. -/
abbrev Levm := Exec Machine Empty

/-! ## Access to the state -/

def checked {α : Type} (x : Outcome Empty α) : Levm α := liftM x

def pop : Levm U256 := do
  match (← Exec.get).frame.stack with
  | [] => Exec.panic "called `Option::unwrap()` on a `None` value"
  | value :: rest =>
    Exec.modify fun m => { m with frame := { m.frame with stack := rest } }
    pure value

def push (value : U256) : Levm Unit :=
  Exec.modify fun m => { m with frame := { m.frame with stack := value :: m.frame.stack } }

def popUsize : Levm Nat := do
  let value ← pop
  checked (Word.toUsize value)

def onFrame (f : CallFrame → Outcome Empty CallFrame) : Levm Unit := do
  let frame ← checked (f (← Exec.get).frame)
  Exec.modify fun m => { m with frame := frame }

def onMemory {α : Type} (f : Memory → Outcome Empty (α × Memory)) : Levm α := do
  let (a, memory) ← checked (f (← Exec.get).frame.memory)
  Exec.modify fun m => { m with frame := { m.frame with memory := memory } }
  pure a

def storeBytes (offset : Nat) (value : ByteString) : Levm Unit :=
  onMemory fun memory => (fun memory => ((), memory)) <$> memory.storeBytes offset value

def expansionCost (memoryByteSize : Nat) : Levm Nat := do
  checked ((← Exec.get).frame.memory.expansionCost memoryByteSize)

/-- `tx_env.consumed_gas + cost > tx_env.gas_limit` -/
def exceeds (cost : Nat) : Levm Bool := do
  let txEnv := (← Exec.get).txEnv
  let sum ← checked (Rust.add txEnv.consumedGas cost)
  pure (decide (sum > txEnv.gasLimit))

def charge (cost : Nat) : Levm Unit := do
  let sum ← checked (Rust.add (← Exec.get).txEnv.consumedGas cost)
  Exec.modify fun m => { m with txEnv := { m.txEnv with consumedGas := sum } }

/-! ## Families of instructions -/

def metered (cost : Nat) (body : Levm Unit) : Levm Flow := do
  if ← exceeds cost then pure .stop else
  body
  charge cost
  pure .next

def pushing (cost : Nat) (f : Machine → Outcome Empty U256) : Levm Flow := metered cost do
  let value ← checked (f (← Exec.get))
  push value

def unary (cost : Nat) (f : Machine → U256 → Outcome Empty U256) : Levm Flow := metered cost do
  let operand ← pop
  let value ← checked (f (← Exec.get) operand)
  push value

def binary (cost : Nat) (f : U256 → U256 → U256) : Levm Flow := metered cost do
  let a ← pop
  let b ← pop
  push (f a b)

/-- Division by zero pushes zero and is not charged. -/
def dividing (cost : Nat) (f : U256 → U256 → Outcome Empty U256) : Levm Flow := do
  if ← exceeds cost then pure .stop else
  let dividend ← pop
  let divisor ← pop
  if divisor = 0 then
    push 0
    pure .next
  else
    let value ← checked (f dividend divisor)
    push value
    charge cost
    pure .next

def modular (cost : Nat) (f : U256 → U256 → U256 → U256) : Levm Flow := do
  if ← exceeds cost then pure .stop else
  let a ← pop
  let b ← pop
  let divisor ← pop
  if divisor = 0 then
    push 0
    pure .next
  else
    push (f a b divisor)
    charge cost
    pure .next

def unfinished (cost : Nat) (message : String) : Levm Flow := do
  if ← exceeds cost then pure .stop else
  charge cost
  Exec.panic ("not yet implemented: " ++ message)

/-- `CALLDATACOPY` and `RETURNDATACOPY`: the charge comes before the copy. -/
def copyToMemory (static dynamicBase : Nat) (source : CallFrame → ByteString) : Levm Flow := do
  let destOffset ← popUsize
  let sourceOffset ← popUsize
  let size ← popUsize
  let minimumWordSize ← checked (Memory.words size)
  let stop ← checked (Rust.add destOffset size)
  let memoryExpansionCost ← expansionCost stop
  let dynamic ← checked (Rust.mul dynamicBase minimumWordSize)
  let gasCost ← checked (Rust.add static dynamic)
  let gasCost ← checked (Rust.add gasCost memoryExpansionCost)
  if ← exceeds gasCost then pure .stop else
  charge gasCost
  if size = 0 then pure .next else
  let sourceStop ← checked (Rust.add sourceOffset size)
  let data ← checked (Rust.slice (source (← Exec.get).frame) sourceOffset sourceStop)
  storeBytes destOffset data
  pure .next

/-! ## Instructions of their own -/

def exp : Levm Flow := do
  let base ← pop
  let exponent ← pop
  let exponentByteSize := (Word.bits exponent + 7) / 8
  let gasCost := EXP_STATIC + EXP_DYNAMIC_BASE * exponentByteSize
  metered gasCost (push (Word.pow base exponent))

def keccak256 [Keccak256] : Levm Flow := do
  let offset ← popUsize
  let size ← popUsize
  let minimumWordSize ← checked (Memory.words size)
  let stop ← checked (Rust.add offset size)
  let memoryExpansionCost ← expansionCost stop
  let dynamic ← checked (Rust.mul KECCAK25_DYNAMIC_BASE minimumWordSize)
  let gasCost ← checked (Rust.add KECCAK25_STATIC dynamic)
  let gasCost ← checked (Rust.add gasCost memoryExpansionCost)
  metered gasCost do
    let valueBytes ← onMemory fun memory => memory.loadRange offset size
    push (wordOfBytes (digest valueBytes).1)

def calldataload (frame : CallFrame) (offset : U256) : Outcome Empty U256 := do
  let offset ← Word.toUsize offset
  let stop ← Rust.add offset 32
  let bytes ← Rust.slice frame.calldata offset stop
  pure (wordOfBytes bytes)

/-- The hash of one of the last 256 blocks, as a word; zero for any other number. -/
def blockHashAt (vm : VM) (blockNumber : U256) : U256 :=
  if blockNumber.toNat < vm.blockEnv.number.toNat - LAST_AVAILABLE_BLOCK_LIMIT ∨
      blockNumber ≥ vm.blockEnv.number then 0
  else (vm.db.blockHashes.lookup blockNumber).elim 0 fun blockHash => wordOfBytes blockHash.1

/-- `BLOCKHASH` charges before it looks at the number. -/
def blockhash : Levm Flow := do
  if ← exceeds BLOCKHASH then pure .stop else
  let blockNumber ← pop
  charge BLOCKHASH
  push (blockHashAt (← Exec.get).vm blockNumber)
  pure .next

def jump : Levm Flow := metered JUMP do
  let jumpAddress ← pop
  onFrame fun frame => frame.jump jumpAddress

def jumpi : Levm Flow := metered JUMPI do
  let jumpAddress ← pop
  let condition ← pop
  if condition ≠ 0 then onFrame fun frame => frame.jump jumpAddress else pure ()

/-- `PUSH1` to `PUSH32`; the message is the one for missing bytes. -/
def pushN (nBytes : Nat) (message : String) : Levm Flow := metered PUSHN do
  let frame := (← Exec.get).frame
  let stop ← checked (Rust.add frame.pc nBytes)
  if stop ≤ frame.bytecode.length then
    push (wordOfBytes ((frame.bytecode.take stop).drop frame.pc))
    onFrame fun frame => frame.incrementPcBy nBytes
  else Exec.panic message

def dupN (depth : Nat) : Levm Flow := metered DUPN do
  let stack := (← Exec.get).frame.stack
  checked (Rust.assert (depth ≤ stack.length) "stack underflow: not enough values on the stack")
  let value ← checked (Rust.expect stack[depth - 1]? "called `Option::unwrap()` on a `None` value")
  push value

def swapTop (stack : List U256) (depth : Nat) : List U256 :=
  match stack, stack[depth]? with
  | top :: rest, some value => value :: rest.set (depth - 1) top
  | stack, _ => stack

def swapN (depth : Nat) : Levm Flow := metered SWAPN do
  let stack := (← Exec.get).frame.stack
  checked (Rust.assert (depth ≤ stack.length) "stack underflow: not enough values on the stack")
  -- the index below the one at `depth`, counted from the bottom
  let _ ← checked (Rust.sub (stack.length - depth) 1)
  Exec.modify fun m => { m with frame := { m.frame with stack := swapTop m.frame.stack depth } }

def popTopics : Nat → Levm (List (FixedBytes 4))
  | 0 => pure []
  | count + 1 => do
    let topic ← pop
    let topic ← checked (Word.toTopic topic)
    let topics ← popTopics count
    pure (topic :: topics)

def logN (topicCount : Nat) : Levm Flow := do
  if (← Exec.get).frame.isStatic then Exec.panic "Cannot create log in static context" else
  let offset ← popUsize
  let size ← popUsize
  let topics ← popTopics topicCount
  let stop ← checked (Rust.add offset size)
  let memoryExpansionCost ← expansionCost stop
  let gasCost := LOGN_STATIC + LOGN_DYNAMIC_BASE * topicCount
  let dynamic ← checked (Rust.mul LOGN_DYNAMIC_BYTE_BASE size)
  let gasCost ← checked (Rust.add gasCost dynamic)
  let gasCost ← checked (Rust.add gasCost memoryExpansionCost)
  metered gasCost do
    let data ← onMemory fun memory => memory.loadRange offset size
    Exec.modify fun m => { m with frame := { m.frame with
      logs := m.frame.logs ++ [⟨m.frame.msgSender, topics, data⟩] } }

def mload : Levm Flow := do
  let offset ← popUsize
  let stop ← checked (Rust.add offset WORD_SIZE)
  let memoryExpansionCost ← expansionCost stop
  let gasCost ← checked (Rust.add MLOAD_STATIC memoryExpansionCost)
  metered gasCost do
    let value ← onMemory fun memory => memory.load offset
    push value

/-- `MSTORE` and `MSTORE8`: the low `width` bytes of a word are stored. -/
def mstoreLow (static width : Nat) : Levm Flow := do
  let offset ← popUsize
  let stop ← checked (Rust.add offset width)
  let memoryExpansionCost ← expansionCost stop
  let gasCost ← checked (Rust.add static memoryExpansionCost)
  metered gasCost do
    let value ← pop
    storeBytes offset ((bytesOfWord value).drop (WORD_SIZE - width))

/-- The account whose storage a frame uses. -/
def CallFrame.storageAddress (frame : CallFrame) : Address := frame.delegate.getD frame.codeAddress

def sload : Levm Flow := do
  let key ← pop
  let m ← Exec.get
  let slot := m.vm.db.readAccountStorage m.frame.storageAddress key
  push (slot.elim 0 StorageSlot.currentValue)
  pure .next

def sstore : Levm Flow := do
  if (← Exec.get).frame.isStatic then Exec.panic "Cannot write to storage in a static context" else
  let key ← pop
  let value ← pop
  let m ← Exec.get
  let address := m.frame.storageAddress
  let originalValue := (m.vm.db.readAccountStorage address key).elim value StorageSlot.originalValue
  Exec.modify fun m => { m with vm := { m.vm with
    db := m.vm.db.writeAccountStorage address key ⟨originalValue, value⟩ } }
  pure .next

/-- `MCOPY` charges without looking at the limit. -/
def mcopy : Levm Flow := do
  let destOffset ← popUsize
  let srcOffset ← popUsize
  let size ← popUsize
  let wordsCopied ← checked (Memory.words size)
  let srcStop ← checked (Rust.add srcOffset size)
  let destStop ← checked (Rust.add destOffset size)
  let memoryExpansionCost ← expansionCost (max srcStop destStop)
  let dynamic ← checked (Rust.mul MCOPY_DYNAMIC_BASE wordsCopied)
  let gasCost ← checked (Rust.add MCOPY_STATIC dynamic)
  let gasCost ← checked (Rust.add gasCost memoryExpansionCost)
  charge gasCost
  if size = 0 then pure .next else
  onMemory fun memory => (fun memory => ((), memory)) <$> memory.copy srcOffset destOffset size
  pure .next

def tload (m : Machine) (key : U256) : U256 :=
  (m.frame.transientStorage.lookup (m.frame.msgSender, key)).getD 0

def tstore : Levm Flow := metered TSTORE do
  let key ← pop
  let value ← pop
  Exec.modify fun m => { m with frame := { m.frame with
    transientStorage := m.frame.transientStorage.insert (m.frame.msgSender, key) value } }

/-! ## Calls -/

def genericCall (gas value : U256) (msgSender recipient codeAddress : Address) (delegate : Option Address)
    (isStatic : Bool) (argsOffset argsSize retOffset retSize : Nat) : Levm Unit := do
  let m ← Exec.get
  if m.vm.db.balance m.frame.msgSender < value then push REVERT_FOR_CALL else
  let calleeBytecode := m.vm.db.getAccountBytecode codeAddress
  if calleeBytecode.isEmpty then push SUCCESS_FOR_CALL else
  let calldata ← onMemory fun memory => memory.loadRange argsOffset argsSize
  Exec.modify fun m => { m with
    vm := { m.vm with callFrames :=
      { m.frame with returnDataOffset := some retOffset, returnDataSize := some retSize } :: m.vm.callFrames }
    frame := CallFrame.new gas msgSender recipient codeAddress delegate calleeBytecode value calldata isStatic }

/-- What `CALL` would cost. It is compared with the limit but not charged. -/
def callCost (vm : VM) (codeAddress : Address) (value : U256) (account : Account) (memoryExpansionCost : Nat) :
    Outcome Empty Nat := do
  let addressAccessCost := if codeAddress ∈ vm.warmAddresses then CallOpcode.WARM_ADDRESS_ACCESS_COST
    else CallOpcode.COLD_ADDRESS_ACCESS_COST
  let positiveValueCost := if value ≠ 0
    then CallOpcode.NON_ZERO_VALUE_COST + CallOpcode.BASIC_FALLBACK_FUNCTION_STIPEND else 0
  let valueToEmptyAccountCost := if value ≠ 0 ∧ account.isEmpty = true
    then CallOpcode.VALUE_TO_EMPTY_ACCOUNT_COST else 0
  let sum ← Rust.add memoryExpansionCost addressAccessCost
  let sum ← Rust.add sum positiveValueCost
  Rust.add sum valueToEmptyAccountCost

def call : Levm Flow := do
  let gas ← pop
  let codeAddress := Word.toAddress (← pop)
  let value ← pop
  let argsOffset ← popUsize
  let argsSize ← popUsize
  let retOffset ← popUsize
  let retSize ← popUsize
  let argsStop ← checked (Rust.add argsOffset argsSize)
  let retStop ← checked (Rust.add retOffset retSize)
  let memoryExpansionCost ← expansionCost (max argsStop retStop)
  let m ← Exec.get
  let account ← checked (Rust.expect (m.vm.db.accounts.lookup codeAddress)
    "called `Option::unwrap()` on a `None` value")
  let gasCost ← checked (callCost m.vm codeAddress value account memoryExpansionCost)
  if ← exceeds gasCost then pure .stop else
  Exec.modify fun m => { m with vm := { m.vm with warmAddresses := insert codeAddress m.vm.warmAddresses } }
  genericCall gas value m.frame.msgSender m.frame.recipient codeAddress none m.frame.isStatic
    argsOffset argsSize retOffset retSize
  pure .next

def callcode : Levm Flow := do
  let gas ← pop
  let codeAddress := Word.toAddress (← pop)
  let value ← pop
  let argsOffset ← popUsize
  let argsSize ← popUsize
  let retOffset ← popUsize
  let retSize ← popUsize
  let frame := (← Exec.get).frame
  genericCall gas value codeAddress frame.recipient codeAddress (some frame.msgSender) frame.isStatic
    argsOffset argsSize retOffset retSize
  pure .next

def delegatecall : Levm Flow := do
  let gas ← pop
  let codeAddress := Word.toAddress (← pop)
  let argsOffset ← popUsize
  let argsSize ← popUsize
  let retOffset ← popUsize
  let retSize ← popUsize
  let frame := (← Exec.get).frame
  genericCall gas frame.msgValue frame.msgSender frame.recipient codeAddress (some frame.msgSender) frame.isStatic
    argsOffset argsSize retOffset retSize
  pure .next

def staticcall : Levm Flow := do
  let gas ← pop
  let codeAddress := Word.toAddress (← pop)
  let argsOffset ← popUsize
  let argsSize ← popUsize
  let retOffset ← popUsize
  let retSize ← popUsize
  let frame := (← Exec.get).frame
  genericCall gas frame.msgValue frame.msgSender codeAddress codeAddress none true
    argsOffset argsSize retOffset retSize
  pure .next

/-- The caller's frame as it goes on after a callee returned. -/
def CallFrame.resume (parent : CallFrame) (returnData : ByteString) : CallFrame :=
  { parent with
    returndata := if parent.returnDataOffset.isSome && parent.returnDataSize.isSome then returnData
      else parent.returndata
    stack := SUCCESS_FOR_RETURN :: parent.stack
    returnDataOffset := none
    returnDataSize := none }

def return_ : Levm Flow := do
  let offset ← popUsize
  let size ← popUsize
  let stop ← checked (Rust.add offset size)
  let gasCost ← expansionCost stop
  if ← exceeds gasCost then pure .stop else
  let returnData ← onMemory fun memory => memory.loadRange offset size
  match (← Exec.get).vm.callFrames with
  | parent :: rest =>
    Exec.modify fun m => { m with vm := { m.vm with callFrames := rest }, frame := parent.resume returnData }
    charge gasCost
    pure .next
  | [] =>
    push SUCCESS_FOR_RETURN
    pure .stop

/-! ## The loop -/

section

variable [Keccak256]

/-- The arms of the match in `VM::execute`. -/
def instruction : Opcode → Levm Flow
  | .STOP => pure .stop
  | .ADD => binary ADD fun augend addend => augend + addend
  | .MUL => binary MUL fun multiplicand multiplier => multiplicand * multiplier
  | .SUB => binary SUB fun minuend subtrahend => minuend - subtrahend
  | .DIV => dividing DIV fun dividend divisor => .ok (dividend / divisor)
  | .SDIV => dividing SDIV Word.signedDiv
  | .MOD => dividing MOD fun dividend divisor => .ok (dividend % divisor)
  | .SMOD => dividing SMOD Word.signedMod
  | .ADDMOD => modular ADDMOD Word.addMod
  | .MULMOD => modular MULMOD Word.mulMod
  | .EXP => exp
  | .SIGNEXTEND => binary SIGNEXTEND Word.signExtend
  | .LT => binary LT fun lho rho => Word.ofBool (lho < rho)
  | .GT => binary GT fun lho rho => Word.ofBool (lho > rho)
  | .SLT => binary SLT fun lho rho => Word.ofBool (Word.signedLt lho rho)
  | .SGT => binary SGT fun lho rho => Word.ofBool (Word.signedGt lho rho)
  | .EQ => binary EQ fun lho rho => Word.ofBool (lho == rho)
  | .ISZERO => unary ISZERO fun _ operand => .ok (Word.ofBool (operand == 0))
  | .KECCAK256 => keccak256
  | .CALLDATALOAD => unary CALLDATALOAD fun m offset => calldataload m.frame offset
  | .CALLDATASIZE => pushing CALLDATASIZE fun m => .ok (BitVec.ofNat 256 m.frame.calldata.length)
  | .CALLDATACOPY => copyToMemory CALLDATACOPY_STATIC CALLDATACOPY_DYNAMIC_BASE CallFrame.calldata
  | .RETURNDATASIZE => pushing RETURNDATASIZE fun m => .ok (BitVec.ofNat 256 m.frame.returndata.length)
  | .RETURNDATACOPY =>
    copyToMemory RETURNDATACOPY_STATIC RETURNDATACOPY_DYNAMIC_BASE CallFrame.returndata
  | .JUMP => jump
  | .JUMPI => jumpi
  | .JUMPDEST => metered JUMPDEST (pure ())
  | .PC => pushing PC fun m => BitVec.ofNat 256 <$> Rust.sub m.frame.pc 1
  | .BLOCKHASH => blockhash
  | .COINBASE => pushing COINBASE fun m => .ok (Word.ofAddress m.vm.blockEnv.coinbase)
  | .TIMESTAMP => pushing TIMESTAMP fun m => .ok m.vm.blockEnv.timestamp
  | .NUMBER => pushing NUMBER fun m => .ok m.vm.blockEnv.number
  | .PREVRANDAO => pushing PREVRANDAO fun m =>
    .ok (m.vm.blockEnv.prevRandao.elim 0 fun randao => wordOfBytes randao.1)
  | .GASLIMIT => pushing GASLIMIT fun m => .ok (BitVec.ofNat 256 m.vm.blockEnv.gasLimit)
  | .CHAINID => pushing CHAINID fun m => .ok (BitVec.ofNat 256 m.vm.blockEnv.chainId)
  | .SELFBALANCE => unfinished SELFBALANCE "when we have accounts implemented"
  | .BASEFEE => pushing BASEFEE fun m => .ok m.vm.blockEnv.baseFeePerGas
  | .BLOBHASH => unfinished BLOBHASH "when we have tx implemented"
  | .BLOBBASEFEE => pushing BLOBBASEFEE fun m => m.vm.blockEnv.calculateBlobGasPrice
  | .PUSH0 => pushing PUSH0 fun _ => .ok 0
  | .PUSH n => pushN (n + 1) "invalid bytecode"
  | .PUSH32 => pushN WORD_SIZE "called `Option::unwrap()` on a `None` value"
  | .AND => binary AND fun a b => a &&& b
  | .OR => binary OR fun a b => a ||| b
  | .XOR => binary XOR fun a b => a ^^^ b
  | .NOT => unary NOT fun _ a => .ok (~~~a)
  | .BYTE => binary BYTE Word.byteAt
  | .SHL => binary SHL Word.shiftLeft
  | .SHR => binary SHR Word.shiftRight
  | .SAR => binary SAR Word.signedShiftRight
  | .DUP n => dupN (n + 1)
  | .SWAP n => swapN (n + 1)
  | .POP => metered POP (do let _ ← pop)
  | .LOG n => logN n
  | .MLOAD => mload
  | .MSTORE => mstoreLow MSTORE_STATIC WORD_SIZE
  | .MSTORE8 => mstoreLow MSTORE8_STATIC 1
  | .SLOAD => sload
  | .SSTORE => sstore
  | .MSIZE => pushing MSIZE fun m => .ok m.frame.memory.size
  | .GAS => pushing GAS fun m => do
    let remainingGas ← Rust.sub m.txEnv.gasLimit m.txEnv.consumedGas
    let remainingGas ← Rust.sub remainingGas GAS
    pure (BitVec.ofNat 256 remainingGas)
  | .MCOPY => mcopy
  | .CALL => call
  | .CALLCODE => callcode
  | .RETURN => return_
  | .DELEGATECALL => delegatecall
  | .STATICCALL => staticcall
  | .TLOAD => unary TLOAD fun m key => .ok (tload m key)
  | .TSTORE => tstore

def fetch : Levm Opcode := do
  let (opcode, frame) ← checked ((← Exec.get).frame.nextOpcode)
  Exec.modify fun m => { m with frame := frame }
  checked (Rust.expect opcode "called `Option::unwrap()` on a `None` value")

def step : Levm Flow := do
  let opcode ← fetch
  instruction opcode

def VM.start (self : VM) (frame : CallFrame) (rest : List CallFrame) : Machine where
  vm := { self with callFrames := rest }
  txEnv := ⟨self.gasLimit, self.consumedGas⟩
  frame := frame

def Machine.finish (m : Machine) : VM :=
  { m.vm with consumedGas := m.txEnv.consumedGas, callFrames := m.frame :: m.vm.callFrames }

/-- `VM::execute` with at most so many rounds of its loop. -/
def VM.execute (rounds : Nat) (self : VM) : Outcome Empty VM :=
  match self.callFrames with
  | [] => Outcome.panic "called `Option::unwrap()` on a `None` value"
  | frame :: rest =>
    match Exec.loop step rounds (self.start frame rest) with
    | (.ok (), m) => .ok m.finish
    | (.error e, _) => .error e

end
end EthereumRust.Levm
