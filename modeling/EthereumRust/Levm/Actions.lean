import EthereumRust.Levm.Prices

/-! # What one instruction does

Most instructions work on the stack and the memory of the current frame and pay for it.
`Act` lists the others with all they change; whatever holds of every run follows from
this list and from the bill of an instruction. -/

namespace EthereumRust.Levm

open Rlp (Address H256 U256 FixedBytes)
open Outcome Rust GasCost
open Mpt (Keccak256 digest)
open Exec (Flow Ensures Moves ensures_of_bind)

/-! ## Computations that may only panic -/

/-- A computation panics or comes back. -/
def Ends {α : Type} (x : Outcome Empty α) : Prop := Outcome.Ensures x fun _ => True

theorem ends_ok {α : Type} (a : α) : Ends (.ok a) := trivial

theorem ends_bind {α β : Type} {x : Outcome Empty α} {f : α → Outcome Empty β} (hx : Ends x)
    (hf : ∀ a, Ends (f a)) : Ends (x >>= f) :=
  ensures_bind.mpr (hx.mono fun a _ => hf a)

theorem Ends.ensures {α : Type} {x : Outcome Empty α} {Q : α → Prop} (h : Ends x) (hQ : ∀ a, x = .ok a → Q a) :
    Outcome.Ensures x Q := by
  rcases x with (e | m | _) | a
  · exact e.elim
  · trivial
  · exact h
  · exact hQ a rfl

theorem ends_expansionCost (memory : Memory) (n : Nat) : Ends (memory.expansionCost n) := by
  simp [Ends, Memory.expansionCost, Memory.words, Memory.cost, ensures_ite]

theorem ends_loadRange (memory : Memory) (offset size : Nat) : Ends (memory.loadRange offset size) :=
  (memory.ensures_loadRange offset size).mono fun _ _ => trivial

theorem ends_signedDiv (dividend divisor : U256) : Ends (Word.signedDiv dividend divisor) := by
  simp [Ends, Word.signedDiv, Word.magnitude, Word.negate, Word.add, ensures_ite]

theorem ends_signedMod (dividend divisor : U256) : Ends (Word.signedMod dividend divisor) := by
  simp [Ends, Word.signedMod, Word.magnitude, Word.negate, Word.add, ensures_ite]

theorem ends_calldataload (frame : CallFrame) (offset : U256) : Ends (calldataload frame offset) := by
  simp [Ends, calldataload, Word.toUsize, ensures_ite]

theorem ends_callCost (vm : VM) (codeAddress : Address) (value : U256) (account : Account) (n : Nat) :
    Ends (callCost vm codeAddress value account n) := by
  simp [Ends, callCost]

theorem ends_u128Mul (a b : Nat) : Ends (u128Mul a b) := by simp [Ends, u128Mul, ensures_ite]

theorem ensures_u128Add {Q : Nat → Prop} :
    Outcome.Ensures (u128Add a b : Outcome Empty Nat) Q ↔ (a + b < u128Size → Q (a + b)) := by
  simp [u128Add, ensures_ite]

/-- Every round adds at least one to the output. -/
theorem ends_fakeExponentialFrom (numerator denominator : Nat)
    (hout : output < u128Size) (hrounds : u128Size < rounds + output) :
    Ends (fakeExponentialFrom numerator denominator rounds i output numeratorAccum) := by
  induction rounds generalizing i output numeratorAccum with
  | zero => omega
  | succ rounds ih =>
    rw [fakeExponentialFrom]
    split
    · trivial
    · refine ensures_bind.mpr (ensures_u128Add.mpr fun hsum => ?_)
      refine ends_bind (ends_u128Mul _ _) fun product => ends_bind (ends_u128Mul _ _) fun divisor => ?_
      exact ensures_bind.mpr (ensures_u128Add.mpr fun _ => ih hsum (by omega))

theorem ends_calculateBlobGasPrice (env : BlockEnv) : Ends env.calculateBlobGasPrice := by
  refine ends_bind (by simp [Ends, BlockEnv.calcExcessBlobGas]) fun excessBlobGas => ?_
  refine ends_bind ?_ fun _ => trivial
  refine ends_bind (by simp [Ends]) fun _ => ends_bind (ends_u128Mul _ _) fun _ => ?_
  exact ends_fakeExponentialFrom _ _ (by decide) (by omega)

/-! ## Opcodes -/

def Opcode.immediate : Opcode → Nat
  | .PUSH n => n + 1
  | .PUSH32 => WORD_SIZE
  | _ => 0

/-- Opcodes that work on the stack and the memory of the frame, and on nothing else. -/
def Opcode.isPlain : Opcode → Bool
  | .STOP | .JUMP | .SLOAD | .SSTORE | .TSTORE | .LOG _ => false
  | .CALL | .CALLCODE | .DELEGATECALL | .STATICCALL | .RETURN => false
  | _ => true

/-- Such an opcode without bytes of its own. -/
structure Opcode.Plain (opcode : Opcode) : Prop where
  isPlain : opcode.isPlain = true
  immediate : opcode.immediate = 0

/-- The bytes behind an opcode, by the byte of the opcode: only `PUSH1` to `PUSH32` have such bytes. -/
def immediateBytes (byte : UInt8) : Nat :=
  if 0x60 ≤ byte.toNat ∧ byte.toNat ≤ 0x7F then byte.toNat - 0x5F else 0

theorem ofByte_ensures (byte : UInt8) : Outcome.Ensures (Opcode.ofByte byte : Outcome Empty _) fun opcode =>
    opcode.immediate = immediateBytes byte ∧ (opcode = .JUMPDEST → byte = 0x5B) := by
  rcases eq_or_ne byte 0x7F with rfl | hbyte
  · exact ⟨rfl, nofun⟩
  unfold Opcode.ofByte
  split
  all_goals first | exact ⟨rfl, fun _ => rfl⟩ | exact ⟨rfl, nofun⟩ | skip
  -- the numbered families
  iterate 4
    split
    · exact ⟨by simp only [Opcode.immediate, immediateBytes]; split <;> omega, nofun⟩
  trivial

theorem ends_opcodeAt (frame : CallFrame) (offset : Nat) : Ends (frame.opcodeAt offset) := by
  rw [CallFrame.opcodeAt]
  split
  · exact ensures_map.mpr ((ofByte_ensures _).mono fun _ _ => trivial)
  · trivial

/-! ## Access to the state -/

def Machine.withStack (m : Machine) (stack : List U256) : Machine :=
  { m with frame := { m.frame with stack := stack } }

def Machine.work (m : Machine) (stack : List U256) (memory : Memory) : Machine :=
  { m with frame := { m.frame with stack := stack, memory := memory } }

def Machine.charged (m : Machine) (cost : Nat) : Machine :=
  { m with txEnv := { m.txEnv with consumedGas := m.txEnv.consumedGas + cost } }

def Machine.goTo (m : Machine) (pc : Nat) : Machine := { m with frame := { m.frame with pc := pc } }

/-- The gas is enough, and its counter does not overflow. -/
structure Machine.Affords (m : Machine) (cost : Nat) : Prop where
  limit : m.txEnv.consumedGas + cost ≤ m.txEnv.gasLimit
  fits : m.txEnv.consumedGas + cost < Rust.wordSize

section

variable {α β : Type}

@[simp] theorem ensures_checked {x : Outcome Empty β} :
    Ensures (checked x) m Q ↔ Outcome.Ensures x fun a => Q a m := Iff.rfl

@[simp] theorem ensures_pop {Q : U256 → Machine → Prop} :
    Ensures pop m Q ↔ ∀ value rest, m.frame.stack = value :: rest →
      Q value (m.withStack rest) := by
  rw [pop, Exec.ensures_bind, Exec.ensures_get]
  cases m.frame.stack with
  | nil => simp
  | cons value rest => simp [Machine.withStack]

@[simp] theorem ensures_push {Q : Unit → Machine → Prop} :
    Ensures (push value) m Q ↔ Q () (m.withStack (value :: m.frame.stack)) := Iff.rfl

@[simp] theorem ensures_exceeds {Q : Bool → Machine → Prop} :
    Ensures (exceeds cost) m Q ↔ (m.txEnv.consumedGas + cost < wordSize →
      Q (decide (m.txEnv.consumedGas + cost > m.txEnv.gasLimit)) m) := by
  simp [exceeds]

@[simp] theorem ensures_charge {Q : Unit → Machine → Prop} :
    Ensures (charge cost) m Q ↔ (m.txEnv.consumedGas + cost < wordSize →
      Q () (m.charged cost)) := by
  simp [charge, Machine.charged]

/-! What follows each access. -/

theorem ensures_got {f : Machine → Levm β} (h : Ensures (f m) m Q) : Ensures (Exec.get >>= f) m Q :=
  Exec.ensures_bind.mpr h

theorem ensures_try {x : Outcome Empty α} {f : α → Levm β} (h : Outcome.Ensures x fun a => Ensures (f a) m Q) :
    Ensures (checked x >>= f) m Q :=
  Exec.ensures_bind.mpr h

theorem ensures_sum {f : Nat → Levm β} (h : a + b < wordSize → Ensures (f (a + b)) m Q) :
    Ensures (checked (Rust.add a b) >>= f) m Q :=
  ensures_try (ensures_add.mpr h)

theorem ensures_product {f : Nat → Levm β} (h : a * b < wordSize → Ensures (f (a * b)) m Q) :
    Ensures (checked (Rust.mul a b) >>= f) m Q :=
  ensures_try (ensures_mul.mpr h)

theorem ensures_pay {f : Unit → Levm β}
    (h : m.txEnv.consumedGas + cost < wordSize → Ensures (f ()) (m.charged cost) Q) :
    Ensures (charge cost >>= f) m Q :=
  Exec.ensures_bind.mpr (ensures_charge.mpr h)

theorem ensures_growth {f : Nat → Levm β}
    (h : ∀ charge, (m.frame.memory.expansionCost stop : Outcome Empty Nat) = .ok charge → Ensures (f charge) m Q) :
    Ensures (expansionCost stop >>= f) m Q :=
  Exec.ensures_bind.mpr (ensures_got ((ends_expansionCost _ stop).ensures h))

theorem ensures_onMemory {f : Memory → Outcome Empty (β × Memory)}
    (h : Outcome.Ensures (f m.frame.memory) fun r => Q r.1 (m.work m.frame.stack r.2)) : Ensures (onMemory f) m Q :=
  ensures_got (ensures_try h)

theorem ensures_memory {g : Memory → Outcome Empty (α × Memory)} {f : α → Levm β}
    (h : Outcome.Ensures (g m.frame.memory) fun r => Ensures (f r.1) (m.work m.frame.stack r.2) Q) :
    Ensures (onMemory g >>= f) m Q :=
  Exec.ensures_bind.mpr (ensures_onMemory h)

theorem ensures_storeBytes {Q : Unit → Machine → Prop}
    (h : ∀ memory, m.frame.memory.Serves (.storeBytes offset value) .done memory →
      Q () (m.work m.frame.stack memory)) : Ensures (storeBytes offset value) m Q :=
  ensures_onMemory (ensures_map.mpr ((m.frame.memory.ensures_storeBytes offset value).mono h))

theorem ensures_take {f : U256 → Levm β}
    (h : ∀ a stack, m.frame.stack = a :: stack → Ensures (f a) (m.withStack stack) Q) : Ensures (pop >>= f) m Q :=
  Exec.ensures_bind.mpr (ensures_pop.mpr h)

theorem ensures_take₂ {f : U256 → U256 → Levm β}
    (h : ∀ a b stack, m.frame.stack = a :: b :: stack → Ensures (f a b) (m.withStack stack) Q) :
    Ensures (do let a ← pop; let b ← pop; f a b) m Q := by
  refine ensures_take fun a rest hrest => ensures_take fun b stack hstack => h a b stack ?_
  obtain rfl : rest = b :: stack := hstack
  exact hrest

theorem ensures_take₃ {f : U256 → U256 → U256 → Levm β}
    (h : ∀ a b c stack, m.frame.stack = a :: b :: c :: stack → Ensures (f a b c) (m.withStack stack) Q) :
    Ensures (do let a ← pop; let b ← pop; let c ← pop; f a b c) m Q := by
  refine ensures_take₂ fun a b rest hrest => ensures_take fun c stack hstack => h a b c stack ?_
  obtain rfl : rest = c :: stack := hstack
  exact hrest

theorem ensures_size {f : Nat → Levm β}
    (h : ∀ a stack, m.frame.stack = a :: stack → a.toNat < wordSize → Ensures (f a.toNat) (m.withStack stack) Q) :
    Ensures (popUsize >>= f) m Q := by
  rw [Exec.ensures_bind]
  exact ensures_take fun a stack hstack => ensures_ite.mpr ⟨h a stack hstack, fun _ => trivial⟩

theorem ensures_size₂ {f : Nat → Nat → Levm β}
    (h : ∀ a b stack, m.frame.stack = a :: b :: stack → Ensures (f a.toNat b.toNat) (m.withStack stack) Q) :
    Ensures (do let a ← popUsize; let b ← popUsize; f a b) m Q := by
  refine ensures_size fun a rest hrest _ => ensures_size fun b stack hstack _ => h a b stack ?_
  obtain rfl : rest = b :: stack := hstack
  exact hrest

theorem ensures_size₃ {f : Nat → Nat → Nat → Levm β}
    (h : ∀ a b c stack, m.frame.stack = a :: b :: c :: stack → b.toNat < wordSize →
      Ensures (f a.toNat b.toNat c.toNat) (m.withStack stack) Q) :
    Ensures (do let a ← popUsize; let b ← popUsize; let c ← popUsize; f a b c) m Q := by
  refine ensures_size fun a rest hrest _ => ensures_size fun b rest' hrest' hb => ensures_size fun c stack hstack _ =>
    h a b c stack ?_ hb
  obtain rfl : rest = b :: rest' := hrest'
  obtain rfl : rest' = c :: stack := hstack
  exact hrest

theorem ensures_exceeds_else {x : Levm Flow} {Q : Flow → Machine → Prop} (hstop : Q .stop m)
    (hx : m.Affords cost → Ensures x m Q) :
    Ensures (exceeds cost >>= fun exceeded => if exceeded = true then pure .stop else x) m Q := by
  refine Exec.ensures_bind.mpr (ensures_exceeds.mpr fun hfits => ?_)
  split
  · exact hstop
  · rename_i hexceeded
    exact hx ⟨by simpa using hexceeded, hfits⟩

theorem ensures_metered {body : Levm Unit} {Q : Flow → Machine → Prop} (hstop : Q .stop m)
    (hbody : m.Affords cost → Ensures body m fun _ m' => Q .next (m'.charged cost)) :
    Ensures (metered cost body) m Q := by
  refine ensures_exceeds_else hstop fun hafford => ?_
  exact ensures_of_bind (hbody hafford) fun _ m' h => ensures_pay fun _ => h

end

/-! ## Instructions that pay for their work -/

/-- The machine stops, or its work is paid for. `MCOPY` pays without a look at the limit. -/
inductive Spends (m : Machine) (opcode : Opcode) : Flow → Machine → Prop
  | halts (stack : List U256) (memory : Memory) : (opcode ≠ .RETURN → memory = m.frame.memory) →
      Spends m opcode .stop (m.work stack memory)
  | works (stack : List U256) (memory : Memory) (cost : Nat) : opcode.isPlain = true → 0 < cost →
      m.txEnv.consumedGas + cost < Rust.wordSize →
      (opcode ≠ .MCOPY → m.txEnv.consumedGas + cost ≤ m.txEnv.gasLimit) →
      Spends m opcode .next (((m.work stack memory).goTo (m.frame.pc + opcode.immediate)).charged cost)

/-! ## Calls -/

inductive CallKind where
  | call | callcode | delegatecall | staticcall
  deriving DecidableEq

structure CallOperands where
  gas : U256
  address : U256
  value : U256
  argsOffset : U256
  argsSize : U256
  retOffset : U256
  retSize : U256

namespace CallKind

def opcode : CallKind → Opcode
  | call => .CALL
  | callcode => .CALLCODE
  | delegatecall => .DELEGATECALL
  | staticcall => .STATICCALL

def arity : CallKind → Nat
  | call | callcode => 7
  | delegatecall | staticcall => 6

def words (kind : CallKind) (operands : CallOperands) : List U256 :=
  let ranges := [operands.argsOffset, operands.argsSize, operands.retOffset, operands.retSize]
  match kind with
  | call | callcode => operands.gas :: operands.address :: operands.value :: ranges
  | delegatecall | staticcall => operands.gas :: operands.address :: ranges

@[simp] theorem length_words (kind : CallKind) (operands : CallOperands) :
    (kind.words operands).length = kind.arity := by
  cases kind <;> rfl

def callee (kind : CallKind) (caller : CallFrame) (operands : CallOperands) (bytecode calldata : ByteString) :
    CallFrame :=
  let codeAddress := Word.toAddress operands.address
  match kind with
  | call => CallFrame.new operands.gas caller.msgSender caller.recipient codeAddress none bytecode operands.value
      calldata caller.isStatic
  | callcode => CallFrame.new operands.gas codeAddress caller.recipient codeAddress (some caller.msgSender) bytecode
      operands.value calldata caller.isStatic
  | delegatecall => CallFrame.new operands.gas caller.msgSender caller.recipient codeAddress (some caller.msgSender)
      bytecode caller.msgValue calldata caller.isStatic
  | staticcall => CallFrame.new operands.gas caller.msgSender codeAddress codeAddress none bytecode caller.msgValue
      calldata true

end CallKind

/-- A call that starts a frame: its operands, what is left on the caller's stack, and the arguments
with the caller's memory, which covers them. -/
structure Entry where
  kind : CallKind
  operands : CallOperands
  stack : List U256
  calldata : ByteString
  memory : Memory

structure Entry.Of (entry : Entry) (m : Machine) : Prop where
  stack : m.frame.stack = entry.kind.words entry.operands ++ entry.stack
  load : m.frame.memory.loadRange entry.operands.argsOffset.toNat entry.operands.argsSize.toNat
    = (.ok (entry.calldata, entry.memory) : Outcome Empty _)

def CallFrame.waiting (frame : CallFrame) (entry : Entry) : CallFrame :=
  { frame with
    stack := entry.stack
    memory := entry.memory
    returnDataOffset := some entry.operands.retOffset.toNat
    returnDataSize := some entry.operands.retSize.toNat }

def Machine.enter (m : Machine) (entry : Entry) (warm : Finset Address) : Machine where
  vm := { m.vm with callFrames := m.frame.waiting entry :: m.vm.callFrames, warmAddresses := warm }
  txEnv := m.txEnv
  frame := entry.kind.callee m.frame entry.operands
    (m.vm.db.getAccountBytecode (Word.toAddress entry.operands.address)) entry.calldata

def Machine.leave (m : Machine) (parent : CallFrame) (rest : List CallFrame) (returnData : ByteString) : Machine :=
  { m with vm := { m.vm with callFrames := rest }, frame := parent.resume returnData }

inductive Taken (destination : U256) (stack : List U256) : Nat → Opcode → List U256 → Prop
  | jump : Taken destination stack JUMP .JUMP (destination :: stack)
  | jumpi {condition : U256} : condition ≠ 0 →
      Taken destination stack JUMPI .JUMPI (destination :: condition :: stack)

/-! ## All instructions -/

inductive Act (m : Machine) (opcode : Opcode) : Flow → Machine → Prop
  | spent {flow : Flow} {m' : Machine} : Spends m opcode flow m' → Act m opcode flow m'
  /-- Division by zero. -/
  | free (stack : List U256) : stack.length < m.frame.stack.length → opcode.Plain →
      Act m opcode .next (m.withStack stack)
  | loaded (key : U256) (stack : List U256) : opcode = .SLOAD → m.frame.stack = key :: stack →
      Act m opcode .next (m.withStack
        ((m.vm.db.readAccountStorage m.frame.storageAddress key).elim 0 StorageSlot.currentValue :: stack))
  | stored (key value originalValue : U256) (stack : List U256) : opcode = .SSTORE → m.frame.isStatic = false →
      m.frame.stack = key :: value :: stack →
      Act m opcode .next { m.withStack stack with vm := { m.vm with
        db := m.vm.db.writeAccountStorage m.frame.storageAddress key ⟨originalValue, value⟩ } }
  | jumped (destination : U256) (stack : List U256) (cost : Nat) : Taken destination stack cost opcode m.frame.stack →
      m.frame.bytecode[destination.toNat]? = some 0x5B → 0 < cost → m.Affords cost →
      Act m opcode .next (((m.withStack stack).goTo destination.toNat).charged cost)
  | kept (key value : U256) (stack : List U256) : opcode = .TSTORE → m.frame.stack = key :: value :: stack →
      m.Affords TSTORE →
      Act m opcode .next ({ m with frame := { m.frame with
        stack := stack
        transientStorage := m.frame.transientStorage.insert (m.frame.msgSender, key) value } }.charged TSTORE)
  | logged (n : Fin 5) (stack : List U256) (memory : Memory) (log : Log) (cost : Nat) : opcode = .LOG n →
      m.frame.isStatic = false → 0 < cost → m.Affords cost →
      Act m opcode .next ({ m with frame := { m.frame with
        stack := stack, memory := memory, logs := m.frame.logs ++ [log] } }.charged cost)
  /-- A call that starts no frame. -/
  | declined (kind : CallKind) (operands : CallOperands) (word : U256) (stack : List U256) (warm : Finset Address) :
      opcode = kind.opcode → m.frame.stack = kind.words operands ++ stack →
      Act m opcode .next { m.withStack (word :: stack) with vm := { m.vm with warmAddresses := warm } }
  | entered (entry : Entry) (warm : Finset Address) : opcode = entry.kind.opcode → entry.Of m →
      Act m opcode .next (m.enter entry warm)
  | left (offset size : U256) (stack : List U256) (returnData : ByteString) (memory : Memory) (cost : Nat)
      (parent : CallFrame) (rest : List CallFrame) : opcode = .RETURN → m.frame.stack = offset :: size :: stack →
      m.frame.memory.loadRange offset.toNat size.toNat = (.ok (returnData, memory) : Outcome Empty _) →
      m.vm.callFrames = parent :: rest → m.Affords cost →
      Act m opcode .next ((m.leave parent rest returnData).charged cost)

theorem Act.entered_of_grown (h : Act m opcode flow m')
    (hgrown : m.vm.callFrames.length < m'.vm.callFrames.length) :
    ∃ entry warm, opcode = entry.kind.opcode ∧ entry.Of m ∧ m' = m.enter entry warm := by
  cases h with
  | spent h => cases h <;> exact absurd hgrown (lt_irrefl _)
  | entered entry warm hopcode hof => exact ⟨entry, warm, hopcode, hof, rfl⟩
  | left offset size stack returnData memory cost parent rest _ _ _ hframes _ =>
    rw [hframes] at hgrown
    exact absurd hgrown (Nat.lt_asymm (Nat.lt_succ_self _))
  | free | loaded | stored | jumped | kept | logged | declined => exact absurd hgrown (lt_irrefl _)

theorem CallKind.opcode_injective {kind kind' : CallKind} (h : kind.opcode = kind'.opcode) : kind = kind' := by
  cases kind <;> cases kind' <;> first | rfl | cases h

/-! ## Instructions and their bills -/

structure Does (m : Machine) (opcode : Opcode) (flow : Flow) (m' : Machine) : Prop where
  act : Act m opcode flow m'
  bill : flow = .next → Bill m opcode m'

structure Opcode.Constant (opcode : Opcode) (cost : Nat) : Prop where
  isPlain : opcode.isPlain = true
  price : opcode.price = some cost
  divisor : ∀ stack, opcode.divisor stack = none

def Stacks (m m' : Machine) : Prop := ∃ stack, m' = m.withStack stack

instance : IsTrans Machine Stacks where
  trans := by
    rintro m _ _ ⟨_, rfl⟩ ⟨stack, rfl⟩
    exact ⟨stack, rfl⟩

section

variable {α : Type}

theorem stacks_pure (a : α) : Moves Stacks (pure a : Levm α) := fun m => ⟨m.frame.stack, rfl⟩

theorem stacks_checked {x : Outcome Empty α} (h : Ends x) : Moves Stacks (checked x) :=
  fun m => ensures_checked.mpr (h.mono fun _ _ => ⟨m.frame.stack, rfl⟩)

theorem stacks_get : Moves Stacks (Exec.get : Levm Machine) := fun m => ⟨m.frame.stack, rfl⟩

theorem stacks_pop : Moves Stacks pop := fun _ => ensures_pop.mpr fun _ rest _ => ⟨rest, rfl⟩

theorem stacks_push (value : U256) : Moves Stacks (push value) := fun m => ⟨value :: m.frame.stack, rfl⟩

theorem stacks_popTopics (count : Nat) : Moves Stacks (popTopics count) := by
  induction count with
  | zero => exact stacks_pure _
  | succ count ih =>
    refine stacks_pop.bind fun topic => (stacks_checked ?_).bind fun topic => ih.bind fun topics => stacks_pure _
    simp [Ends, Word.toTopic, ensures_ite]

end

section

variable {m : Machine}

theorem Does.halts (stack : List U256) : Does m opcode .stop (m.withStack stack) :=
  ⟨.spent (.halts stack _ fun _ => rfl), nofun⟩

theorem Does.stop (m : Machine) (opcode : Opcode) : Does m opcode .stop m := .halts m.frame.stack

theorem Opcode.Constant.does (h : opcode.Constant cost) (stack : List U256) (hafford : m.Affords cost) :
    Does m opcode .next (((m.withStack stack).goTo (m.frame.pc + opcode.immediate)).charged cost) := by
  refine ⟨.spent (.works stack m.frame.memory cost h.isPlain (Opcode.price_pos h.price) hafford.fits ?_), fun _ => ?_⟩
  · exact fun _ => hafford.limit
  · exact .constant h.price h.divisor rfl rfl

theorem Does.touching {s} {stop size charge} (hplain : opcode.Plain)
    (hrange : opcode.range m.frame.stack = some (stop, size))
    (hcharge : (m.frame.memory.expansionCost stop : Outcome Empty Nat) = .ok charge)
    (hcost : cost = opcode.toll m.frame.stack + charge) (hpos : 0 < cost)
    (hfits : m.txEnv.consumedGas + cost < wordSize)
    (hlimit : opcode ≠ .MCOPY → m.txEnv.consumedGas + cost ≤ m.txEnv.gasLimit)
    (hsize : memory.data.length = if opcode.isCopy = true ∧ size = 0 then m.frame.memory.data.length
      else max m.frame.memory.data.length (Memory.roundUp stop)) :
    Does m opcode .next ((m.work s memory).charged cost) := by
  have hworks : Spends m opcode .next _ := .works s memory cost hplain.isPlain hpos hfits hlimit
  rw [hplain.immediate] at hworks
  exact ⟨.spent hworks, fun _ => .touching hrange hcharge (congrArg _ hcost) fun _ => hsize⟩

/-! ### Work on the stack -/

theorem does_metered {body : Levm Unit} (h : opcode.Constant cost) (himmediate : opcode.immediate = 0)
    (hbody : Moves Stacks body) (m : Machine) : Ensures (metered cost body) m (Does m opcode) := by
  refine ensures_metered (.stop m _) fun hafford => (hbody m).mono ?_
  rintro _ _ ⟨stack, rfl⟩
  have hdoes := h.does stack hafford
  rwa [himmediate] at hdoes

theorem does_pushing {f : Machine → Outcome Empty U256} (h : opcode.Constant cost) (himmediate : opcode.immediate = 0)
    (hf : ∀ m, Ends (f m)) : ∀ m, Ensures (pushing cost f) m (Does m opcode) :=
  does_metered h himmediate (stacks_get.bind fun _ => (stacks_checked (hf _)).bind fun _ => stacks_push _)

theorem does_unary {f : Machine → U256 → Outcome Empty U256} (h : opcode.Constant cost)
    (himmediate : opcode.immediate = 0) (hf : ∀ m a, Ends (f m a)) : ∀ m, Ensures (unary cost f) m (Does m opcode) :=
  does_metered h himmediate (stacks_pop.bind fun _ => stacks_get.bind fun _ =>
    (stacks_checked (hf _ _)).bind fun _ => stacks_push _)

theorem does_binary (f : U256 → U256 → U256) (h : opcode.Constant cost) (himmediate : opcode.immediate = 0) :
    ∀ m, Ensures (binary cost f) m (Does m opcode) :=
  does_metered h himmediate (stacks_pop.bind fun _ => stacks_pop.bind fun _ => stacks_push _)

theorem does_unfinished (message : String) (m : Machine) : Ensures (unfinished cost message) m (Does m opcode) :=
  ensures_exceeds_else (.stop m _) fun _ => ensures_pay fun _ => trivial

theorem does_divided (hplain : opcode.Plain) (hprice : opcode.price = some cost)
    (hdivisor : opcode.divisor m.frame.stack = some divisor) (hstack : stack.length + 1 < m.frame.stack.length)
    (hx : Ends x) (hafford : m.Affords cost) :
    Ensures (if divisor = 0 then (do push 0; pure .next) else
      (do let value ← checked x; push value; charge cost; pure .next)) (m.withStack stack) (Does m opcode) := by
  have htoll : opcode.toll m.frame.stack = if divisor = 0 then 0 else cost := by
    rw [Opcode.toll_of_price hprice, hdivisor]
    simp
  have hrange := Opcode.range_of_price hprice m.frame.stack
  split at htoll
  · rw [if_pos ‹_›]
    exact ⟨.free (0 :: stack) hstack hplain, fun _ => .plain hrange (by rw [htoll]; rfl) fun _ => rfl⟩
  · rw [if_neg ‹_›]
    refine ensures_try (hx.mono fun value _ => Exec.ensures_bind.mpr (ensures_push.mpr (ensures_pay fun _ => ?_)))
    have hworks : Spends m opcode .next _ := .works (value :: stack) m.frame.memory cost hplain.isPlain
      (Opcode.price_pos hprice) hafford.fits fun _ => hafford.limit
    rw [hplain.immediate] at hworks
    exact ⟨.spent hworks, fun _ => .plain hrange (by rw [htoll]; rfl) fun _ => rfl⟩

theorem does_dividing {f : U256 → U256 → Outcome Empty U256} (hplain : opcode.Plain) (hprice : opcode.price = some cost)
    (hdivisor : ∀ a b stack, opcode.divisor (a :: b :: stack) = some b) (hf : ∀ a b, Ends (f a b)) (m : Machine) :
    Ensures (dividing cost f) m (Does m opcode) := by
  refine ensures_exceeds_else (.stop m _) fun hafford => ensures_take₂ fun a b stack hstack => ?_
  exact does_divided hplain hprice (by rw [hstack, hdivisor]) (by simp [hstack]) (hf a b) hafford

theorem does_modular (f : U256 → U256 → U256 → U256) (hplain : opcode.Plain) (hprice : opcode.price = some cost)
    (hdivisor : ∀ a b n stack, opcode.divisor (a :: b :: n :: stack) = some n) (m : Machine) :
    Ensures (modular cost f) m (Does m opcode) := by
  refine ensures_exceeds_else (.stop m _) fun hafford => ensures_take₃ fun a b n stack hstack => ?_
  exact does_divided (x := .ok (f a b n)) hplain hprice (by rw [hstack, hdivisor])
    (by simp [hstack]) (ends_ok _) hafford

theorem does_exp (m : Machine) : Ensures exp m (Does m .EXP) := by
  refine ensures_take₂ fun base exponent stack hstack => ensures_metered (.halts stack) fun hafford => ?_
  have hworks : Spends m .EXP .next _ := .works (Word.pow base exponent :: stack) m.frame.memory _ rfl
    (Nat.add_pos_left (by decide) _) hafford.fits fun _ => hafford.limit
  refine ensures_push.mpr ⟨.spent hworks, fun _ => .plain ?_ ?_ fun _ => rfl⟩
  · rfl
  · rw [hstack]
    rfl

theorem does_blockhash (m : Machine) : Ensures blockhash m (Does m .BLOCKHASH) := by
  have hconstant : Opcode.BLOCKHASH.Constant BLOCKHASH := ⟨rfl, rfl, fun _ => rfl⟩
  refine ensures_exceeds_else (.stop m _) fun hafford => ensures_take fun blockNumber stack _ => ensures_pay fun _ => ?_
  exact hconstant.does (blockHashAt m.vm blockNumber :: stack) hafford

theorem does_dupN (depth : Nat) (h : opcode.Constant DUPN) (himmediate : opcode.immediate = 0) :
    ∀ m, Ensures (dupN depth) m (Does m opcode) :=
  does_metered h himmediate (stacks_get.bind fun m => (stacks_checked (by simp [Ends])).bind fun _ =>
    (stacks_checked (by simp [Ends])).bind fun value => stacks_push value)

theorem does_swapN (depth : Nat) (h : opcode.Constant SWAPN) (himmediate : opcode.immediate = 0) :
    ∀ m, Ensures (swapN depth) m (Does m opcode) :=
  does_metered h himmediate (stacks_get.bind fun m => (stacks_checked (by simp [Ends])).bind fun _ =>
    (stacks_checked (by simp [Ends])).bind fun _ m => ⟨swapTop m.frame.stack depth, rfl⟩)

theorem does_pushN (nBytes : Nat) (message : String) (h : opcode.Constant PUSHN)
    (hbytes : opcode.immediate = nBytes) (m : Machine) : Ensures (pushN nBytes message) m (Does m opcode) := by
  subst hbytes
  refine ensures_metered (.stop m _) fun hafford => ensures_got (ensures_sum fun _ => ?_)
  split
  · refine Exec.ensures_bind.mpr (ensures_push.mpr (ensures_got (ensures_try (ensures_bind.mpr ?_))))
    exact ensures_add.mpr fun _ => h.does _ hafford
  · exact trivial

/-! ### Work on the memory -/

theorem ensures_wordsToll {f : Nat → Levm Flow} {Q : Flow → Machine → Prop}
    (h : ∀ charge, (m.frame.memory.expansionCost (offset + size) : Outcome Empty Nat) = .ok charge →
      Ensures (f (static + base * Memory.wordsOf size + charge)) m Q) :
    Ensures (do
      let words ← checked (Memory.words size)
      let stop ← checked (Rust.add offset size)
      let expansion ← expansionCost stop
      let dynamic ← checked (Rust.mul base words)
      let gasCost ← checked (Rust.add static dynamic)
      let gasCost ← checked (Rust.add gasCost expansion)
      f gasCost) m Q := by
  refine ensures_try ((Memory.ensures_words size).mono fun words hwords => ensures_sum fun _ => ?_)
  subst hwords
  exact ensures_growth fun charge hcharge => ensures_product fun _ => ensures_sum fun _ =>
    ensures_sum fun _ => h charge hcharge

theorem does_keccak256 [Keccak256] (m : Machine) : Ensures keccak256 m (Does m .KECCAK256) := by
  refine ensures_size₂ fun offset size stack hstack => ensures_wordsToll fun charge hcharge => ?_
  refine ensures_metered (.halts stack) fun hafford => ensures_memory ?_
  refine (Memory.ensures_loadRange _ _ _).mono fun _ hserves => ensures_push.mpr ?_
  exact .touching ⟨rfl, rfl⟩ (by rw [hstack]; rfl) hcharge (by rw [hstack]; rfl)
    (Nat.add_pos_left (Nat.add_pos_left (by decide) _) _) hafford.fits (fun _ => hafford.limit) hserves.length

/-- `CALLDATACOPY` and `RETURNDATACOPY` stop, or copy a range of the source. -/
inductive CopiesRange (m : Machine) (static base : Nat) (source : CallFrame → ByteString) : Flow → Machine → Prop
  | halts (stack : List U256) : CopiesRange m static base source .stop (m.withStack stack)
  | copies (dest src size : U256) (stack : List U256) (charge : Nat) (memory : Memory) :
      m.frame.stack = dest :: src :: size :: stack → src.toNat < Rust.wordSize →
      (m.frame.memory.expansionCost (dest.toNat + size.toNat) : Outcome Empty Nat) = .ok charge →
      m.Affords (static + base * Memory.wordsOf size.toNat + charge) →
      (size.toNat ≠ 0 → src.toNat + size.toNat ≤ (source (m.withStack stack).frame).length) →
      (memory.data.length = if size.toNat = 0 then m.frame.memory.data.length
        else max m.frame.memory.data.length (Memory.roundUp (dest.toNat + size.toNat))) →
      CopiesRange m static base source .next
        ((m.work stack memory).charged (static + base * Memory.wordsOf size.toNat + charge))

theorem ensures_copyToMemory (static base : Nat) (source : CallFrame → ByteString) (m : Machine) :
    Ensures (copyToMemory static base source) m (CopiesRange m static base source) := by
  refine ensures_size₃ fun dest src size stack hstack hsrc => ensures_wordsToll fun charge hcharge => ?_
  refine ensures_exceeds_else (.halts stack) fun hafford => ensures_pay fun _ => ?_
  have hafford : m.Affords _ := ⟨hafford.limit, hafford.fits⟩
  split
  · rename_i hzero
    exact .copies dest src size stack charge m.frame.memory hstack hsrc hcharge hafford
      (absurd hzero) (if_pos hzero).symm
  · rename_i hzero
    refine ensures_sum fun _ => ensures_got (ensures_try (ensures_slice.mpr fun hslice => ?_))
    refine Exec.ensures_bind.mpr (ensures_storeBytes fun memory hserves => ?_)
    refine .copies dest src size stack charge memory hstack hsrc hcharge hafford (fun _ => hslice.2) ?_
    refine hserves.length.trans ?_
    rw [if_neg hzero, Access.stop, List.length_drop, List.length_take, Nat.min_eq_left hslice.2,
      Nat.add_sub_cancel_left]
    rfl

theorem does_copyToMemory {static base} (source : CallFrame → ByteString) (hplain : opcode.Plain)
    (hcopy : opcode.isCopy = true) (hstatic : 0 < static)
    (htoll : ∀ a b size stack, opcode.toll (a :: b :: size :: stack) = static + base * Memory.wordsOf size.toNat)
    (hrange : ∀ a b size stack, opcode.range (a :: b :: size :: stack) = some (a.toNat + size.toNat, size.toNat))
    (m : Machine) : Ensures (copyToMemory static base source) m (Does m opcode) := by
  refine (ensures_copyToMemory static base source m).mono fun flow m' h => ?_
  cases h with
  | halts stack => exact .halts stack
  | copies dest src size stack charge memory hstack _ hcharge hafford _ hsize =>
    refine .touching hplain (by rw [hstack, hrange]) hcharge (by rw [hstack, htoll])
      (Nat.add_pos_left (Nat.add_pos_left hstatic _) _) hafford.fits (fun _ => hafford.limit) ?_
    rw [hsize, hcopy]
    simp

theorem does_mload (m : Machine) : Ensures mload m (Does m .MLOAD) := by
  refine ensures_size fun offset stack hstack _ => ensures_sum fun _ => ensures_growth fun charge hcharge => ?_
  refine ensures_sum fun _ => ensures_metered (.halts stack) fun hafford => ensures_memory ?_
  refine (Memory.ensures_load _ _).mono fun _ hserves => ensures_push.mpr ?_
  exact .touching ⟨rfl, rfl⟩ (by rw [hstack]; rfl) hcharge (by rw [hstack]; rfl) (Nat.add_pos_left (by decide) _)
    hafford.fits (fun _ => hafford.limit) hserves.length

theorem does_mstoreLow {static width} (hplain : opcode.Plain) (hcopy : opcode.isCopy = false)
    (hwidth : width ≤ WORD_SIZE) (hstatic : 0 < static) (htoll : ∀ stack, opcode.toll stack = static)
    (hrange : ∀ offset stack, opcode.range (offset :: stack) = some (offset.toNat + width, width)) (m : Machine) :
    Ensures (mstoreLow static width) m (Does m opcode) := by
  refine ensures_size fun offset rest hstack _ => ensures_sum fun _ => ensures_growth fun charge hcharge => ?_
  refine ensures_sum fun _ => ensures_metered (.halts rest) fun hafford => ?_
  refine ensures_take fun value stack _ => ensures_storeBytes fun memory hserves => ?_
  refine .touching hplain (by rw [hstack, hrange]) hcharge (by rw [htoll]) (Nat.add_pos_left hstatic _) hafford.fits
    (fun _ => hafford.limit) (hserves.length.trans ?_)
  have hlen : ((bytesOfWord value).drop (WORD_SIZE - width)).length = width := by
    rw [List.length_drop, bytesOfWord]
    exact Nat.sub_sub_self hwidth
  rw [Access.stop, hlen, hcopy]
  rfl

def mcopyCost (memory : Memory) (destOffset srcOffset size : Nat) : Outcome Empty Nat := do
  let wordsCopied ← Memory.words size
  let srcStop ← Rust.add srcOffset size
  let destStop ← Rust.add destOffset size
  let memoryExpansionCost ← memory.expansionCost (max srcStop destStop)
  let dynamic ← Rust.mul MCOPY_DYNAMIC_BASE wordsCopied
  let gasCost ← Rust.add MCOPY_STATIC dynamic
  Rust.add gasCost memoryExpansionCost

theorem ensures_mcopy (m : Machine) : Ensures mcopy m fun flow m' => flow = .next ∧
    ∃ destOffset srcOffset size stack cost, m.frame.stack = destOffset :: srcOffset :: size :: stack ∧
    mcopyCost m.frame.memory destOffset.toNat srcOffset.toNat size.toNat = .ok cost ∧
    m'.txEnv.consumedGas = m.txEnv.consumedGas + cost ∧ Does m .MCOPY flow m' := by
  refine ensures_size₃ fun dest src size stack hstack _ => ?_
  refine ensures_try (((Memory.ensures_words _).exact).mono fun words ⟨hwords, heq⟩ => ?_)
  subst heq
  refine ensures_sum fun hsrc => ensures_sum fun hdest => ensures_growth fun charge hcharge => ?_
  refine ensures_product fun hproduct => ensures_sum fun hsum => ensures_sum fun hsum' => ensures_pay fun hfits => ?_
  have hcost : mcopyCost m.frame.memory dest.toNat src.toNat size.toNat =
      .ok (MCOPY_STATIC + MCOPY_DYNAMIC_BASE * Memory.wordsOf size.toNat + charge) := by
    have hcharge : m.frame.memory.expansionCost (max _ _) = .ok charge := hcharge
    rw [mcopyCost, hwords, bind_ok, add_ok hsrc, bind_ok, add_ok hdest, bind_ok, hcharge,
      bind_ok, mul_ok hproduct, bind_ok, add_ok hsum, bind_ok, add_ok hsum']
  have hdoes (memory : Memory) (hsize : memory.data.length =
      if true = true ∧ size.toNat = 0 then m.frame.memory.data.length
      else max m.frame.memory.data.length (Memory.roundUp (max (src.toNat + size.toNat) (dest.toNat + size.toNat)))) :
      Does m .MCOPY .next _ :=
    .touching (s := stack) ⟨rfl, rfl⟩ (by rw [hstack]; rfl) hcharge (by rw [hstack]; rfl)
      (Nat.add_pos_left (Nat.add_pos_left (by decide) _) _) hfits (absurd rfl) hsize
  split
  · rename_i hzero
    exact ⟨rfl, dest, src, size, stack, _, hstack, hcost, rfl, hdoes _ (if_pos ⟨rfl, hzero⟩).symm⟩
  · rename_i hzero
    refine ensures_memory (ensures_map.mpr ((Memory.ensures_copy _ _ _ _).mono fun _ hserves => ?_))
    refine ⟨rfl, dest, src, size, stack, _, hstack, hcost, rfl, hdoes _ (hserves.length.trans ?_)⟩
    rw [if_neg fun h => hzero h.2]
    rfl

theorem does_logN (n : Fin 5) (m : Machine) : Ensures (logN n) m (Does m (.LOG n)) := by
  refine ensures_got ?_
  split
  · exact trivial
  rename_i hstatic
  refine ensures_size₂ fun offset size rest hstack => ensures_of_bind (stacks_popTopics n _) ?_
  rintro topics _ ⟨stack, rfl⟩
  refine ensures_sum fun _ => ensures_growth fun charge hcharge => ensures_product fun _ => ?_
  refine ensures_sum fun _ => ensures_sum fun _ => ensures_metered (.halts stack) fun hafford => ?_
  refine ensures_memory ((Memory.ensures_loadRange _ _ _).mono fun ⟨data, memory⟩ hserves => ?_)
  have hpos (x : Nat) : 0 < LOGN_STATIC + LOGN_DYNAMIC_BASE * n +
      LOGN_DYNAMIC_BYTE_BASE * size.toNat + x :=
    Nat.add_pos_left (Nat.add_pos_left (Nat.add_pos_left (by decide) _) _) _
  refine ⟨.logged n stack memory _ _ rfl (by simpa using hstatic) (hpos charge)
    ⟨hafford.limit, hafford.fits⟩, fun _ => ?_⟩
  exact .touching (by rw [hstack]; rfl) hcharge (by rw [hstack]; rfl) fun _ => hserves.length

/-! ### Storage -/

theorem ensures_sload (m : Machine) : Ensures sload m fun flow m' => flow = .next ∧ ∃ key stack,
    m.frame.stack = key :: stack ∧ m' = m.withStack
      ((m.vm.db.readAccountStorage m.frame.storageAddress key).elim 0 StorageSlot.currentValue :: stack) :=
  ensures_take fun key stack hstack => ⟨rfl, key, stack, hstack, rfl⟩

theorem does_sload (m : Machine) : Ensures sload m (Does m .SLOAD) := by
  refine (ensures_sload m).mono ?_
  rintro _ _ ⟨rfl, key, stack, hstack, rfl⟩
  exact ⟨.loaded key stack rfl hstack, fun _ => .plain rfl rfl fun _ => rfl⟩

theorem ensures_sstore (m : Machine) : Ensures sstore m fun flow m' => flow = .next ∧ m.frame.isStatic = false ∧
    ∃ key value stack, m.frame.stack = key :: value :: stack ∧
      m' = { m.withStack stack with vm := { m.vm with
        db := m.vm.db.writeAccountStorage m.frame.storageAddress key
          ⟨(m.vm.db.readAccountStorage m.frame.storageAddress key).elim value
            StorageSlot.originalValue, value⟩ } } := by
  refine ensures_got ?_
  split
  · exact trivial
  · rename_i hstatic
    exact ensures_take₂ fun key value stack hstack => ⟨rfl, by simpa using hstatic, key, value, stack, hstack, rfl⟩

theorem does_sstore (m : Machine) : Ensures sstore m (Does m .SSTORE) := by
  refine (ensures_sstore m).mono ?_
  rintro _ _ ⟨rfl, hstatic, key, value, stack, hstack, rfl⟩
  exact ⟨.stored key value _ stack rfl hstatic hstack, fun _ => .plain rfl rfl fun _ => rfl⟩

theorem ensures_tstore (m : Machine) : Ensures tstore m fun flow m' => (flow = .stop ∧ m' = m) ∨
    (flow = .next ∧ m.Affords TSTORE ∧ ∃ key value stack, m.frame.stack = key :: value :: stack ∧
      m' = { m with frame := { m.frame with
        stack := stack
        transientStorage := m.frame.transientStorage.insert (m.frame.msgSender, key) value } }.charged
          TSTORE) := by
  refine ensures_metered (.inl ⟨rfl, rfl⟩) fun hafford => ?_
  exact ensures_take₂ fun key value stack hstack => .inr ⟨rfl, hafford, key, value, stack, hstack, rfl⟩

theorem does_tstore (m : Machine) : Ensures tstore m (Does m .TSTORE) := by
  refine (ensures_tstore m).mono ?_
  rintro _ _ (⟨rfl, rfl⟩ | ⟨rfl, hafford, key, value, stack, hstack, rfl⟩)
  · exact .stop _ _
  · exact ⟨.kept key value stack rfl hstack hafford, fun _ => .constant rfl (fun _ => rfl) rfl rfl⟩

/-! ### Jumps -/

theorem opcodeAt_jumpdest {frame : CallFrame}
    (h : (frame.opcodeAt offset : Outcome Empty _) = .ok (some .JUMPDEST)) :
    frame.bytecode[offset]? = some 0x5B := by
  unfold CallFrame.opcodeAt at h
  split at h
  · rename_i byte hbyte
    obtain ⟨opcode, hop, hsome⟩ := map_eq_ok.mp h
    obtain rfl : opcode = .JUMPDEST := Option.some.inj hsome
    have hspec := ofByte_ensures byte
    rw [hop] at hspec
    rw [hbyte, hspec.2 rfl]
  · cases h

theorem validJump_true (frame : CallFrame) (destination : U256) :
    Outcome.Ensures (frame.validJump destination : Outcome Empty _) fun valid =>
      valid = true → frame.bytecode[destination.toNat]? = some 0x5B := by
  refine ensures_bind.mpr (ensures_ite.mpr ⟨fun _ => ?_, fun _ => trivial⟩)
  refine ensures_bind.mpr ((ends_opcodeAt _ _).ensures fun opcode hop hvalid => ?_)
  obtain rfl : opcode = some .JUMPDEST := by simpa using hvalid
  exact opcodeAt_jumpdest hop

/-- A jump that goes through lands on the byte `0x5B`. -/
theorem jump_ok (frame : CallFrame) (destination : U256) :
    Outcome.Ensures (frame.jump destination : Outcome Empty _) fun frame' =>
      frame.bytecode[destination.toNat]? = some 0x5B ∧ frame' = { frame with pc := destination.toNat } := by
  refine ensures_bind.mpr ((validJump_true frame destination).mono fun valid hvalid => ?_)
  cases valid with
  | false => exact trivial
  | true =>
    unfold CallFrame.asUsize
    refine ensures_bind.mpr (ensures_ite.mpr ⟨fun _ => ?_, fun _ => trivial⟩)
    exact ⟨hvalid rfl, rfl⟩

theorem does_jump (m : Machine) : Ensures jump m (Does m .JUMP) := by
  refine ensures_metered (.stop m _) fun hafford => ensures_take fun destination stack hstack => ?_
  refine ensures_got (ensures_try ((jump_ok _ destination).mono ?_))
  rintro _ ⟨hbyte, rfl⟩
  exact ⟨.jumped destination stack _ (hstack ▸ .jump) hbyte (by decide) hafford, fun _ =>
    .constant rfl (fun _ => rfl) rfl rfl⟩

theorem does_jumpi (m : Machine) : Ensures jumpi m (Does m .JUMPI) := by
  have hconstant : Opcode.JUMPI.Constant JUMPI := ⟨rfl, rfl, fun _ => rfl⟩
  refine ensures_metered (.stop m _) fun hafford => ensures_take₂ fun destination condition stack hstack => ?_
  split
  · rename_i htaken
    refine ensures_got (ensures_try ((jump_ok _ destination).mono ?_))
    rintro _ ⟨hbyte, rfl⟩
    exact ⟨.jumped destination stack _ (hstack ▸ .jumpi htaken) hbyte (by decide) hafford,
      fun _ => .constant hconstant.price hconstant.divisor rfl rfl⟩
  · exact hconstant.does stack hafford

end

/-! ### Calls -/

section

variable {m : Machine}

/-- A call pushes a word, or puts the frame aside and starts a new one. -/
theorem ensures_genericCall {Q : Unit → Machine → Prop}
    (hpush : ∀ word, Q () (m.withStack (word :: m.frame.stack)))
    (henter : ∀ calldata memory,
      m.frame.memory.loadRange argsOffset argsSize = (.ok (calldata, memory) : Outcome Empty _) →
      Q () { m with
        vm := { m.vm with callFrames := { m.frame with
          memory := memory, returnDataOffset := some retOffset, returnDataSize := some retSize } :: m.vm.callFrames }
        frame := CallFrame.new gas msgSender recipient codeAddress delegate
          (m.vm.db.getAccountBytecode codeAddress) value calldata isStatic }) :
    Ensures (genericCall gas value msgSender recipient codeAddress delegate isStatic argsOffset argsSize
      retOffset retSize) m Q := by
  refine ensures_got ?_
  split
  · exact hpush _
  dsimp only
  split
  · exact hpush _
  exact ensures_memory ((ends_loadRange _ _ _).ensures fun ⟨calldata, memory⟩ h => henter calldata memory h)

theorem ensures_ranges {f : Nat → Nat → Nat → Nat → Levm Flow} {Q : Flow → Machine → Prop}
    (hf : ∀ a b c d stack, m.frame.stack = a :: b :: c :: d :: stack →
      Ensures (f a.toNat b.toNat c.toNat d.toNat) (m.withStack stack) Q) :
    Ensures (do
      let argsOffset ← popUsize
      let argsSize ← popUsize
      let retOffset ← popUsize
      let retSize ← popUsize
      f argsOffset argsSize retOffset retSize) m Q := by
  refine ensures_size₂ fun a b rest hrest => ensures_size₂ fun c d stack hstack => hf a b c d stack ?_
  obtain rfl : rest = c :: d :: stack := hstack
  exact hrest

/-- What every call does when its operands `operands` have been taken from the stack. -/
theorem does_genericCall (kind : CallKind) (operands : CallOperands) (stack : List U256) (warm : Finset Address)
    (hwords : m.frame.stack = kind.words operands ++ stack)
    (hcallee : ∀ bytecode calldata, CallFrame.new operands.gas msgSender recipient (Word.toAddress operands.address)
      delegate bytecode value calldata isStatic = kind.callee m.frame operands bytecode calldata) :
    Ensures (do
      genericCall operands.gas value msgSender recipient (Word.toAddress operands.address) delegate isStatic
        operands.argsOffset.toNat operands.argsSize.toNat operands.retOffset.toNat operands.retSize.toNat
      pure .next) { m.withStack stack with vm := { m.vm with warmAddresses := warm } }
      (Does m kind.opcode) := by
  -- neither charges nor memory belong to a call
  have hfree : kind.opcode.range m.frame.stack = none ∧ kind.opcode.toll m.frame.stack = 0 := by
    cases kind <;> exact ⟨rfl, rfl⟩
  refine Exec.ensures_bind.mpr (ensures_genericCall (fun word => ?_) fun calldata memory hload => ?_)
  · refine (Exec.ensures_pure _).mpr ⟨.declined kind operands word stack warm rfl hwords, fun _ => ?_⟩
    exact .plain hfree.1 (by rw [hfree.2]; rfl) fun _ => rfl
  · rw [hcallee, Exec.ensures_pure]
    refine ⟨.entered ⟨kind, operands, stack, calldata, memory⟩ warm rfl ⟨hwords, hload⟩, fun _ => ?_⟩
    exact .plain hfree.1 (by rw [hfree.2]; rfl) fun h => (List.cons_ne_self _ _ h).elim

end

variable (m : Machine)

theorem does_call : Ensures call m (Does m .CALL) := by
  refine ensures_take₃ fun gas address value rest hrest =>
    ensures_ranges fun argsOffset argsSize retOffset retSize stack h => ?_
  obtain rfl : rest = argsOffset :: argsSize :: retOffset :: retSize :: stack := h
  refine ensures_sum fun _ => ensures_sum fun _ => ensures_growth fun expansion _ => ensures_got ?_
  refine ensures_try (ensures_expect.mpr fun account _ =>
    ensures_try ((ends_callCost _ _ _ _ _).mono fun gasCost _ => ?_))
  refine ensures_exceeds_else (.halts stack) fun _ => Exec.ensures_bind.mpr (Exec.ensures_modify.mpr ?_)
  exact does_genericCall .call ⟨gas, address, value, argsOffset, argsSize, retOffset, retSize⟩
    stack _ hrest fun _ _ => rfl

theorem does_callcode : Ensures callcode m (Does m .CALLCODE) := by
  refine ensures_take₃ fun gas address value rest hrest =>
    ensures_ranges fun argsOffset argsSize retOffset retSize stack h => ?_
  obtain rfl : rest = argsOffset :: argsSize :: retOffset :: retSize :: stack := h
  exact ensures_got (does_genericCall .callcode
    ⟨gas, address, value, argsOffset, argsSize, retOffset, retSize⟩ stack _ hrest
    fun _ _ => rfl)

theorem does_delegatecall : Ensures delegatecall m (Does m .DELEGATECALL) := by
  refine ensures_take₂ fun gas address rest hrest =>
    ensures_ranges fun argsOffset argsSize retOffset retSize stack h => ?_
  obtain rfl : rest = argsOffset :: argsSize :: retOffset :: retSize :: stack := h
  exact ensures_got (does_genericCall .delegatecall
    ⟨gas, address, 0, argsOffset, argsSize, retOffset, retSize⟩ stack _ hrest
    fun _ _ => rfl)

theorem does_staticcall : Ensures staticcall m (Does m .STATICCALL) := by
  refine ensures_take₂ fun gas address rest hrest =>
    ensures_ranges fun argsOffset argsSize retOffset retSize stack h => ?_
  obtain rfl : rest = argsOffset :: argsSize :: retOffset :: retSize :: stack := h
  exact ensures_got (does_genericCall .staticcall
    ⟨gas, address, 0, argsOffset, argsSize, retOffset, retSize⟩ stack _ hrest
    fun _ _ => rfl)

/-- The charge of `RETURN` is made after the frame is left. -/
theorem does_return : Ensures return_ m (Does m .RETURN) := by
  refine ensures_size₂ fun offset size stack hstack => ensures_sum fun _ => ensures_growth fun charge hcharge => ?_
  refine ensures_exceeds_else (.halts stack) fun hafford => ?_
  refine ensures_memory ((ends_loadRange _ _ _).ensures fun ⟨returnData, memory⟩ hload => ensures_got ?_)
  split
  · rename_i parent rest hframes
    refine Exec.ensures_bind.mpr (Exec.ensures_modify.mpr
      (ensures_pay fun _ => ⟨.left offset size stack returnData memory
      charge parent rest rfl hstack hload hframes ⟨hafford.limit, hafford.fits⟩, fun _ => ?_⟩))
    refine .touching (by rw [hstack]; rfl) hcharge ?_ fun h => ?_
    · exact congrArg (m.txEnv.consumedGas + ·) (Nat.zero_add charge).symm
    · exact (List.cons_ne_self _ _ (hframes.symm.trans h.symm)).elim
  · exact Exec.ensures_bind.mpr (ensures_push.mpr
      ⟨.spent (.halts (SUCCESS_FOR_RETURN :: stack) memory fun hother => absurd rfl hother), nofun⟩)

/-! ## One round of the loop -/

def Machine.advance (m : Machine) : Machine := m.goTo (m.frame.pc + 1)

def Machine.At (m : Machine) (opcode : Opcode) : Prop :=
  (m.frame.opcodeAt m.frame.pc : Outcome Empty _) = .ok (some opcode)

instance (m : Machine) (opcode : Opcode) : Decidable (m.At opcode) := inferInstanceAs (Decidable (_ = _))

theorem Machine.At.byte {m : Machine} (h : m.At opcode) :
    ∃ byte, m.frame.bytecode[m.frame.pc]? = some byte ∧ (Opcode.ofByte byte : Outcome Empty _) = .ok opcode := by
  unfold Machine.At CallFrame.opcodeAt at h
  split at h
  · rename_i byte hbyte
    obtain ⟨opcode', hop, hsome⟩ := map_eq_ok.mp h
    obtain rfl : opcode' = opcode := Option.some.inj hsome
    exact ⟨byte, hbyte, hop⟩
  · cases h

theorem Machine.At.pc_lt {m : Machine} (h : m.At opcode) :
    m.frame.pc < m.frame.bytecode.length := by
  obtain ⟨byte, hbyte, -⟩ := h.byte
  exact (List.getElem?_eq_some_iff.mp hbyte).1

theorem Machine.At.unique {m : Machine} (h : m.At opcode) (h' : m.At opcode') :
    opcode = opcode' :=
  Option.some.inj (Except.ok.inj (h.symm.trans h'))

theorem ensures_fetch : Ensures fetch m fun opcode m' => m' = m.advance ∧ m.At opcode := by
  refine Exec.ensures_bind.mpr (Exec.ensures_get.mpr (Exec.ensures_bind.mpr (ensures_checked.mpr ?_)))
  refine ensures_bind.mpr ((ends_opcodeAt _ _).ensures fun opcode hop => ?_)
  refine ensures_bind.mpr (ensures_bind.mpr (ensures_add.mpr fun _ => ?_))
  refine ensures_expect.mpr fun opcode' h => ⟨rfl, ?_⟩
  rw [Machine.At, hop, h]

section

variable [Keccak256]

theorem instruction_does (opcode : Opcode) (m : Machine) : Ensures (instruction opcode) m (Does m opcode) := by
  cases opcode with
  | STOP => exact Does.stop m _
  | ADD | MUL | SUB | SIGNEXTEND | LT | GT | SLT | SGT | EQ | AND | OR | XOR | BYTE | SHL | SHR | SAR =>
    exact does_binary _ ⟨rfl, rfl, fun _ => rfl⟩ rfl m
  | DIV | MOD => exact does_dividing ⟨rfl, rfl⟩ rfl (fun _ _ _ => rfl) (fun _ _ => ends_ok _) m
  | SDIV => exact does_dividing ⟨rfl, rfl⟩ rfl (fun _ _ _ => rfl) ends_signedDiv m
  | SMOD => exact does_dividing ⟨rfl, rfl⟩ rfl (fun _ _ _ => rfl) ends_signedMod m
  | ADDMOD | MULMOD => exact does_modular _ ⟨rfl, rfl⟩ rfl (fun _ _ _ _ => rfl) m
  | EXP => exact does_exp m
  | ISZERO | NOT | TLOAD => exact does_unary ⟨rfl, rfl, fun _ => rfl⟩ rfl (fun _ _ => ends_ok _) m
  | KECCAK256 => exact does_keccak256 m
  | CALLDATALOAD => exact does_unary ⟨rfl, rfl, fun _ => rfl⟩ rfl (fun _ _ => ends_calldataload _ _) m
  | CALLDATACOPY | RETURNDATACOPY =>
    exact does_copyToMemory _ ⟨rfl, rfl⟩ rfl (by decide) (fun _ _ _ _ => rfl) (fun _ _ _ _ => rfl) m
  | CALLDATASIZE | RETURNDATASIZE | COINBASE | TIMESTAMP | NUMBER | PREVRANDAO | GASLIMIT | CHAINID | BASEFEE
  | PUSH0 | MSIZE => exact does_pushing ⟨rfl, rfl, fun _ => rfl⟩ rfl (fun _ => ends_ok _) m
  | PC => exact does_pushing ⟨rfl, rfl, fun _ => rfl⟩ rfl (fun _ => by simp [Ends]) m
  | GAS => exact does_pushing ⟨rfl, rfl, fun _ => rfl⟩ rfl (fun _ => by simp [Ends]) m
  | BLOBBASEFEE => exact does_pushing ⟨rfl, rfl, fun _ => rfl⟩ rfl (fun _ => ends_calculateBlobGasPrice _) m
  | SELFBALANCE | BLOBHASH => exact does_unfinished _ m
  | BLOCKHASH => exact does_blockhash m
  | JUMP => exact does_jump m
  | JUMPI => exact does_jumpi m
  | JUMPDEST => exact does_metered ⟨rfl, rfl, fun _ => rfl⟩ rfl (stacks_pure _) m
  | PUSH n => exact does_pushN (n + 1) _ ⟨rfl, rfl, fun _ => rfl⟩ rfl m
  | PUSH32 => exact does_pushN WORD_SIZE _ ⟨rfl, rfl, fun _ => rfl⟩ rfl m
  | DUP n => exact does_dupN _ ⟨rfl, rfl, fun _ => rfl⟩ rfl m
  | SWAP n => exact does_swapN _ ⟨rfl, rfl, fun _ => rfl⟩ rfl m
  | POP => exact does_metered ⟨rfl, rfl, fun _ => rfl⟩ rfl (stacks_pop.bind fun _ => stacks_pure _) m
  | LOG n => exact does_logN n m
  | MLOAD => exact does_mload m
  | MSTORE => exact does_mstoreLow ⟨rfl, rfl⟩ rfl le_rfl (by decide) (fun _ => rfl) (fun _ _ => rfl) m
  | MSTORE8 => exact does_mstoreLow ⟨rfl, rfl⟩ rfl (by decide) (by decide) (fun _ => rfl) (fun _ _ => rfl) m
  | SLOAD => exact does_sload m
  | SSTORE => exact does_sstore m
  | MCOPY => exact (ensures_mcopy m).mono fun _ _ ⟨_, _, _, _, _, _, _, _, _, hdoes⟩ => hdoes
  | TSTORE => exact does_tstore m
  | CALL => exact does_call m
  | CALLCODE => exact does_callcode m
  | DELEGATECALL => exact does_delegatecall m
  | STATICCALL => exact does_staticcall m
  | RETURN => exact does_return m

variable {m : Machine}

theorem ensures_step {Q : Flow → Machine → Prop} (hat : m.At opcode) (h : Ensures (instruction opcode) m.advance Q) :
    Ensures step m Q := by
  refine ensures_of_bind (ensures_fetch m) fun opcode' m₁ hfetch => ?_
  obtain ⟨rfl, hat'⟩ := hfetch
  obtain rfl := hat.unique hat'
  exact h

theorem step_act (m : Machine) : Ensures step m fun flow m' => ∃ opcode, m.At opcode ∧
    Act m.advance opcode flow m' := by
  refine ensures_of_bind (ensures_fetch m) fun opcode m₁ h => ?_
  obtain ⟨rfl, hat⟩ := h
  exact (instruction_does opcode m.advance).mono fun flow m' hdoes => ⟨opcode, hat, hdoes.act⟩

theorem round_bill (hat : m.At opcode) (hround : Exec.Round Levm.step m m') : Bill m.advance opcode m' :=
  ((ensures_step hat (instruction_does opcode m.advance)).ok hround).bill rfl

end
end EthereumRust.Levm
