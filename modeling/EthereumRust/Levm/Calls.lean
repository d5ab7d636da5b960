import EthereumRust.Levm.Runs

/-! # Calls and returns

A caller's frame waits unchanged below the frames of its callee, and the `RETURN` of the
callee takes it up again with one more word on its stack and the output as its return
data. Nothing else comes back: neither the logs of the callee nor its output in the
caller's memory, and a callee that ends in another way never hands back at all. -/

namespace EthereumRust.Levm

open Rlp (Address U256)
open Rust Exec
open Mpt (Keccak256)
open Exec (Flow Ensures Round ensures_of_bind)

variable {memory : Memory}

/-! ## Memory -/

/-- A range that was loaded is covered by the memory, which has grown by zeros at most. -/
theorem loadRange_ok
    (h : memory.loadRange offset size = (.ok (bytes, memory') : Outcome Empty _)) :
    memory' = memory.grow (offset + size) ∧ offset + size < wordSize := by
  have hload : Outcome.Ensures (memory.loadRange offset size : Outcome Empty _) fun r =>
      r.2 = memory.grow (offset + size) ∧ offset + size < wordSize := by
    refine Outcome.ensures_bind.mpr (ensures_add.mpr fun hfits => ?_)
    refine Outcome.ensures_bind.mpr ((memory.ensures_resize _).mono fun grown hgrown => ?_)
    exact Outcome.ensures_bind.mpr (Outcome.ensures_ite.mpr ⟨fun _ => ⟨hgrown, hfits⟩, fun _ => trivial⟩)
  rw [h] at hload
  exact hload

/-! ## The stack of frames -/

/-- A stack that changed at its top, by one element at most. -/
inductive Nests {α : Type} (xs : List α) : List α → Prop
  | same : Nests xs xs
  | push (a : α) : Nests xs (a :: xs)
  | pop {a : α} {ys : List α} : xs = a :: ys → Nests xs ys

theorem Nests.suffix {α : Type} {below xs ys : List α} (h : Nests xs ys) (hxs : below <:+ xs)
    (hlength : below.length ≤ ys.length) : below <:+ ys := by
  cases h with
  | same => exact hxs
  | push a => exact hxs.trans (List.suffix_cons _ _)
  | pop heq =>
    subst heq
    rcases List.suffix_cons_iff.mp hxs with rfl | hsuffix
    · exact absurd hlength (Nat.not_succ_le_self _)
    · exact hsuffix

theorem Act.callFrames (h : Act m opcode flow m') :
    Nests m.vm.callFrames m'.vm.callFrames := by
  cases h with
  | spent h => cases h <;> exact .same
  | free | loaded | stored | jumped | kept | logged | declined => exact .same
  | entered entry warm => exact .push _
  | left _ _ _ _ _ _ parent rest _ _ _ hframes => exact .pop hframes

/-- What stays the same in a frame. -/
structure Context where
  msgSender : Address
  codeAddress : Address
  delegate : Option Address
  bytecode : ByteString
  isStatic : Bool

def CallFrame.context (frame : CallFrame) : Context :=
  ⟨frame.msgSender, frame.codeAddress, frame.delegate, frame.bytecode, frame.isStatic⟩

def Machine.contexts (m : Machine) : List Context := (m.frame :: m.vm.callFrames).map CallFrame.context

theorem Act.contexts (h : Act m opcode flow m') :
    Nests m.contexts m'.contexts := by
  cases h with
  | spent h => cases h <;> exact .same
  | free | loaded | stored | jumped | kept | logged | declined => exact .same
  | entered entry warm => exact .push _
  | left _ _ _ _ _ _ parent rest _ _ _ hframes =>
    refine .pop (a := m.frame.context) ?_
    rw [Machine.contexts, hframes]
    rfl

/-- Only `RETURN` takes a frame up. -/
theorem Act.left_of_shrunk (h : Act m opcode flow m')
    (hshrunk : m'.vm.callFrames.length < m.vm.callFrames.length) :
    opcode = .RETURN ∧ ∃ offset size stack returnData memory cost parent rest,
      m.frame.stack = offset :: size :: stack ∧
      m.frame.memory.loadRange offset.toNat size.toNat = (.ok (returnData, memory) : Outcome Empty _) ∧
      m.vm.callFrames = parent :: rest ∧ m' = (m.leave parent rest returnData).charged cost := by
  cases h with
  | spent h => cases h <;> exact absurd hshrunk (lt_irrefl _)
  | free | loaded | stored | jumped | kept | logged | declined => exact absurd hshrunk (lt_irrefl _)
  | entered entry warm => exact absurd hshrunk (Nat.lt_asymm (Nat.lt_succ_self _))
  | left offset size stack returnData memory cost parent rest hopcode hstack hload hframes _ =>
    exact ⟨hopcode, offset, size, stack, returnData, memory, cost, parent, rest, hstack, hload, hframes, rfl⟩

section

variable [Keccak256]

/-- A round that goes on with at least so many frames put aside. -/
def Above (depth : Nat) (m m' : Machine) : Prop := Round Levm.step m m' ∧ depth ≤ m'.vm.callFrames.length

theorem run_suffix (hrun : Relation.ReflTransGen (Above m₁.vm.callFrames.length) m₁ m₂) :
    m₁.vm.callFrames <:+ m₂.vm.callFrames := by
  induction hrun with
  | refl => exact List.suffix_refl _
  | tail _ hround ih =>
    obtain ⟨opcode, -, hact⟩ := (step_act _).ok hround.1
    exact hact.callFrames.suffix ih hround.2

theorem run_contexts (hrun : Relation.ReflTransGen (Above m₁.vm.callFrames.length) m₁ m₂) :
    m₁.contexts <:+ m₂.contexts := by
  induction hrun with
  | refl => exact List.suffix_refl _
  | tail _ hround ih =>
    obtain ⟨opcode, -, hact⟩ := (step_act _).ok hround.1
    refine hact.contexts.suffix ih ?_
    simpa [Machine.contexts] using hround.2

theorem run_context (hrun : Relation.ReflTransGen (Above m₁.vm.callFrames.length) m₁ m₂)
    (hdepth : m₂.vm.callFrames.length = m₁.vm.callFrames.length) : m₂.frame.context = m₁.frame.context := by
  have hsame : m₁.contexts = m₂.contexts :=
    (run_contexts hrun).eq_of_length (by simp [Machine.contexts, hdepth])
  exact (List.cons.inj hsame).1.symm

theorem round_entered (hround : Round Levm.step m₀ m₁)
    (hgrown : m₀.vm.callFrames.length < m₁.vm.callFrames.length) :
    ∃ entry warm, m₀.At entry.kind.opcode ∧ entry.Of m₀ ∧ m₁ = m₀.advance.enter entry warm := by
  obtain ⟨opcode, hat, hact⟩ := (step_act m₀).ok hround
  obtain ⟨entry, warm, rfl, hof, rfl⟩ := hact.entered_of_grown hgrown
  exact ⟨entry, warm, hat, ⟨hof.stack, hof.load⟩, rfl⟩

/-- The return that ends a call. -/
theorem round_left (hrun : Relation.ReflTransGen (Above m₁.vm.callFrames.length) m₁ m₂)
    (hround : Round Levm.step m₂ m₃) (hshrunk : m₃.vm.callFrames.length < m₁.vm.callFrames.length) :
    m₂.At .RETURN ∧ ∃ offset size stack returnData memory cost parent rest,
      m₂.frame.stack = offset :: size :: stack ∧
      m₂.frame.memory.loadRange offset.toNat size.toNat = (.ok (returnData, memory) : Outcome Empty _) ∧
      m₁.vm.callFrames = parent :: rest ∧ m₃ = (m₂.advance.leave parent rest returnData).charged cost := by
  obtain ⟨opcode, hat, hact⟩ := (step_act m₂).ok hround
  have hsuffix := run_suffix hrun
  have hlength : m₃.vm.callFrames.length < m₂.advance.vm.callFrames.length :=
    hshrunk.trans_le hsuffix.length_le
  obtain ⟨rfl, offset, size, stack, returnData, memory, cost, parent, rest, hstack, hload, hframes, rfl⟩ :=
    hact.left_of_shrunk hlength
  refine ⟨hat, offset, size, stack, returnData, memory, cost, parent, rest, hstack, hload, ?_, rfl⟩
  have hm₂ : m₂.vm.callFrames = parent :: rest := hframes
  rw [hm₂] at hsuffix
  rcases List.suffix_cons_iff.mp hsuffix with heq | hrest
  · exact heq
  · exact absurd hshrunk (Nat.not_lt.mpr hrest.length_le)

end

/-! ## Isolation of the caller -/

/-- The frame `frame` goes on after a call of `caller` with these operands: one word is on its stack in
place of the operands, its memory has grown by zeros to cover the arguments, and the rest is as it was. -/
structure Continues (caller : CallFrame) (kind : CallKind) (operands : CallOperands) (frame : CallFrame) : Prop where
  pc : frame.pc = caller.pc + 1
  stack : ∃ rest, caller.stack = kind.words operands ++ rest ∧ frame.stack = 1 :: rest
  memory : ∃ n, frame.memory.data = caller.memory.data ++ List.replicate n 0 ∧
    operands.argsOffset.toNat + operands.argsSize.toNat ≤ frame.memory.data.length
  bytecode : frame.bytecode = caller.bytecode
  calldata : frame.calldata = caller.calldata
  isStatic : frame.isStatic = caller.isStatic
  delegate : frame.delegate = caller.delegate
  codeAddress : frame.codeAddress = caller.codeAddress
  msgSender : frame.msgSender = caller.msgSender
  recipient : frame.recipient = caller.recipient
  msgValue : frame.msgValue = caller.msgValue
  gas : frame.gas = caller.gas
  transientStorage : frame.transientStorage = caller.transientStorage
  logs : frame.logs = caller.logs

theorem continues_resume {entry : Entry} (h : entry.Of m) (returnData : ByteString) :
    Continues m.frame entry.kind entry.operands ((m.advance.frame.waiting entry).resume returnData) := by
  obtain ⟨hgrown, -⟩ := loadRange_ok h.load
  have hcovers : _ ≤ entry.memory.data.length := hgrown ▸ Memory.le_length_grow _ _
  exact ⟨rfl, ⟨entry.stack, h.stack, rfl⟩, ⟨_, congrArg Memory.data hgrown, hcovers⟩, rfl,
    rfl, rfl, rfl, rfl, rfl, rfl, rfl, rfl, rfl, rfl⟩

section

variable [Keccak256]

/-- From the call until the `RETURN` that ends it the caller's frame waits unchanged, and after that
`RETURN` the caller goes on behind its call. -/
theorem caller_isolated (hcall : Round Levm.step m₀ m₁)
    (hgrown : m₀.vm.callFrames.length < m₁.vm.callFrames.length)
    (hrun : Relation.ReflTransGen (Above m₁.vm.callFrames.length) m₁ m₂) :
    ∃ saved kind operands, m₁.vm.callFrames = saved :: m₀.vm.callFrames ∧ m₀.At kind.opcode ∧
      saved :: m₀.vm.callFrames <:+ m₂.vm.callFrames ∧
      ∀ m₃, Round Levm.step m₂ m₃ → m₃.vm.callFrames.length < m₁.vm.callFrames.length →
        m₂.At .RETURN ∧ m₃.vm.callFrames = m₀.vm.callFrames ∧ Continues m₀.frame kind operands m₃.frame := by
  obtain ⟨entry, warm, hat, hof, rfl⟩ := round_entered hcall hgrown
  refine ⟨m₀.advance.frame.waiting entry, entry.kind, entry.operands, rfl, hat, run_suffix hrun, ?_⟩
  intro m₃ hround hshrunk
  obtain ⟨hreturn, _, _, _, returnData, _, _, parent, rest, _, _, hframes, rfl⟩ := round_left hrun hround hshrunk
  cases hframes
  exact ⟨hreturn, rfl, continues_resume hof returnData⟩

end

def sampleDb (codes : List ByteString) : Db where
  accounts := (codes.zipIdx 1).foldr (fun (code, n) accounts =>
    accounts.insert (Word.toAddress (BitVec.ofNat 256 n)) (Account.new 0 code)) ∅
  blockHashes := ∅

def sampleMachine (code : ByteString) (stack : List U256) (codes : List ByteString) : Machine where
  vm := { VM.new [] CallFrame.zeroAddress 0 with callFrames := [], db := sampleDb codes }
  txEnv := ⟨1000000, 0⟩
  frame := { CallFrame.newFromBytecode code with stack := stack }

def sampleVm (code : ByteString) (codes : List ByteString) : VM :=
  { VM.new code CallFrame.zeroAddress 0 with db := sampleDb codes }

def Machine.after [Keccak256] (m : Machine) : Nat → Machine
  | 0 => m
  | n + 1 => (Levm.step (m.after n)).2

/-- The machine is reached by a run of `VM::execute` with this record of its rounds. -/
inductive VM.Recorded [Keccak256] {ρ : Type} (vm : VM) (first : Machine → ρ) (next : ρ → Machine → Machine → ρ) :
    Machine → ρ → Prop
  | start {frame : CallFrame} {rest : List CallFrame} : vm.callFrames = frame :: rest →
      VM.Recorded vm first next (vm.start frame rest) (first (vm.start frame rest))
  | round {m m' : Machine} {record : ρ} : VM.Recorded vm first next m record → Round Levm.step m m' →
      VM.Recorded vm first next m' (next record m m')

def Machine.recordAfter [Keccak256] {ρ : Type} (first : Machine → ρ) (next : ρ → Machine → Machine → ρ) (m : Machine) :
    Nat → ρ
  | 0 => first m
  | n + 1 => next (m.recordAfter first next n) (m.after n) (m.after (n + 1))

theorem recorded_after [Keccak256] {ρ : Type} {first : Machine → ρ} {next : ρ → Machine → Machine → ρ}
    {vm : VM} (hframes : vm.callFrames = frame :: rest) (n : Nat)
    (hrounds : ∀ k < n, (Levm.step ((vm.start frame rest).after k)).1 = .ok .next) :
    vm.Recorded first next ((vm.start frame rest).after n) ((vm.start frame rest).recordAfter first next n) := by
  induction n with
  | zero => exact .start hframes
  | succ n ih =>
    exact .round (ih fun k hk => hrounds k (Nat.lt_succ_of_lt hk)) (Prod.ext (hrounds n (Nat.lt_succ_self n)) rfl)

attribute [local instance] Keccak256.empty

/-- A call of an account whose code returns nothing. -/
theorem caller_isolated_sampleMachine :
    let m₀ := sampleMachine [0xF1] [1000, 1, 0, 0, 0, 0, 0] [[0x5F, 0x5F, 0xF3]]
    (m₀.after 4).frame.stack = [1] ∧
    ∃ saved kind operands, (m₀.after 1).vm.callFrames = saved :: m₀.vm.callFrames ∧ m₀.At kind.opcode ∧
      saved :: m₀.vm.callFrames <:+ (m₀.after 3).vm.callFrames ∧
      ∀ m₃, Round Levm.step (m₀.after 3) m₃ → m₃.vm.callFrames.length < (m₀.after 1).vm.callFrames.length →
        (m₀.after 3).At .RETURN ∧ m₃.vm.callFrames = m₀.vm.callFrames ∧
        Continues m₀.frame kind operands m₃.frame := by
  refine ⟨by decide +kernel, caller_isolated (Prod.ext ?_ rfl) (by decide +kernel)
    (.tail (.single ⟨Prod.ext ?_ rfl, by decide +kernel⟩) ⟨Prod.ext ?_ rfl, by decide +kernel⟩)⟩
  all_goals decide +kernel

/-! ## What a callee hands back -/

/-- The frame at work halts normally, with this output. -/
inductive NormalHalt (m : Machine) : ByteString → Prop
  | stop : m.At .STOP → NormalHalt m []
  /-- The end of the code. -/
  | ended : m.frame.bytecode.length ≤ m.frame.pc → NormalHalt m []
  | returned (offset size : U256) (stack : List U256) (output : ByteString) (memory : Memory) (cost : Nat) :
      m.At .RETURN → m.frame.stack = offset :: size :: stack →
      m.frame.memory.loadRange offset.toNat size.toNat = (.ok (output, memory) : Outcome Empty _) →
      m.frame.memory.expansionCost (offset.toNat + size.toNat) = (.ok cost : Outcome Empty _) → m.Affords cost →
      NormalHalt m output

/-- The first bytes of the output, as many as fit, stand in the memory from `offset` on. -/
def Memory.HoldsOutput (memory : Memory) (offset size : Nat) (output : ByteString) : Prop :=
  (memory.data.drop offset).take (min size output.length) = output.take (min size output.length)

/-- The caller `m` of the callee at work in `m₂` goes on in `m'`, with the output and the logs of the callee. -/
structure HandedBack (m m₂ : Machine) (operands : CallOperands) (rest : List U256) (output : ByteString)
    (m' : Machine) : Prop where
  callFrames : m'.vm.callFrames = m.vm.callFrames
  bytecode : m'.frame.bytecode = m.frame.bytecode
  pc : m'.frame.pc = m.frame.pc + 1
  stack : m'.frame.stack = 1 :: rest
  returndata : m'.frame.returndata = output
  memory : m'.frame.memory.HoldsOutput operands.retOffset.toNat operands.retSize.toNat output
  logs : m'.frame.logs = m.frame.logs ++ m₂.frame.logs

/-! ### The run of `RETURN` -/

theorem fetch_run (hat : m.At opcode) (hpc : m.frame.pc + 1 < wordSize) :
    fetch m = (.ok opcode, m.advance) := by
  have hnext : (m.frame.nextOpcode : Outcome Empty _) = .ok (some opcode, m.advance.frame) := by
    rw [CallFrame.nextOpcode, hat, CallFrame.incrementPcBy, add_ok hpc]
    rfl
  have hchecked : (checked m.frame.nextOpcode : Levm _) m = (.ok (some opcode, m.advance.frame), m) := by
    rw [hnext]
    rfl
  rw [fetch, run_bind_ok (run_get m), run_bind_ok hchecked]
  rfl

theorem pop_run {rest} (hstack : m.frame.stack = value :: rest) :
    pop m = (.ok value, m.withStack rest) := by
  rw [pop, run_bind_ok (run_get m), hstack]
  rfl

theorem popUsize_run {rest} (hstack : m.frame.stack = value :: rest)
    (hfits : value.toNat < wordSize) : popUsize m = (.ok value.toNat, m.withStack rest) := by
  rw [popUsize, run_bind_ok (pop_run hstack), Word.toUsize, if_pos hfits]
  rfl

theorem exceeds_run (h : m.Affords cost) : exceeds cost m = (.ok false, m) := by
  have hadd : (checked (Rust.add m.txEnv.consumedGas cost) : Levm _) m = (.ok (m.txEnv.consumedGas + cost), m) := by
    rw [add_ok h.fits]
    rfl
  rw [exceeds, run_bind_ok (run_get m), run_bind_ok hadd, decide_eq_false (Nat.not_lt.mpr h.limit)]
  rfl

theorem charge_run (h : m.txEnv.consumedGas + cost < wordSize) :
    charge cost m = (.ok (), m.charged cost) := by
  have hadd : (checked (Rust.add m.txEnv.consumedGas cost) : Levm _) m = (.ok (m.txEnv.consumedGas + cost), m) := by
    rw [add_ok h]
    rfl
  rw [charge, run_bind_ok (run_get m), run_bind_ok hadd]
  rfl

theorem return_run {offset size stack output parent} (hstack : m.frame.stack = offset :: size :: stack)
    (hload : m.frame.memory.loadRange offset.toNat size.toNat = (.ok (output, memory) : Outcome Empty _))
    (hcost : m.frame.memory.expansionCost (offset.toNat + size.toNat) = (.ok cost : Outcome Empty _))
    (hafford : m.Affords cost) (hframes : m.vm.callFrames = parent :: rest) :
    return_ m = (.ok .next, (m.leave parent rest output).charged cost) := by
  obtain ⟨-, hfits⟩ := loadRange_ok hload
  have hoffset : popUsize m = (.ok offset.toNat, m.withStack (size :: stack)) := popUsize_run hstack (by omega)
  have hsize : popUsize (m.withStack (size :: stack)) = (.ok size.toNat, m.withStack stack) :=
    popUsize_run rfl (by omega)
  have hstop : (checked (Rust.add offset.toNat size.toNat) : Levm _) (m.withStack stack) =
      (.ok (offset.toNat + size.toNat), m.withStack stack) := by
    rw [add_ok hfits]
    rfl
  have hexpansion : expansionCost (offset.toNat + size.toNat) (m.withStack stack) = (.ok cost, m.withStack stack) :=
    Prod.ext hcost rfl
  have hexceeds : exceeds cost (m.withStack stack) = (.ok false, m.withStack stack) :=
    exceeds_run ⟨hafford.limit, hafford.fits⟩
  have hreturn : onMemory (fun memory => memory.loadRange offset.toNat size.toNat) (m.withStack stack) =
      (.ok output, m.work stack memory) := by
    rw [onMemory, run_bind_ok (run_get _)]
    have hchecked : (checked ((m.withStack stack).frame.memory.loadRange offset.toNat size.toNat) : Levm _)
        (m.withStack stack) = (.ok (output, memory), m.withStack stack) := Prod.ext hload rfl
    rw [run_bind_ok hchecked]
    rfl
  rw [return_, run_bind_ok hoffset, run_bind_ok hsize, run_bind_ok hstop, run_bind_ok hexpansion,
    run_bind_ok hexceeds, if_neg Bool.false_ne_true, run_bind_ok hreturn, run_bind_ok (run_get _)]
  have hwork : (m.work stack memory).vm.callFrames = parent :: rest := hframes
  rw [hwork]
  have hcharge : charge cost (m.leave parent rest output) = (.ok (), (m.leave parent rest output).charged cost) :=
    charge_run hafford.fits
  exact run_bind_ok hcharge _

section

variable [Keccak256] {m₀ m₁ m₂ : Machine} {operands : CallOperands} {rest : List U256} {output : ByteString}

/-- A callee that halts normally hands back control, output and logs exactly if it halts with `RETURN`, has
no logs, and the caller's memory already holds the output. -/
theorem hands_back_iff (kind : CallKind) (hat : m₀.At kind.opcode)
    (hstack : m₀.frame.stack = kind.words operands ++ rest)
    (hcall : Round Levm.step m₀ m₁) (hgrown : m₀.vm.callFrames.length < m₁.vm.callFrames.length)
    (hrun : Relation.ReflTransGen (Above m₁.vm.callFrames.length) m₁ m₂)
    (hdepth : m₂.vm.callFrames.length = m₁.vm.callFrames.length)
    (hcode : m₂.frame.bytecode.length < Rust.wordSize) (hhalt : NormalHalt m₂ output) :
    (∃ m₃, Round Levm.step m₂ m₃ ∧ HandedBack m₀ m₂ operands rest output m₃) ↔
    m₂.At .RETURN ∧ m₂.frame.logs = [] ∧ ∃ saved, m₁.vm.callFrames = saved :: m₀.vm.callFrames ∧
      saved.memory.HoldsOutput operands.retOffset.toNat operands.retSize.toNat output := by
  obtain ⟨entry, warm, hentry, hof, rfl⟩ := round_entered hcall hgrown
  obtain rfl : kind = entry.kind := CallKind.opcode_injective (hat.unique hentry)
  obtain rfl : rest = entry.stack := List.append_inj_right (hstack.symm.trans hof.stack) (by simp)
  constructor
  · rintro ⟨m₃, hround, hback⟩
    have hshrunk : m₃.vm.callFrames.length < (m₀.advance.enter entry warm).vm.callFrames.length := by
      rw [hback.callFrames]
      exact Nat.lt_succ_self _
    obtain ⟨hreturn, _, _, _, _, _, _, parent, frames, _, _, hframes, rfl⟩ := round_left hrun hround hshrunk
    cases hframes
    -- the caller has the logs it was put aside with
    have hlogs : m₀.frame.logs = m₀.frame.logs ++ m₂.frame.logs := hback.logs
    exact ⟨hreturn, List.self_eq_append_right.mp hlogs, _, rfl, hback.memory⟩
  · rintro ⟨hreturn, hlogs, saved, hsaved, hholds⟩
    cases hsaved
    cases hhalt with
    | stop h => cases hreturn.unique h
    | ended h => exact absurd hreturn.pc_lt (Nat.not_lt.mpr h)
    | returned offset size stack output memory cost _ hstack₂ hload hcost hafford =>
      have hframes : m₂.vm.callFrames = m₀.advance.frame.waiting entry :: m₀.vm.callFrames :=
        ((run_suffix hrun).eq_of_length hdepth.symm).symm
      have hpc : m₂.frame.pc + 1 < Rust.wordSize := Nat.lt_of_le_of_lt hreturn.pc_lt hcode
      have hleave : return_ m₂.advance = (.ok .next, _) :=
        return_run hstack₂ hload hcost ⟨hafford.limit, hafford.fits⟩ hframes
      refine ⟨_, (run_bind_ok (fetch_run hreturn hpc) _).trans hleave, ?_⟩
      exact ⟨rfl, rfl, rfl, rfl, rfl, hholds, by rw [hlogs, List.append_nil]; rfl⟩

end

/-- A callee that returns nothing. -/
theorem hands_back_iff_sampleMachine :
    let m₀ := sampleMachine [0xF1] [1000, 1, 0, 0, 0, 0, 0] [[0x5F, 0x5F, 0xF3]]
    (m₀.after 3).At .RETURN ∧
    ((∃ m₃, Round Levm.step (m₀.after 3) m₃ ∧ HandedBack m₀ (m₀.after 3) ⟨1000, 1, 0, 0, 0, 0, 0⟩ [] [] m₃) ↔
      (m₀.after 3).At .RETURN ∧ (m₀.after 3).frame.logs = [] ∧
      ∃ saved, (m₀.after 1).vm.callFrames = saved :: m₀.vm.callFrames ∧ saved.memory.HoldsOutput 0 0 []) := by
  refine ⟨by decide +kernel, hands_back_iff .call (by decide +kernel) rfl (Prod.ext ?_ rfl)
    (by decide +kernel) (.tail (.single ⟨Prod.ext ?_ rfl, by decide +kernel⟩) ⟨Prod.ext ?_ rfl, by decide +kernel⟩)
    (by decide +kernel) (by decide +kernel)
    (.returned 0 0 [] [] Memory.new 0 (by decide +kernel) (by decide +kernel) (by decide +kernel) (by decide +kernel)
      ⟨by decide +kernel, by decide +kernel⟩)⟩
  all_goals decide +kernel

/-- Four callees that halt normally. After `STOP` the whole machine stops with the caller's frame put aside,
at the end of the code it panics, after `RETURN` the caller's memory is as before, and the log is gone. -/
theorem halts_without_handing_back :
    let call (code : ByteString) := sampleMachine [0xF1] [1000, 1, 0, 0, 0, 0, 32] [code]
    let stops := (call [0x00]).after 1
    let ends := (call [0x5B]).after 2
    let returns := call [0x60, 0x01, 0x5F, 0x52, 0x60, 0x20, 0x5F, 0xF3]
    let logs := call [0x5F, 0x5F, 0xA0, 0x5F, 0x5F, 0xF3]
    (stops.At .STOP ∧ (Levm.step stops).1 = .ok .stop ∧ (Levm.step stops).2.vm.callFrames.length = 1) ∧
    (ends.frame.bytecode.length ≤ ends.frame.pc ∧
      (Levm.step ends).1 = Outcome.panic "called `Option::unwrap()` on a `None` value") ∧
    ((returns.after 6).At .RETURN ∧ (Levm.step (returns.after 6)).1 = .ok .next ∧
      (returns.after 7).frame.returndata = bytesOfWord 1 ∧ (returns.after 7).frame.memory.data = []) ∧
    ((logs.after 6).At .RETURN ∧ (logs.after 6).frame.logs.length = 1 ∧
      (Levm.step (logs.after 6)).1 = .ok .next ∧ (logs.after 7).frame.logs = []) := by
  decide +kernel

/-! ## The account whose storage is used -/

theorem CallFrame.storageAddress_eq {frame frame' : CallFrame} (h : frame.context = frame'.context) :
    frame.storageAddress = frame'.storageAddress := by
  have hcode : frame.codeAddress = frame'.codeAddress := congrArg Context.codeAddress h
  have hdelegate : frame.delegate = frame'.delegate := congrArg Context.delegate h
  rw [CallFrame.storageAddress, CallFrame.storageAddress, hcode, hdelegate]

section

variable [Keccak256]

/-- `SLOAD` and `SSTORE` of the machine use the storage of this account. -/
structure UsesStorage (m : Machine) (address : Address) : Prop where
  sload : ∀ key stack m', m.At .SLOAD → m.frame.stack = key :: stack → Round Levm.step m m' →
    m'.frame.stack = (m.vm.db.readAccountStorage address key).elim 0 StorageSlot.currentValue :: stack
  sstore : ∀ key value stack m', m.At .SSTORE → m.frame.stack = key :: value :: stack → Round Levm.step m m' →
    ∃ originalValue, m'.vm.db = m.vm.db.writeAccountStorage address key ⟨originalValue, value⟩

theorem usesStorage (m : Machine) : UsesStorage m m.frame.storageAddress := by
  constructor
  · intro key stack m' hat hstack hround
    obtain ⟨-, key', stack', hstack', rfl⟩ := (ensures_step hat (ensures_sload m.advance)).ok hround
    cases hstack.symm.trans hstack'
    rfl
  · intro key value stack m' hat hstack hround
    obtain ⟨-, -, key', value', stack', hstack', rfl⟩ := (ensures_step hat (ensures_sstore m.advance)).ok hround
    cases hstack.symm.trans hstack'
    exact ⟨_, rfl⟩

/-- A callee of `DELEGATECALL` and `CALLCODE` uses the storage of its caller exactly if the caller uses
that of its message sender. A callee of `CALL` and `STATICCALL` uses that of the called account. Both
hold as long as the callee runs. -/
theorem delegated_storage_iff (hcall : Round Levm.step m₀ m₁)
    (hgrown : m₀.vm.callFrames.length < m₁.vm.callFrames.length) :
    (m₀.At .DELEGATECALL ∨ m₀.At .CALLCODE →
      (m₁.frame.storageAddress = m₀.frame.storageAddress ↔ m₀.frame.msgSender = m₀.frame.storageAddress)) ∧
    (∀ gas address stack, m₀.At .CALL ∨ m₀.At .STATICCALL → m₀.frame.stack = gas :: address :: stack →
      m₁.frame.storageAddress = Word.toAddress address) ∧
    ∀ m₂, Relation.ReflTransGen (Above m₁.vm.callFrames.length) m₁ m₂ →
      m₂.vm.callFrames.length = m₁.vm.callFrames.length → UsesStorage m₂ m₁.frame.storageAddress := by
  refine ⟨fun hat => ?_, fun gas address stack hat hstack => ?_, fun m₂ hrun hdepth => ?_⟩
  · obtain ⟨entry, warm, hentry, hof, rfl⟩ := round_entered hcall hgrown
    rcases entry with ⟨kind, operands, rest, calldata, memory⟩
    cases kind with
    | call | staticcall => rcases hat with hat | hat <;> cases hat.unique hentry
    | callcode | delegatecall => exact Iff.rfl
  · obtain ⟨entry, warm, hentry, hof, rfl⟩ := round_entered hcall hgrown
    rcases entry with ⟨kind, operands, rest, calldata, memory⟩
    cases kind with
    | call | staticcall =>
      cases hstack.symm.trans hof.stack
      rfl
    | callcode | delegatecall => rcases hat with hat | hat <;> cases hat.unique hentry
  · rw [← CallFrame.storageAddress_eq (run_context hrun hdepth)]
    exact usesStorage m₂

end

/-- A frame that uses the storage of its message sender, the account `0`, delegates to the account `1`. -/
theorem delegated_storage_iff_sampleMachine :
    let m₀ := sampleMachine [0xF4] [1000, 1, 0, 0, 0, 0] [[0x5F, 0x54]]
    let m₁ := m₀.after 1
    m₁.frame.storageAddress = m₀.frame.storageAddress ∧
    (m₀.At .DELEGATECALL ∨ m₀.At .CALLCODE →
      (m₁.frame.storageAddress = m₀.frame.storageAddress ↔ m₀.frame.msgSender = m₀.frame.storageAddress)) ∧
    (∀ gas address stack, m₀.At .CALL ∨ m₀.At .STATICCALL → m₀.frame.stack = gas :: address :: stack →
      m₁.frame.storageAddress = Word.toAddress address) ∧
    ∀ m₂, Relation.ReflTransGen (Above m₁.vm.callFrames.length) m₁ m₂ →
      m₂.vm.callFrames.length = m₁.vm.callFrames.length → UsesStorage m₂ m₁.frame.storageAddress := by
  exact ⟨by decide +kernel, delegated_storage_iff (Prod.ext (by decide +kernel) rfl) (by decide +kernel)⟩

/-- The account `1` is called and delegates to the account `2`, whose code stores `7`. The slot is written in
the account `0`, the message sender, and not in the account `1`. -/
theorem delegated_storage_at_depth_two :
    let m := sampleMachine [0xF1] [1000, 1, 0, 0, 0, 0, 0]
      [[0x5F, 0x5F, 0x5F, 0x5F, 0x60, 0x02, 0x5F, 0xF4], [0x60, 0x07, 0x5F, 0x55]]
    (∀ n < 11, (Levm.step (m.after n)).1 = .ok .next) ∧
    (m.after 7).At .DELEGATECALL ∧ (m.after 7).vm.callFrames.length < (m.after 8).vm.callFrames.length ∧
    (m.after 7).frame.storageAddress = Word.toAddress 1 ∧ (m.after 8).frame.storageAddress = Word.toAddress 0 ∧
    (m.after 11).vm.db.readAccountStorage (Word.toAddress 1) 0 = none ∧
    (m.after 11).vm.db.readAccountStorage (Word.toAddress 0) 0 = some ⟨7, 7⟩ := by
  decide +kernel

end EthereumRust.Levm
