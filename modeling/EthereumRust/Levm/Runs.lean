import Mathlib.Data.Prod.Lex
import EthereumRust.Levm.Actions

/-! # Runs of the interpreter

A run ends: gas is spent, or the stacks and frames get smaller, or the program counter
moves on. Between a static call and its return nothing is written. -/

namespace EthereumRust.Levm

open Mpt (Keccak256)
open List
open Exec (Flow Ensures Round ensures_of_bind)

variable {m m' : Machine}

/-! ## Termination -/

def Machine.load (m : Machine) : Nat :=
  (m.vm.callFrames.map fun frame => frame.stack.length + 1).sum + m.frame.stack.length

/-- The gas that is left before its counter overflows, the load, and the code that is left. -/
def Machine.budget (m : Machine) : Nat × Nat × Nat :=
  (Rust.wordSize - m.txEnv.consumedGas, m.load, m.frame.bytecode.length - m.frame.pc)

/-- The order in which rounds go down. -/
def Smaller : Machine → Machine → Prop :=
  InvImage (Prod.Lex (· < ·) (Prod.Lex (· < ·) (· < ·))) Machine.budget

theorem smaller_wf : WellFounded Smaller :=
  InvImage.wf _ (WellFounded.prod_lex Nat.lt_wfRel.wf (WellFounded.prod_lex Nat.lt_wfRel.wf Nat.lt_wfRel.wf))

theorem smaller_of_gas (hspent : m.txEnv.consumedGas < m'.txEnv.consumedGas)
    (hfits : m'.txEnv.consumedGas < Rust.wordSize) : Smaller m' m :=
  Prod.Lex.left _ _ (by omega)

theorem smaller_of_load (hgas : m.txEnv.consumedGas ≤ m'.txEnv.consumedGas)
    (hload : m'.load < m.load) : Smaller m' m := by
  rcases (Nat.sub_le_sub_left hgas Rust.wordSize).lt_or_eq with hlt | heq
  · exact Prod.Lex.left _ _ hlt
  · rw [Smaller, InvImage, Machine.budget, heq]
    exact Prod.Lex.right _ (Prod.Lex.left _ _ hload)

theorem smaller_of_pc (hgas : m.txEnv.consumedGas ≤ m'.txEnv.consumedGas)
    (hload : m'.load = m.load)
    (hpc : m'.frame.bytecode.length - m'.frame.pc < m.frame.bytecode.length - m.frame.pc) : Smaller m' m := by
  rcases (Nat.sub_le_sub_left hgas Rust.wordSize).lt_or_eq with hlt | heq
  · exact Prod.Lex.left _ _ hlt
  · rw [Smaller, InvImage, Machine.budget, heq, hload]
    exact Prod.Lex.right _ (Prod.Lex.right _ hpc)

theorem load_lt (hframes : m'.vm.callFrames = m.vm.callFrames)
    (hstack : m'.frame.stack.length < m.frame.stack.length) : m'.load < m.load := by
  rw [Machine.load, Machine.load, hframes]
  omega

variable (kind : CallKind)

theorem CallKind.six_le_arity : 6 ≤ kind.arity := by cases kind <;> decide

theorem CallKind.callee_empty (caller : CallFrame) (operands : CallOperands)
    (bytecode calldata : ByteString) : (kind.callee caller operands bytecode calldata).logs = [] ∧
      (kind.callee caller operands bytecode calldata).stack = [] := by
  cases kind <;> exact ⟨rfl, rfl⟩

section

variable [Keccak256]

/-- Every round that goes on leads to a smaller machine. -/
theorem step_smaller (m : Machine) : Ensures step m fun flow m' => flow = .next → Smaller m' m := by
  refine (step_act m).mono fun flow m' ⟨opcode, hat, hact⟩ hnext => ?_
  cases hact with
  | spent h =>
    cases h with
    | halts => cases hnext
    | works _ _ _ _ hpos hfits => exact smaller_of_gas (Nat.lt_add_of_pos_right hpos) hfits
  | free stack hstack => exact smaller_of_load le_rfl (load_lt rfl hstack)
  | loaded key stack _ hstack =>
    have hpc := hat.pc_lt
    have hstack : m.frame.stack = key :: stack := hstack
    refine smaller_of_pc le_rfl ?_ ?_
    · rw [Machine.load, Machine.load, hstack]
      rfl
    · change m.frame.bytecode.length - (m.frame.pc + 1) < _
      omega
  | stored key value originalValue stack _ _ hstack =>
    refine smaller_of_load le_rfl (load_lt rfl ?_)
    rw [show m.frame.stack = key :: value :: stack from hstack]
    exact Nat.lt_succ_of_lt (Nat.lt_succ_self _)
  | jumped _ _ _ _ _ hpos hafford => exact smaller_of_gas (Nat.lt_add_of_pos_right hpos) hafford.fits
  | kept _ _ _ _ _ hafford => exact smaller_of_gas (Nat.lt_add_of_pos_right (by decide)) hafford.fits
  | logged _ _ _ _ _ _ _ hpos hafford => exact smaller_of_gas (Nat.lt_add_of_pos_right hpos) hafford.fits
  | declined kind operands word stack _ _ hstack =>
    have harity := kind.six_le_arity
    refine smaller_of_load le_rfl (load_lt rfl ?_)
    rw [show m.frame.stack = kind.words operands ++ stack from hstack, length_append, CallKind.length_words]
    change stack.length + 1 < _
    omega
  | entered entry _ _ hof =>
    have harity := entry.kind.six_le_arity
    refine smaller_of_load le_rfl ?_
    rw [Machine.load, Machine.load, show m.frame.stack = _ from hof.stack, length_append, CallKind.length_words]
    change entry.stack.length + 1 + (m.vm.callFrames.map _).sum + (entry.kind.callee _ _ _ _).stack.length < _
    rw [(entry.kind.callee_empty _ _ _ _).2, length_nil]
    omega
  | left offset size stack _ _ _ parent rest _ hstack _ hframes _ =>
    refine smaller_of_load (Nat.le_add_right _ _) ?_
    rw [Machine.load, Machine.load, show m.vm.callFrames = parent :: rest from hframes,
      show m.frame.stack = offset :: size :: stack from hstack, map_cons]
    change (rest.map _).sum + (parent.stack.length + 1) <
      parent.stack.length + 1 + (rest.map _).sum + (stack.length + 2)
    omega

/-- `VM::execute` ends: with enough rounds it returns or panics, and more rounds change nothing. -/
theorem execute_terminates (vm : VM) :
    ∃ n, ((∃ vm', vm.execute n = .ok vm') ∨ ∃ message, vm.execute n = Outcome.panic message) ∧
      ∀ k, n ≤ k → vm.execute k = vm.execute n := by
  unfold VM.execute
  split
  · exact ⟨0, .inr ⟨_, rfl⟩, fun _ _ => rfl⟩
  · rename_i frame rest _
    obtain ⟨n, hend, hmore⟩ := Exec.loop_settles smaller_wf step_smaller (vm.start frame rest)
    refine ⟨n, ?_, fun k hk => by rw [hmore k hk]⟩
    rcases hend.cases with ⟨_, m, hrun, -⟩ | ⟨message, m, hrun⟩
    · exact .inl ⟨m.finish, by rw [hrun]⟩
    · exact .inr ⟨message, by rw [hrun]; rfl⟩

end

/-! ## The gas limit -/

def VM.Reaches [Keccak256] (vm : VM) (m : Machine) : Prop :=
  ∃ frame rest, vm.callFrames = frame :: rest ∧
    Relation.ReflTransGen (Round Levm.step) (vm.start frame rest) m

/-- An `MCOPY` that the machine completes leaves the gas within the limit. -/
def McopyFits [Keccak256] (m : Machine) : Prop :=
  m.At .MCOPY → ∀ m', Round Levm.step m m' → ∀ destOffset srcOffset size stack cost,
    m.frame.stack = destOffset :: srcOffset :: size :: stack →
    mcopyCost m.frame.memory destOffset.toNat srcOffset.toNat size.toNat = .ok cost →
    m.txEnv.consumedGas + cost ≤ m.txEnv.gasLimit

section

variable [Keccak256]

theorem step_gasLimit (m : Machine) : Ensures Levm.step m fun _ m' =>
    m'.txEnv.gasLimit = m.txEnv.gasLimit ∧ m'.vm.gasLimit = m.vm.gasLimit := by
  refine (step_act m).mono ?_
  rintro flow m' ⟨opcode, -, hact⟩
  cases hact with
  | spent h => cases h <;> exact ⟨rfl, rfl⟩
  | free | loaded | stored | jumped | kept | logged | declined | entered | left => exact ⟨rfl, rfl⟩

theorem step_mcopy (hat : m.At .MCOPY) (hstep : Levm.step m = (.ok flow, m')) :
    ∃ destOffset srcOffset size stack cost, m.frame.stack = destOffset :: srcOffset :: size :: stack ∧
      mcopyCost m.frame.memory destOffset.toNat srcOffset.toNat size.toNat = .ok cost ∧
      m'.txEnv.consumedGas = m.txEnv.consumedGas + cost := by
  obtain ⟨-, dest, src, size, stack, cost, hstack, hcost, hgas, -⟩ :=
    (ensures_step hat (ensures_mcopy m.advance)).ok hstep
  exact ⟨dest, src, size, stack, cost, hstack, hcost, hgas⟩

/-- A round keeps the gas within the limit. -/
theorem round_within_limit (hfits : McopyFits m)
    (hm : m.txEnv.consumedGas ≤ m.txEnv.gasLimit) (hstep : Levm.step m = (.ok flow, m')) :
    m'.txEnv.consumedGas ≤ m.txEnv.gasLimit := by
  obtain ⟨opcode, hat, hact⟩ := (step_act m).ok hstep
  cases hact with
  | spent h =>
    cases h with
    | halts => exact hm
    | works stack memory cost _ _ _ hlimit =>
      by_cases hmcopy : opcode = .MCOPY
      · subst hmcopy
        obtain ⟨destOffset, srcOffset, size, stack, cost, hstack, hcost, hgas⟩ := step_mcopy hat hstep
        rw [hgas]
        exact hfits hat _ hstep destOffset srcOffset size stack cost hstack hcost
      · exact hlimit hmcopy
  | free | loaded | stored | declined | entered => exact hm
  | jumped _ _ _ _ _ _ hafford => exact hafford.limit
  | kept _ _ _ _ _ hafford => exact hafford.limit
  | logged _ _ _ _ _ _ _ _ hafford => exact hafford.limit
  | left _ _ _ _ _ _ _ _ _ _ _ _ hafford => exact hafford.limit

variable {vm : VM}

theorem VM.Reaches.gasLimit (h : vm.Reaches m) :
    m.txEnv.gasLimit = vm.gasLimit ∧ m.vm.gasLimit = vm.gasLimit := by
  obtain ⟨frame, rest, -, hrun⟩ := h
  induction hrun with
  | refl => exact ⟨rfl, rfl⟩
  | tail _ hround ih =>
    obtain ⟨htx, hvm⟩ := (step_gasLimit _).ok hround
    exact ⟨htx.trans ih.1, hvm.trans ih.2⟩

theorem VM.Reaches.round (h : vm.Reaches m) (hround : Round Levm.step m m') : vm.Reaches m' := by
  obtain ⟨frame, rest, hframes, hrun⟩ := h
  exact ⟨frame, rest, hframes, hrun.tail hround⟩

theorem VM.Reaches.within_limit (hstart : vm.consumedGas ≤ vm.gasLimit)
    (hfits : ∀ m, vm.Reaches m → McopyFits m) (h : vm.Reaches m) : m.txEnv.consumedGas ≤ m.txEnv.gasLimit := by
  obtain ⟨frame, rest, hframes, hrun⟩ := h
  induction hrun with
  | refl => exact hstart
  | tail hrun hround ih =>
    rw [((step_gasLimit _).ok hround).1]
    exact round_within_limit (hfits _ ⟨frame, rest, hframes, hrun⟩) ih hround

theorem VM.execute_ok (h : vm.execute rounds = .ok vm') :
    ∃ m m', vm.Reaches m ∧ Levm.step m = (.ok .stop, m') ∧ vm' = m'.finish := by
  unfold VM.execute at h
  split at h
  · cases h
  · rename_i frame rest hframes
    split at h
    · rename_i m' hloop
      obtain ⟨m, hrun, hstop⟩ := Exec.loop_ok hloop
      exact ⟨m, m', ⟨frame, rest, hframes, hrun⟩, hstop, (Except.ok.inj h).symm⟩
    · cases h

/-- The gas stays within the limit, in all states that the loop reaches and at its end, exactly if every
`MCOPY` of the run does. -/
theorem gas_within_limit_iff (hstart : vm.consumedGas ≤ vm.gasLimit) :
    ((∀ m, vm.Reaches m → m.txEnv.consumedGas ≤ vm.gasLimit) ∧
      ∀ rounds vm', vm.execute rounds = .ok vm' → vm'.consumedGas ≤ vm'.gasLimit) ↔
    ∀ m, vm.Reaches m → McopyFits m := by
  constructor
  · rintro ⟨hreach, -⟩ m hm hat m' hround destOffset srcOffset size stack cost hstack hcost
    obtain ⟨destOffset', srcOffset', size', stack', cost', hstack', hcost', hgas⟩ := step_mcopy hat hround
    cases hstack.symm.trans hstack'
    obtain rfl : cost = cost' := Except.ok.inj (hcost.symm.trans hcost')
    rw [← hgas, hm.gasLimit.1]
    exact hreach m' (hm.round hround)
  · intro hfits
    have hreach (m : Machine) (hm : vm.Reaches m) := hm.within_limit hstart hfits
    refine ⟨fun m hm => hm.gasLimit.1 ▸ hreach m hm, fun rounds vm' h => ?_⟩
    obtain ⟨m, m', hm, hstop, rfl⟩ := VM.execute_ok h
    have hlimit : m'.finish.gasLimit = m.txEnv.gasLimit :=
      (((step_gasLimit m).ok hstop).2.trans hm.gasLimit.2).trans hm.gasLimit.1.symm
    rw [hlimit]
    exact round_within_limit (hfits m hm) (hreach m hm) hstop

end

def sampleCopy : VM :=
  { VM.new [0x5F, 0x5F, 0x5F, 0x5E, 0x00] CallFrame.zeroAddress 0 with gasLimit := TX_BASE_COST + 6 }

attribute [local instance] Keccak256.empty

theorem gas_within_limit_iff_sampleCopy :
    sampleCopy.consumedGas ≤ sampleCopy.gasLimit ∧
    (((∀ m, sampleCopy.Reaches m → m.txEnv.consumedGas ≤ sampleCopy.gasLimit) ∧
      ∀ rounds vm', sampleCopy.execute rounds = .ok vm' → vm'.consumedGas ≤ vm'.gasLimit) ↔
    ∀ m, sampleCopy.Reaches m → McopyFits m) := by
  exact ⟨by decide, gas_within_limit_iff (by decide)⟩

/-- `MCOPY` takes the gas over the limit. -/
theorem mcopy_exceeds_limit :
    sampleCopy.consumedGas ≤ sampleCopy.gasLimit ∧
    (sampleCopy.execute 5).map (fun vm => (vm.gasLimit, vm.consumedGas)) = .ok (21006, 21009) := by
  decide +kernel

/-! ## Static calls -/

/-- A static frame is at work above the frames `below`: it and all frames above it are static and
without logs, and the database is `db`. -/
structure Inside (below : List CallFrame) (db : Db) (m : Machine) : Prop where
  frames : ∃ above, m.vm.callFrames = above ++ below ∧ ∀ f ∈ m.frame :: above, f.isStatic = true ∧ f.logs = []
  db : m.vm.db = db

/-- The static frame has returned to the frame below it. -/
def Returned (below : List CallFrame) (db : Db) (m : Machine) : Prop :=
  ∃ parent rest, below = parent :: rest ∧ m.vm.callFrames = rest ∧ m.frame.logs = parent.logs ∧ m.vm.db = db

variable {db : Db}

theorem Inside.same (h : Inside below db m) (hframes : m'.vm.callFrames = m.vm.callFrames) (hdb : m'.vm.db = m.vm.db)
    (hstatic : m'.frame.isStatic = m.frame.isStatic) (hlogs : m'.frame.logs = m.frame.logs) : Inside below db m' := by
  obtain ⟨above, hbelow, hall⟩ := h.frames
  refine ⟨⟨above, hframes.trans hbelow, ?_⟩, hdb.trans h.db⟩
  rintro f hf
  rcases mem_cons.mp hf with rfl | hf
  · rw [hstatic, hlogs]
    exact hall _ mem_cons_self
  · exact hall f (mem_cons_of_mem _ hf)

theorem CallKind.callee_isStatic {caller : CallFrame} (operands : CallOperands)
    (bytecode calldata : ByteString) (h : caller.isStatic = true) :
    (kind.callee caller operands bytecode calldata).isStatic = true := by
  cases kind with
  | staticcall => rfl
  | call | callcode | delegatecall => exact h

theorem Inside.act (h : Inside below db m) (hact : Act m opcode flow m') :
    Inside below db m' ∨ flow = .next ∧ Returned below db m' := by
  obtain ⟨above, hframes, hall⟩ := h.frames
  have hstatic := (hall _ mem_cons_self).1
  cases hact with
  | spent hspends => cases hspends <;> exact .inl (h.same rfl rfl rfl rfl)
  | free | loaded | jumped | kept | declined => exact .inl (h.same rfl rfl rfl rfl)
  | logged _ _ _ _ _ _ hnot => rw [hstatic] at hnot; cases hnot
  | stored _ _ _ _ _ hnot => rw [hstatic] at hnot; cases hnot
  | entered entry =>
    refine .inl ⟨⟨m.frame.waiting entry :: above, congrArg (_ :: ·) hframes, fun f hf => ?_⟩, h.db⟩
    rcases mem_cons.mp hf with rfl | hf
    · exact ⟨entry.kind.callee_isStatic _ _ _ hstatic, (entry.kind.callee_empty _ _ _ _).1⟩
    · rcases mem_cons.mp hf with rfl | hf
      · exact hall m.frame mem_cons_self
      · exact hall f (mem_cons_of_mem _ hf)
  | left _ _ _ _ _ _ parent rest _ _ _ hparent =>
    rw [hframes] at hparent
    cases above with
    | nil => exact .inr ⟨rfl, parent, rest, hparent, rfl, rfl, h.db⟩
    | cons frame above =>
      obtain ⟨rfl, rfl⟩ := List.cons.inj hparent
      refine .inl ⟨⟨above, rfl, fun f hf => ?_⟩, h.db⟩
      rcases mem_cons.mp hf with rfl | hf
      · exact hall frame (by simp)
      · exact hall f (by simp [hf])

theorem Returned.length_lt (h : Returned below db m) : m.vm.callFrames.length < below.length := by
  obtain ⟨parent, rest, rfl, hrest, -⟩ := h
  rw [hrest]
  exact Nat.lt_succ_self _

/-- The frames in use have the logs of frames that were put aside before the call, or none. -/
def LogsFrom (below : List CallFrame) (m : Machine) : Prop :=
  ∀ f ∈ m.frame :: m.vm.callFrames, f.logs = [] ∨ ∃ g ∈ below, f.logs = g.logs

theorem Inside.logsFrom (h : Inside below db m) : LogsFrom below m := by
  obtain ⟨above, hframes, hall⟩ := h.frames
  intro f hf
  rw [hframes, ← cons_append] at hf
  rcases mem_append.mp hf with hf | hf
  · exact .inl (hall f hf).2
  · exact .inr ⟨f, hf, rfl⟩

theorem Returned.logsFrom (h : Returned below db m) : LogsFrom below m := by
  obtain ⟨parent, rest, rfl, hrest, hlogs, -⟩ := h
  intro f hf
  rcases mem_cons.mp hf with rfl | hf
  · exact .inr ⟨parent, mem_cons_self, hlogs⟩
  · exact .inr ⟨f, mem_cons_of_mem _ (hrest ▸ hf), rfl⟩

section

variable [Keccak256]

theorem Inside.step (h : Inside below db m) : Ensures step m fun flow m' =>
    Inside below db m' ∨ flow = .next ∧ Returned below db m' :=
  (step_act m).mono fun _ _ ⟨_, _, hact⟩ => (Inside.same h rfl rfl rfl rfl : Inside below db m.advance).act hact

theorem Inside.round (h : Inside below db m) (hround : Round Levm.step m m')
    (hlength : below.length ≤ m'.vm.callFrames.length) : Inside below db m' := by
  rcases h.step.ok hround with hin | ⟨-, hret⟩
  · exact hin
  · exact absurd hret.length_lt (by omega)

/-- A round that runs `STATICCALL` and puts the caller aside has started a static call. -/
theorem Inside.start {m m' : Machine} (hcode : m.frame.bytecode[m.frame.pc]? = some 0xFA)
    (hround : Round Levm.step m m') (hgrown : m.vm.callFrames.length < m'.vm.callFrames.length) :
    Inside m'.vm.callFrames m.vm.db m' := by
  have hat : m.At .STATICCALL := by
    rw [Machine.At, CallFrame.opcodeAt, hcode]
    rfl
  obtain ⟨opcode, hat', hact⟩ := (step_act m).ok hround
  obtain rfl := hat.unique hat'
  obtain ⟨entry, warm, hopcode, -, rfl⟩ := hact.entered_of_grown hgrown
  have hkind : CallKind.staticcall = entry.kind := CallKind.opcode_injective hopcode
  refine ⟨⟨[], rfl, fun f hf => ?_⟩, rfl⟩
  rw [mem_singleton.mp hf, Machine.enter, ← hkind]
  exact ⟨rfl, rfl⟩

/-- From the start of a static call until it returns or the machine stops nothing is written, and
the round that ends it writes nothing either. -/
theorem static_call_writes_nothing {m₀ m₁ m₂ : Machine} (hcode : m₀.frame.bytecode[m₀.frame.pc]? = some 0xFA)
    (hcall : Round Levm.step m₀ m₁) (hgrown : m₀.vm.callFrames.length < m₁.vm.callFrames.length)
    (hrun : Relation.ReflTransGen
      (fun m m' => Round Levm.step m m' ∧ m₁.vm.callFrames.length ≤ m'.vm.callFrames.length) m₁ m₂) :
    (∃ above, m₂.vm.callFrames = above ++ m₁.vm.callFrames ∧
      ∀ f ∈ m₂.frame :: above, f.isStatic = true ∧ f.logs = []) ∧
    m₂.vm.db = m₀.vm.db ∧
    ∀ flow m₃, Levm.step m₂ = (.ok flow, m₃) → m₃.vm.db = m₀.vm.db ∧ LogsFrom m₁.vm.callFrames m₃ := by
  have hinside : Inside m₁.vm.callFrames m₀.vm.db m₂ := by
    induction hrun with
    | refl => exact Inside.start hcode hcall hgrown
    | tail _ hround ih => exact ih.round hround.1 hround.2
  refine ⟨hinside.frames, hinside.db, fun flow m₃ hstep => ?_⟩
  rcases hinside.step.ok hstep with hin | ⟨-, hret⟩
  · exact ⟨hin.db, hin.logsFrom⟩
  · have hlogs := hret.logsFrom
    obtain ⟨_, _, _, _, _, hdb⟩ := hret
    exact ⟨hdb, hlogs⟩

end

def sampleCaller : Machine where
  vm :=
    { VM.new [] CallFrame.zeroAddress 0 with
      callFrames := []
      db := ⟨AList.singleton (Word.toAddress 1) (Account.new 0 [0x5B, 0x00]), ∅⟩ }
  txEnv := ⟨1000000, 0⟩
  frame := { CallFrame.newFromBytecode [0xFA] with stack := [1000, 1, 0, 0, 0, 0] }

/-- The call of `sampleCaller` starts a frame, which goes past its `JUMPDEST`. -/
theorem static_call_writes_nothing_sampleCaller :
    let m₁ := (Levm.step sampleCaller).2
    let m₂ := (Levm.step m₁).2
    m₂.frame.pc = 1 ∧
    (∃ above, m₂.vm.callFrames = above ++ m₁.vm.callFrames ∧
      ∀ f ∈ m₂.frame :: above, f.isStatic = true ∧ f.logs = []) ∧
    m₂.vm.db = sampleCaller.vm.db ∧
    ∀ flow m₃, Levm.step m₂ = (.ok flow, m₃) →
      m₃.vm.db = sampleCaller.vm.db ∧ LogsFrom m₁.vm.callFrames m₃ := by
  refine ⟨by decide +kernel, static_call_writes_nothing (by decide +kernel) (Prod.ext ?_ rfl) (by decide +kernel)
    (.single ⟨Prod.ext ?_ rfl, by decide +kernel⟩)⟩
  · decide +kernel
  · decide +kernel

end EthereumRust.Levm
