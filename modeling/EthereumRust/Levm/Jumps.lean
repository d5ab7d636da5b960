import EthereumRust.Levm.Calls

/-! # Jumps and instruction boundaries

A jump is accepted by the byte it leads to alone, so it may land on a byte `0x5B` inside
the bytes of a `PUSH`. As long as none does, every fetch is at an instruction. -/

namespace EthereumRust.Levm

open Rlp (Address U256)
open List
open Mpt (Keccak256)
open Exec (Flow Ensures Round)

/-! ## Boundaries -/

/-- The position is at the start of an instruction, or at the end of the code. -/
inductive Boundary (code : ByteString) : Nat → Prop
  | start : Boundary code 0
  | next {position : Nat} {byte : UInt8} : Boundary code position → code[position]? = some byte →
      Boundary code (position + 1 + immediateBytes byte)

def IsJumpdest (code : ByteString) (position : Nat) : Prop :=
  code[position]? = some 0x5B ∧ Boundary code position

/-- The jump moves the program counter to a `JUMPDEST`, or is rejected because there is none. -/
def JumpsRight (frame : CallFrame) (destination : U256) : Prop :=
  (IsJumpdest frame.bytecode destination.toNat →
    (frame.jump destination : Outcome Empty _) = .ok { frame with pc := destination.toNat }) ∧
  (¬ IsJumpdest frame.bytecode destination.toNat →
    ∃ message, (frame.jump destination : Outcome Empty _) = Outcome.panic message)

theorem jump_run {frame : CallFrame} {destination : U256} (hcode : frame.bytecode.length < Rust.wordSize)
    (hbyte : frame.bytecode[destination.toNat]? = some 0x5B) :
    (frame.jump destination : Outcome Empty _) = .ok { frame with pc := destination.toNat } := by
  have hlt : destination.toNat < Rust.wordSize := (List.getElem?_eq_some_iff.mp hbyte).1.trans hcode
  have husize : (CallFrame.asUsize destination : Outcome Empty _) = .ok destination.toNat := if_pos hlt
  have hvalid : (frame.validJump destination : Outcome Empty _) = .ok true := by
    rw [CallFrame.validJump, husize, Outcome.bind_ok, CallFrame.opcodeAt, hbyte]
    rfl
  rw [CallFrame.jump, hvalid, Outcome.bind_ok, husize]
  rfl

theorem jumpsRight_iff {frame : CallFrame} (hcode : frame.bytecode.length < Rust.wordSize) :
    JumpsRight frame destination ↔
      (frame.bytecode[destination.toNat]? = some 0x5B → Boundary frame.bytecode destination.toNat) := by
  constructor
  · intro hright hbyte
    by_contra hboundary
    obtain ⟨message, hpanic⟩ := hright.2 fun h => hboundary h.2
    rw [jump_run hcode hbyte] at hpanic
    cases hpanic
  · intro h
    refine ⟨fun hdest => jump_run hcode hdest.1, fun hdest => ?_⟩
    rcases hjump : (frame.jump destination : Outcome Empty _) with (e | message | _) | frame'
    · exact e.elim
    · exact ⟨message, rfl⟩
    · exact absurd (jump_ok frame destination) (by rw [hjump]; exact id)
    · have hok := jump_ok frame destination
      rw [hjump] at hok
      exact absurd ⟨hok.1, h hok.1⟩ hdest

/-! ## Runs -/

/-- A jump that the machine takes, if it takes one and has the gas for it, leads to a boundary. -/
def JumpsToBoundary (m : Machine) : Prop :=
  ∀ opcode destination stack cost, m.At opcode → Taken destination stack cost opcode m.frame.stack → m.Affords cost →
    m.frame.bytecode[destination.toNat]? = some 0x5B → Boundary m.frame.bytecode destination.toNat

/-- Every frame is at a boundary of its code. -/
def AtBoundaries (m : Machine) : Prop :=
  ∀ f ∈ m.frame :: m.vm.callFrames, Boundary f.bytecode f.pc

variable {m : Machine}

/-- The instruction and its bytes end at a boundary. -/
theorem boundary_advance (hat : m.At opcode) (h : Boundary m.frame.bytecode m.frame.pc) :
    Boundary m.frame.bytecode (m.frame.pc + 1 + opcode.immediate) := by
  obtain ⟨byte, hbyte, hop⟩ := hat.byte
  have himmediate := ofByte_ensures byte
  rw [hop] at himmediate
  rw [himmediate.1]
  exact .next h hbyte

theorem boundary_advance_plain (hat : m.At opcode) (hplain : opcode.immediate = 0)
    (h : Boundary m.frame.bytecode m.frame.pc) : Boundary m.frame.bytecode (m.frame.pc + 1) := by
  have hnext := boundary_advance hat h
  rwa [hplain] at hnext

theorem AtBoundaries.current (h : AtBoundaries m) (hframes : m'.vm.callFrames = m.vm.callFrames)
    (hcurrent : Boundary m'.frame.bytecode m'.frame.pc) : AtBoundaries m' := by
  intro f hf
  rcases mem_cons.mp hf with rfl | hf
  · exact hcurrent
  · exact h f (mem_cons_of_mem _ (hframes ▸ hf))

theorem CallKind.immediate_opcode (kind : CallKind) : kind.opcode.immediate = 0 := by cases kind <;> rfl

/-- An instruction that goes on keeps all frames at boundaries if its jump does. -/
theorem AtBoundaries.act (h : AtBoundaries m) (hat : m.At opcode) (hjumps : JumpsToBoundary m)
    (hact : Act m.advance opcode .next m') : AtBoundaries m' := by
  have hm := h m.frame mem_cons_self
  cases hact with
  | spent hspends => cases hspends with | works => exact h.current rfl (boundary_advance hat hm)
  | free _ _ hplain => exact h.current rfl (boundary_advance_plain hat hplain.immediate hm)
  | loaded _ _ hopcode => exact h.current rfl (boundary_advance_plain hat (by rw [hopcode]; rfl) hm)
  | stored _ _ _ _ hopcode => exact h.current rfl (boundary_advance_plain hat (by rw [hopcode]; rfl) hm)
  | jumped destination stack cost htaken hbyte _ hafford =>
    exact h.current rfl (hjumps opcode destination stack cost hat htaken ⟨hafford.limit, hafford.fits⟩ hbyte)
  | kept _ _ _ hopcode => exact h.current rfl (boundary_advance_plain hat (by rw [hopcode]; rfl) hm)
  | logged _ _ _ _ _ hopcode => exact h.current rfl (boundary_advance_plain hat (by rw [hopcode]; rfl) hm)
  | declined kind _ _ _ _ hopcode =>
    exact h.current rfl (boundary_advance_plain hat (hopcode ▸ kind.immediate_opcode) hm)
  | entered entry warm hopcode =>
    intro f hf
    rcases mem_cons.mp hf with rfl | hf
    · -- the callee starts at the start of its code
      rcases entry with ⟨kind, operands, rest, calldata, memory⟩
      cases kind <;> exact .start
    · rcases mem_cons.mp hf with rfl | hf
      · exact boundary_advance_plain hat (hopcode ▸ entry.kind.immediate_opcode) hm
      · exact h f (mem_cons_of_mem _ hf)
  | left _ _ _ _ _ _ parent rest _ _ _ hframes =>
    have hall (f : CallFrame) (hf : f ∈ parent :: rest) : Boundary f.bytecode f.pc :=
      h f (mem_cons_of_mem _ ((show m.vm.callFrames = parent :: rest from hframes) ▸ hf))
    intro f hf
    rcases mem_cons.mp hf with rfl | hf
    · exact hall parent mem_cons_self
    · exact hall f (mem_cons_of_mem _ hf)

section

variable [Keccak256] {vm : VM}

theorem VM.Reaches.atBoundaries (hstart : ∀ f ∈ vm.callFrames, f.pc = 0)
    (hjumps : ∀ m, vm.Reaches m → JumpsToBoundary m) (h : vm.Reaches m) : AtBoundaries m := by
  obtain ⟨frame, rest, hframes, hrun⟩ := h
  induction hrun with
  | refl =>
    intro f hf
    rw [hstart f (hframes ▸ hf)]
    exact .start
  | tail hrun hround ih =>
    obtain ⟨opcode, hat, hact⟩ := (step_act _).ok hround
    exact ih.act hat (hjumps _ ⟨frame, rest, hframes, hrun⟩) hact

/-- A jump does what it should exactly if it does not lead to a byte `0x5B` inside the bytes of a `PUSH`, and in
every run from the start of the code whose jumps keep to that, the program counter is at an instruction
boundary at every fetch. -/
theorem jumps_land_on_jumpdests (hstart : ∀ f ∈ vm.callFrames, f.pc = 0) :
    (∀ frame destination, frame.bytecode.length < Rust.wordSize → (JumpsRight frame destination ↔
      (frame.bytecode[destination.toNat]? = some 0x5B → Boundary frame.bytecode destination.toNat))) ∧
    ((∀ m, vm.Reaches m → JumpsToBoundary m) → ∀ m, vm.Reaches m → Boundary m.frame.bytecode m.frame.pc) :=
  ⟨fun _ _ hcode => jumpsRight_iff hcode, fun hjumps _ hm => hm.atBoundaries hstart hjumps _ List.mem_cons_self⟩

end

/-- `PUSH1 3`, `JUMP`, `JUMPDEST`, `STOP`. -/
def properJump : VM := VM.new [0x60, 0x03, 0x56, 0x5B, 0x00] CallFrame.zeroAddress 0

theorem jumpsToBoundary_properJump (hcode : m.frame.bytecode = [0x60, 0x03, 0x56, 0x5B, 0x00]) : JumpsToBoundary m := by
  intro opcode destination stack cost _ _ _ hbyte
  rw [hcode] at hbyte ⊢
  have hthree : destination.toNat = 3 := by
    have hlt := (List.getElem?_eq_some_iff.mp hbyte).1
    have hall : ∀ i < 5, ([0x60, 0x03, 0x56, 0x5B, 0x00] : ByteString)[i]? = some 0x5B → i = 3 := by decide
    exact hall _ hlt hbyte
  have hpush : Boundary [0x60, 0x03, 0x56, 0x5B, 0x00] (0 + 1 + immediateBytes 0x60) := .next .start rfl
  have hjump : Boundary [0x60, 0x03, 0x56, 0x5B, 0x00] (2 + 1 + immediateBytes 0x56) := .next hpush rfl
  rw [hthree]
  exact hjump

attribute [local instance] Keccak256.empty

/-- The jump of `properJump` is taken, and all states of the run are at boundaries. -/
theorem jumps_land_on_jumpdests_properJump :
    (∃ m, properJump.Reaches m ∧ m.frame.pc = 3) ∧
    ∀ m, properJump.Reaches m → Boundary m.frame.bytecode m.frame.pc := by
  let m := properJump.start (CallFrame.newFromBytecode [0x60, 0x03, 0x56, 0x5B, 0x00]) []
  have hround (n : Nat) (hn : n < 3) : Round Levm.step (m.after n) (m.after (n + 1)) := by
    refine Prod.ext ?_ rfl
    revert n
    decide +kernel
  have hstart : ∀ f ∈ properJump.callFrames, f.pc = 0 := by
    intro f hf
    rw [List.mem_singleton.mp hf]
    rfl
  refine ⟨⟨m.after 2, ⟨_, _, rfl, (Relation.ReflTransGen.single (hround 0 (by decide))).tail (hround 1 (by decide))⟩,
    by decide +kernel⟩, (jumps_land_on_jumpdests hstart).2 fun m' hm' => ?_⟩
  -- the run has no other states than these four
  have hafter : ∃ n ≤ 3, m' = m.after n := by
    obtain ⟨frame, rest, hframes, hrun⟩ := hm'
    cases hframes
    induction hrun with
    | refl => exact ⟨0, by decide, rfl⟩
    | tail _ hstep ih =>
      obtain ⟨n, hn, rfl⟩ := ih
      have hnext : (Levm.step (m.after n)).1 = .ok .next := congrArg Prod.fst hstep
      have hlast : (Levm.step (m.after 3)).1 ≠ .ok .next := by decide +kernel
      have hn3 : n ≠ 3 := by
        rintro rfl
        exact hlast hnext
      exact ⟨n + 1, by omega, (congrArg Prod.snd hstep).symm⟩
  obtain ⟨n, hn, rfl⟩ := hafter
  have hcode : ∀ n ≤ 3, (m.after n).frame.bytecode = [0x60, 0x03, 0x56, 0x5B, 0x00] := by decide +kernel
  exact jumpsToBoundary_properJump (hcode n hn)

/-- `PUSH1 0x5B`, `PUSH1 1`, `JUMP`. -/
def sampleJump : VM := VM.new [0x60, 0x5B, 0x60, 0x01, 0x56] CallFrame.zeroAddress 0

theorem boundary_sampleJump (h : Boundary [0x60, 0x5B, 0x60, 0x01, 0x56] position) :
    position = 0 ∨ position = 2 ∨ position = 4 ∨ 5 ≤ position := by
  induction h with
  | start => exact .inl rfl
  | next _ hbyte ih =>
    rcases ih with rfl | rfl | rfl | hend
    · cases hbyte
      exact .inr (.inl rfl)
    · cases hbyte
      exact .inr (.inr (.inl rfl))
    · cases hbyte
      exact .inr (.inr (.inr (by decide)))
    · exact .inr (.inr (.inr (by omega)))

/-- The jump of `sampleJump` leads into the bytes of its first instruction. -/
theorem jump_into_push_data :
    ((CallFrame.newFromBytecode [0x60, 0x5B, 0x60, 0x01, 0x56]).jump 1 : Outcome Empty _).map CallFrame.pc = .ok 1 ∧
    (∃ m, sampleJump.Reaches m ∧ m.frame.bytecode = [0x60, 0x5B, 0x60, 0x01, 0x56] ∧ m.frame.pc = 1) ∧
    ¬ Boundary [0x60, 0x5B, 0x60, 0x01, 0x56] 1 := by
  let m := sampleJump.start (CallFrame.newFromBytecode [0x60, 0x5B, 0x60, 0x01, 0x56]) []
  refine ⟨by decide +kernel, ⟨m.after 3, ⟨_, _, rfl, ?_⟩, by decide +kernel, by decide +kernel⟩, fun h => ?_⟩
  · have hround (n : Nat) (hn : n < 3) : Round Levm.step (m.after n) (m.after (n + 1)) := by
      refine Prod.ext ?_ rfl
      revert n
      decide +kernel
    exact ((Relation.ReflTransGen.single (hround 0 (by decide))).tail (hround 1 (by decide))).tail
      (hround 2 (by decide))
  · rcases boundary_sampleJump h with h | h | h | h <;> omega

end EthereumRust.Levm
