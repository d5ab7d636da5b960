import EthereumRust.Levm.Arithmetic

/-! # Reads past the end

`CALLDATALOAD` and `CALLDATACOPY` should read zeros behind the calldata, `PUSHn` behind
the code. The interpreter slices its buffers: whatever leaves them is a panic. -/

namespace EthereumRust.Levm

open Rlp (U256)
open Outcome Rust
open Mpt (Keccak256)
open Exec (Flow Ensures)

variable {charge : Nat}

/-- Bytes continued by zeros. -/
def padded (bytes : ByteString) (i : Nat) : UInt8 := bytes.getD i 0

theorem slice_eq_window {bytes : ByteString} {start size} (h : start + size ≤ bytes.length) :
    (Rust.slice bytes start (start + size) : Outcome Empty _) = .ok (window (padded bytes) start size) := by
  have hwindow : (bytes.take (start + size)).drop start = _ := Memory.take_drop_eq_window ⟨bytes⟩ start h
  rw [Rust.slice, if_pos ⟨Nat.le_add_right _ _, h⟩, hwindow, Nat.add_sub_cancel_left]
  rfl

/-- A vector has at most `isize::MAX` bytes. -/
structure CallFrame.Sized (frame : CallFrame) : Prop where
  bytecode : frame.bytecode.length < 2 ^ 63
  calldata : frame.calldata.length < 2 ^ 63
  memory : frame.memory.data.length < 2 ^ 63

theorem CallFrame.Sized.lt_of_expansionCost {frame : CallFrame} (hsized : frame.Sized)
    (h : frame.memory.expansionCost stop = (.ok charge : Outcome Empty _)) : stop < 2 ^ 63 := by
  have hmemory := hsized.memory
  have hmax := (Memory.expansionCost_eq_ok.mp h).1
  unfold Memory.maxSize at hmax
  omega

/-- The instruction goes on and has stored a range of the bytes, continued by zeros, in the memory. -/
structure Copies (instruction : Levm Flow) (m : Machine) (bytes : ByteString) (dest src size : Nat) : Prop where
  next : (instruction m).1 = .ok .next
  stored : (instruction m).2.frame.memory.byteAt =
    (Access.storeBytes dest (window (padded bytes) src size)).write m.frame.memory.byteAt

/-! ## Words -/

theorem calldataload_pushes_iff {offset} (hsized : m.frame.Sized) (hstack : m.frame.stack = offset :: stack)
    (hafford : m.Affords cost) :
    Pushes (unary cost fun m offset => calldataload m.frame offset) m 1
      (wordOfBytes (window (padded m.frame.calldata) offset.toNat 32)) ↔
        offset.toNat + 32 ≤ m.frame.calldata.length := by
  have hlen := hsized.calldata
  constructor
  · intro h
    have hensures : Ensures (unary cost fun m offset => calldataload m.frame offset) m fun flow _ =>
        flow = .next → offset.toNat + 32 ≤ m.frame.calldata.length := by
      refine ensures_metered nofun fun _ => ensures_take fun offset' rest hstack' => ?_
      obtain rfl : offset = offset' := (List.cons.inj (hstack.symm.trans hstack')).1
      refine ensures_got (ensures_try (ensures_bind.mpr (ensures_ite.mpr ⟨fun _ => ?_, fun _ => trivial⟩)))
      exact ensures_bind.mpr (ensures_add.mpr fun _ => ensures_bind.mpr
        (ensures_slice.mpr fun hslice _ => hslice.2))
    exact hensures.ok (Exec.eq_of_fst h.1) rfl
  · intro h
    have hword : calldataload (m.withStack stack).frame offset =
        .ok (wordOfBytes (window (padded m.frame.calldata) offset.toNat 32)) := by
      have hfits : offset.toNat < wordSize := by unfold wordSize; omega
      have hadd : offset.toNat + 32 < wordSize := by unfold wordSize; omega
      have hslice : (Rust.slice (m.withStack stack).frame.calldata _ _ : Outcome Empty _) = _ := slice_eq_window h
      rw [calldataload, Word.toUsize, if_pos hfits, bind_ok, add_ok hadd, bind_ok, hslice]
      rfl
    have hchecked : (checked (calldataload (m.withStack stack).frame offset) : Levm _)
        (m.withStack stack) = (.ok _, _) :=
      Prod.ext hword rfl
    have hbody : (do let operand ← pop; let value ← checked (calldataload (← Exec.get).frame operand); push value :
        Levm Unit) m = (.ok (), m.withStack
          (wordOfBytes (window (padded m.frame.calldata) offset.toNat 32) :: stack)) := by
      rw [Exec.run_bind_ok (pop_run hstack), Exec.run_bind_ok (Exec.run_get _), Exec.run_bind_ok hchecked]
      rfl
    rw [Pushes, unary, metered_run hafford hbody rfl, hstack]
    exact ⟨rfl, rfl⟩

theorem pushN_run {n : Nat} {message : String} (hafford : m.Affords GasCost.PUSHN) (hadd : m.frame.pc + n < wordSize)
    (h : m.frame.pc + n ≤ m.frame.bytecode.length) :
    pushN n message m = (.ok .next, ((m.withStack
      (wordOfBytes ((m.frame.bytecode.take (m.frame.pc + n)).drop m.frame.pc) ::
      m.frame.stack)).goTo (m.frame.pc + n)).charged GasCost.PUSHN) := by
  have hchecked : (checked (Rust.add m.frame.pc n) : Levm Nat) m = (.ok (m.frame.pc + n), m) :=
    Prod.ext (add_ok hadd) rfl
  let pushed := m.withStack (wordOfBytes ((m.frame.bytecode.take (m.frame.pc + n)).drop m.frame.pc) :: m.frame.stack)
  have hmove : onFrame (fun frame => frame.incrementPcBy n) pushed = (.ok (), pushed.goTo (m.frame.pc + n)) := by
    have hincrement : (checked (pushed.frame.incrementPcBy n) : Levm _) pushed =
        (.ok (pushed.goTo (m.frame.pc + n)).frame, pushed) := by
      rw [CallFrame.incrementPcBy, show Rust.add pushed.frame.pc n = _ from add_ok hadd]
      rfl
    rw [onFrame, Exec.run_bind_ok (Exec.run_get pushed), Exec.run_bind_ok hincrement]
    rfl
  have hpush : push (wordOfBytes ((m.frame.bytecode.take (m.frame.pc + n)).drop m.frame.pc)) m = (.ok (), pushed) := rfl
  refine metered_run (r := pushed.goTo (m.frame.pc + n)) hafford ?_ rfl
  rw [Exec.run_bind_ok (Exec.run_get m), Exec.run_bind_ok hchecked, if_pos h, Exec.run_bind_ok hpush, hmove]

theorem pushN_pushes_iff (n : Nat) (message : String) (hsized : m.frame.Sized) (hafford : m.Affords GasCost.PUSHN) :
    Pushes (pushN n message) m 0 (wordOfBytes (window (padded m.frame.bytecode) m.frame.pc n)) ↔
      m.frame.pc + n ≤ m.frame.bytecode.length := by
  have hlen := hsized.bytecode
  constructor
  · intro h
    have hensures : Ensures (pushN n message) m fun flow _ => flow = .next →
        m.frame.pc + n ≤ m.frame.bytecode.length := by
      refine ensures_metered nofun fun _ => ensures_got (ensures_sum fun _ => ?_)
      split
      · refine Exec.ensures_bind.mpr (ensures_push.mpr (ensures_got (ensures_try ?_)))
        exact ensures_bind.mpr (ensures_add.mpr fun _ _ => ‹_›)
      · exact trivial
    exact hensures.ok (Exec.eq_of_fst h.1) rfl
  · intro h
    have hwindow : (m.frame.bytecode.take (m.frame.pc + n)).drop m.frame.pc =
        window (padded m.frame.bytecode) m.frame.pc n :=
      Except.ok.inj ((if_pos ⟨Nat.le_add_right _ _, h⟩).symm.trans (slice_eq_window h))
    rw [Pushes, pushN_run hafford (by unfold wordSize; omega) h, hwindow]
    exact ⟨rfl, rfl⟩

/-! ## Copies -/

theorem copyToMemory_run {f : CallFrame → ByteString}
    (hsized : m.frame.Sized) (hstack : m.frame.stack = dest :: src :: size :: stack) (hsrc : src.toNat < wordSize)
    (hcost : m.frame.memory.expansionCost (dest.toNat + size.toNat) = (.ok charge : Outcome Empty _))
    (hafford : m.Affords (static + base * Memory.wordsOf size.toNat + charge)) :
    copyToMemory static base f m = (do
      if size.toNat = 0 then pure .next else
      let sourceStop ← checked (Rust.add src.toNat size.toNat)
      let data ← checked (Rust.slice (f (← Exec.get).frame) src.toNat sourceStop)
      storeBytes dest.toNat data
      pure Flow.next : Levm Flow)
      ((m.withStack stack).charged (static + base * Memory.wordsOf size.toNat + charge)) := by
  have hbound := hsized.lt_of_expansionCost hcost
  have hword : 2 ^ 63 + WORD_SIZE < wordSize := by decide
  have hgas := hafford.fits
  have hdest : popUsize m = (.ok dest.toNat, m.withStack (src :: size :: stack)) := popUsize_run hstack (by omega)
  have hsrc : popUsize (m.withStack (src :: size :: stack)) = (.ok src.toNat, m.withStack (size :: stack)) :=
    popUsize_run rfl hsrc
  have hsize : popUsize (m.withStack (size :: stack)) = (.ok size.toNat, m.withStack stack) :=
    popUsize_run rfl (by omega)
  have hchecked (x : Outcome Empty Nat) (value : Nat) (hx : x = .ok value) :
      (checked x : Levm Nat) (m.withStack stack) = (.ok value, m.withStack stack) := Prod.ext hx rfl
  have hexpansion : expansionCost (dest.toNat + size.toNat) (m.withStack stack) = (.ok charge, m.withStack stack) :=
    Prod.ext hcost rfl
  rw [copyToMemory, Exec.run_bind_ok hdest, Exec.run_bind_ok hsrc, Exec.run_bind_ok hsize,
    Exec.run_bind_ok (hchecked _ _ (Memory.words_run (by omega))), Exec.run_bind_ok (hchecked _ _ (add_ok (by omega))),
    Exec.run_bind_ok hexpansion, Exec.run_bind_ok (hchecked _ _ (mul_ok (by omega))),
    Exec.run_bind_ok (hchecked _ _ (add_ok (by omega))), Exec.run_bind_ok (hchecked _ _ (add_ok (by omega))),
    Exec.run_bind_ok (exceeds_run (m := m.withStack stack) ⟨hafford.limit, hafford.fits⟩), if_neg Bool.false_ne_true,
    Exec.run_bind_ok (charge_run (m := m.withStack stack) hgas)]

theorem storeBytes_run
    (h : m.frame.memory.storeBytes offset value = (.ok memory : Outcome Empty _)) :
    storeBytes offset value m = (.ok (), m.work m.frame.stack memory) := by
  have hchecked : (checked ((fun memory => ((), memory)) <$> m.frame.memory.storeBytes offset value) :
      Levm (Unit × Memory)) m =
      (.ok ((), memory), m) := by
    rw [h]
    rfl
  rw [storeBytes, onMemory, Exec.run_bind_ok (Exec.run_get m), Exec.run_bind_ok hchecked]
  rfl

/-- The copy stays in the calldata, and its gas is computed and there. -/
structure CopyFits (m : Machine) (static base : Nat) (dest src size : U256) : Prop where
  offset : src.toNat < Rust.wordSize
  range : size ≠ 0 → src.toNat + size.toNat ≤ m.frame.calldata.length
  gas : ∃ charge, m.frame.memory.expansionCost (dest.toNat + size.toNat) = (.ok charge : Outcome Empty _) ∧
    m.Affords (static + base * Memory.wordsOf size.toNat + charge)

theorem calldatacopy_copies_iff (hsized : m.frame.Sized)
    (hstack : m.frame.stack = dest :: src :: size :: stack) :
    Copies (copyToMemory static base CallFrame.calldata) m m.frame.calldata dest.toNat src.toNat size.toNat ↔
      CopyFits m static base dest src size := by
  constructor
  · intro h
    have hcopies := (ensures_copyToMemory static base CallFrame.calldata m).ok (Exec.eq_of_fst h.next)
    generalize (copyToMemory static base CallFrame.calldata m).2 = m' at hcopies
    cases hcopies with
    | copies dest' src' size' stack' charge memory hstack' hsrc hcharge hafford hrange =>
      cases hstack.symm.trans hstack'
      exact ⟨hsrc, fun hne => hrange fun hzero => hne (BitVec.toNat_inj.mp hzero), charge, hcharge, hafford⟩
  · rintro ⟨hsrc, hrange, charge, hcost, hafford⟩
    have hrun := copyToMemory_run (f := CallFrame.calldata) hsized hstack hsrc hcost hafford
    by_cases hzero : size.toNat = 0
    · rw [if_pos hzero] at hrun
      refine ⟨congrArg Prod.fst hrun, ?_⟩
      rw [hrun, hzero]
      funext i
      exact (if_neg (by simp [window])).symm
    · have hle := hrange fun h => hzero (h ▸ rfl)
      let charged := (m.withStack stack).charged (static + base * Memory.wordsOf size.toNat + charge)
      have hlen : (window (padded m.frame.calldata) src.toNat size.toNat).length = size.toNat := by simp [window]
      have hadd : (checked (Rust.add src.toNat size.toNat) : Levm Nat) charged =
          (.ok (src.toNat + size.toNat), charged) :=
        Prod.ext (add_ok (by have := hsized.calldata; unfold wordSize; omega)) rfl
      have hslice : (checked (Rust.slice charged.frame.calldata src.toNat (src.toNat + size.toNat)) : Levm _) charged =
          (.ok (window (padded m.frame.calldata) src.toNat size.toNat), charged) := Prod.ext (slice_eq_window hle) rfl
      have hround : Memory.roundUp
          (Access.storeBytes dest.toNat (window (padded m.frame.calldata) src.toNat size.toNat)).stop < wordSize := by
        have hbound := hsized.lt_of_expansionCost hcost
        rw [Access.stop, hlen]
        unfold Memory.roundUp Memory.wordsOf wordSize
        omega
      obtain ⟨_, memory, hserve, hserves⟩ := m.frame.memory.serve_run (ε := Empty) _ hround
      have hstore : m.frame.memory.storeBytes dest.toNat (window (padded m.frame.calldata) src.toNat size.toNat) =
          (.ok memory : Outcome Empty _) := by
        obtain ⟨_, hstore, heq⟩ := bind_ok_inv hserve
        cases heq
        exact hstore
      rw [if_neg hzero, Exec.run_bind_ok hadd, Exec.run_bind_ok (Exec.run_get _), Exec.run_bind_ok hslice,
        Exec.run_bind_ok (storeBytes_run (m := charged) hstore)] at hrun
      refine ⟨congrArg Prod.fst hrun, ?_⟩
      rw [hrun]
      exact hserves.byteAt

/-! ## The end of the code -/

theorem step_at_end [Keccak256] (h : m.frame.bytecode.length ≤ m.frame.pc) : (Levm.step m).1 ≠ .ok .stop := by
  intro hstop
  obtain ⟨opcode, hat, -⟩ := (step_act m).ok (Exec.eq_of_fst hstop)
  exact absurd hat.pc_lt (Nat.not_lt.mpr h)

/-- Each read is right exactly if it stays in its buffer; no machine stops at the end of its code. -/
theorem padded_reads_iff [Keccak256] (hsized : m.frame.Sized) :
    (∀ offset stack, m.frame.stack = offset :: stack → m.Affords GasCost.CALLDATALOAD →
      (Pushes (instruction .CALLDATALOAD) m 1 (wordOfBytes (window (padded m.frame.calldata) offset.toNat 32)) ↔
        offset.toNat + 32 ≤ m.frame.calldata.length)) ∧
    (∀ dest src size stack, m.frame.stack = dest :: src :: size :: stack →
      (Copies (instruction .CALLDATACOPY) m m.frame.calldata dest.toNat src.toNat size.toNat ↔
        CopyFits m GasCost.CALLDATACOPY_STATIC GasCost.CALLDATACOPY_DYNAMIC_BASE dest src size)) ∧
    (∀ opcode : Opcode, 0 < opcode.immediate → m.Affords GasCost.PUSHN →
      (Pushes (instruction opcode) m 0 (wordOfBytes (window (padded m.frame.bytecode) m.frame.pc opcode.immediate)) ↔
        m.frame.pc + opcode.immediate ≤ m.frame.bytecode.length)) ∧
    ((m.frame.bytecode.length ≤ m.frame.pc → (Levm.step m).1 = .ok .stop) ↔ m.frame.pc < m.frame.bytecode.length) := by
  refine ⟨fun _ _ hstack hafford => calldataload_pushes_iff hsized hstack hafford,
    fun _ _ _ _ hstack => calldatacopy_copies_iff hsized hstack, fun opcode himmediate hafford => ?_, ?_⟩
  · cases opcode with
    | PUSH n => exact pushN_pushes_iff _ _ hsized hafford
    | PUSH32 => exact pushN_pushes_iff _ _ hsized hafford
    | _ => cases himmediate
  · refine ⟨fun h => Nat.lt_of_not_le fun hend => step_at_end hend (h hend), fun h hend => ?_⟩
    exact absurd hend (Nat.not_le.mpr h)

/-- A machine at `01`, with the numbers from `0` to `32` as its calldata. -/
def readingMachine : Machine :=
  let m := sampleMachine [0x01] [0, 1, 2] []
  { m with frame := { m.frame with calldata := (List.range 33).map UInt8.ofNat } }

attribute [local instance] Keccak256.empty

theorem padded_reads_iff_readingMachine :
    readingMachine.frame.Sized ∧
    Pushes (instruction .CALLDATALOAD) readingMachine 1
      0x000102030405060708090a0b0c0d0e0f101112131415161718191a1b1c1d1e1f ∧
    Copies (instruction .CALLDATACOPY) readingMachine readingMachine.frame.calldata 0 1 2 ∧
    Pushes (instruction (.PUSH 0)) readingMachine 0 0x01 := by
  have hsized : readingMachine.frame.Sized := ⟨by decide, by decide, by decide⟩
  obtain ⟨hload, hcopy, hpush, -⟩ := padded_reads_iff hsized
  exact ⟨hsized, (hload 0 [1, 2] rfl ⟨by decide, by decide⟩).mpr (by decide),
    (hcopy 0 1 2 [] rfl).mpr ⟨by decide, fun _ => by decide, 3, by decide +kernel, by decide, by decide⟩,
    (hpush (.PUSH 0) (by decide) ⟨by decide, by decide⟩).mpr (by decide)⟩

/-- A word and a byte of empty calldata, `PUSH1` as the last byte of the code, and the end of the code. -/
theorem reads_past_end_panic :
    (instruction .CALLDATALOAD (sampleMachine [] [0] [])).1 = Outcome.panic "range out of bounds for slice" ∧
    (instruction .CALLDATACOPY (sampleMachine [] [0, 0, 1] [])).1 = Outcome.panic "range out of bounds for slice" ∧
    (Levm.step (sampleMachine [0x60] [] [])).1 = Outcome.panic "invalid bytecode" ∧
    (Levm.step (sampleMachine [] [] [])).1 = Outcome.panic "called `Option::unwrap()` on a `None` value" := by
  decide +kernel

end EthereumRust.Levm
