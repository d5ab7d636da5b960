import EthereumRust.Levm.Calls

/-! # Charges

The charges of a frame for its memory add up to the cost of its size as long as three
things stay within the memory as it is: ranges of length zero, whose growth is charged
and, by the copies, not carried out; and the arguments of calls and the output of the
outermost frame, whose growth is carried out and not charged. -/

namespace EthereumRust.Levm

open Rlp (U256)
open List
open Mpt (Keccak256)
open Exec (Ensures Flow Round)

/-! ## Constant prices -/

section

variable [Keccak256]

/-- An instruction that goes on charges its constant price exactly if it does not divide by zero. -/
theorem constant_price_iff {price : Nat} (hat : m.At opcode) (hprice : opcode.price = some price)
    (hround : Round Levm.step m m') :
    m'.txEnv.consumedGas = m.txEnv.consumedGas + price ↔ opcode.divisor m.frame.stack ≠ some 0 := by
  have hgas := (round_bill hat hround).gas
  have hpos := Opcode.price_pos hprice
  rw [Machine.growth, Opcode.range_of_price hprice, Opcode.toll_of_price hprice] at hgas
  change _ = m.txEnv.consumedGas + (if opcode.divisor m.frame.stack = some 0 then 0 else price) + 0 at hgas
  rw [hgas]
  split
  all_goals simp_all
  all_goals omega

end

attribute [local instance] Keccak256.empty

theorem constant_price_iff_sampleMachine :
    let m := sampleMachine [0x04] [6, 3] []
    m.At .DIV ∧ Opcode.DIV.price = some 5 ∧ Round Levm.step m (m.after 1) ∧
    ((m.after 1).txEnv.consumedGas = m.txEnv.consumedGas + 5 ↔ Opcode.DIV.divisor m.frame.stack ≠ some 0) := by
  have hat : (sampleMachine [0x04] [6, 3] []).At .DIV := by decide +kernel
  have hround : Round Levm.step (sampleMachine [0x04] [6, 3] []) ((sampleMachine [0x04] [6, 3] []).after 1) :=
    Prod.ext (by decide +kernel) rfl
  exact ⟨hat, rfl, hround, constant_price_iff hat rfl hround⟩

/-- Two zeros, `DIV` and `STOP`: the division is not charged. -/
theorem division_by_zero_uncharged :
    Opcode.DIV.price = some 5 ∧
    ((VM.new [0x5F, 0x5F, 0x04, 0x00] CallFrame.zeroAddress 0).execute 4).map VM.consumedGas =
      .ok (TX_BASE_COST + GasCost.PUSH0 + GasCost.PUSH0) := by
  decide +kernel

/-! ## Accounts -/

/-- What the round from `m` to `m'` charges for the growth of the memory: the gas of the round without the toll. -/
def Machine.charge (m m' : Machine) : Nat :=
  match (m.frame.opcodeAt m.frame.pc : Outcome Empty _) with
  | .ok (some opcode) => m'.txEnv.consumedGas - m.txEnv.consumedGas - opcode.toll m.frame.stack
  | _ => 0

/-- What the frame at work and those put aside have been charged for their memory. -/
structure Ledger where
  current : Nat
  waiting : List Nat

namespace Ledger

def start (m : Machine) : Ledger := ⟨0, List.replicate m.vm.callFrames.length 0⟩

def round (ledger : Ledger) (m m' : Machine) : Ledger :=
  if m.vm.callFrames.length < m'.vm.callFrames.length then ⟨0, (ledger.current + m.charge m') :: ledger.waiting⟩
  else if m'.vm.callFrames.length < m.vm.callFrames.length then ⟨ledger.waiting.headD 0, ledger.waiting.tail⟩
  else ⟨ledger.current + m.charge m', ledger.waiting⟩

end Ledger

/-- The machine is reached by a run of `VM::execute` with these charges. -/
def VM.Accounts [Keccak256] (vm : VM) : Machine → Ledger → Prop := vm.Recorded Ledger.start Ledger.round

/-- Every frame was charged the cost of its memory. -/
def Settled (m : Machine) (ledger : Ledger) : Prop :=
  List.Forall₂ (fun frame paid => paid = Memory.fee (frame.memory.data.length / 32))
    (m.frame :: m.vm.callFrames) (ledger.current :: ledger.waiting)

/-- A range of length zero is neither charged nor does the memory grow for it. -/
def SkipsEmpty [Keccak256] (m : Machine) : Prop := ∀ flow m' opcode stop, Levm.step m = (.ok flow, m') → m.At opcode →
  opcode.range m.frame.stack = some (stop, 0) →
  m.charge m' = 0 ∧ (m'.vm.callFrames = m.vm.callFrames → m'.frame.memory.data.length = m.frame.memory.data.length)

/-- The end of the arguments of a call in the memory. -/
def Opcode.arguments : Opcode → List U256 → Option Nat
  | CALL, _ :: _ :: _ :: offset :: size :: _ | CALLCODE, _ :: _ :: _ :: offset :: size :: _
  | DELEGATECALL, _ :: _ :: offset :: size :: _ | STATICCALL, _ :: _ :: offset :: size :: _ =>
    some (offset.toNat + size.toNat)
  | _, _ => none

/-- Ranges of length zero, the arguments of calls that start a frame and what the outermost frame returns lie within
the memory. -/
structure WithinMemory [Keccak256] (m : Machine) : Prop where
  empty : ∀ m' opcode stop, Round Levm.step m m' → m.At opcode →
    opcode.range m.frame.stack = some (stop, 0) → stop ≤ m.frame.memory.data.length
  arguments : ∀ m' opcode stop, Round Levm.step m m' → m.At opcode →
    opcode.arguments m.frame.stack = some stop → m.vm.callFrames.length < m'.vm.callFrames.length →
    stop ≤ m.frame.memory.data.length
  output : ∀ m' offset size stack cost, Levm.step m = (.ok .stop, m') → m.At .RETURN → m.vm.callFrames = [] →
    m.frame.stack = offset :: size :: stack →
    (m.frame.memory.expansionCost (offset.toNat + size.toNat) : Outcome Empty Nat) = .ok cost → m.Affords cost →
    offset.toNat + size.toNat ≤ m.frame.memory.data.length

/-! ## One round -/

/-- What a round does to the sizes of the memories. -/
inductive Grows (m : Machine) (opcode : Opcode) (m' : Machine) : Prop
  | stays : m'.vm.callFrames = m.vm.callFrames → m'.frame.memory.data.length = m.sizeAfter opcode → Grows m opcode m'
  | enters (stop : Nat) (saved : CallFrame) : opcode.arguments m.frame.stack = some stop → m.growth opcode = 0 →
      m'.vm.callFrames = saved :: m.vm.callFrames → m'.frame.memory = Memory.new →
      saved.memory.data.length = max m.frame.memory.data.length (Memory.roundUp stop) → Grows m opcode m'
  | leaves (parent : CallFrame) : m.vm.callFrames = parent :: m'.vm.callFrames → m'.frame.memory = parent.memory →
      Grows m opcode m'

variable {m : Machine}

theorem Act.grows (h : Act m opcode .next m') (hbill : Bill m opcode m') : Grows m opcode m' := by
  cases h with
  | spent h => cases h with | works => exact .stays rfl (hbill.size rfl)
  | free | loaded | stored | jumped | kept | logged | declined => exact .stays rfl (hbill.size rfl)
  | entered entry warm hopcode hof =>
    have hload := hof.load
    rcases entry with ⟨kind, operands, stack, calldata, memory⟩
    refine .enters (operands.argsOffset.toNat + operands.argsSize.toNat) (m.frame.waiting _) ?_ ?_ rfl ?_ ?_
    · rw [hopcode, hof.stack]
      cases kind <;> rfl
    · rw [hopcode]
      cases kind <;> rfl
    · cases kind <;> rfl
    · have hserves := m.frame.memory.ensures_loadRange (ε := Empty) operands.argsOffset.toNat operands.argsSize.toNat
      rw [hload] at hserves
      exact hserves.length
  | left _ _ _ _ _ _ parent rest _ _ _ hframes => exact .leaves parent hframes rfl

def Whole (m : Machine) : Prop := ∀ f ∈ m.frame :: m.vm.callFrames, 32 ∣ f.memory.data.length

theorem roundUp_le (hwhole : 32 ∣ size) (h : n ≤ size) : Memory.roundUp n ≤ size := by
  unfold Memory.roundUp Memory.wordsOf
  omega

theorem dvd_max_roundUp (hwhole : 32 ∣ size) : 32 ∣ max size (Memory.roundUp n) := by
  unfold Memory.roundUp
  omega

theorem fee_inj (h : Memory.fee a = Memory.fee b) : a = b := by
  rcases Nat.lt_trichotomy a b with hlt | rfl | hlt
  · have := Nat.div_le_div_right (c := 512) (Nat.mul_le_mul hlt.le hlt.le)
    unfold Memory.fee at h
    omega
  · rfl
  · have := Nat.div_le_div_right (c := 512) (Nat.mul_le_mul hlt.le hlt.le)
    unfold Memory.fee at h
    omega

/-- Growth is free exactly within the memory. -/
theorem expansionCost_zero_iff {memory : Memory} {stop charge} (hwhole : 32 ∣ memory.data.length)
    (h : (memory.expansionCost stop : Outcome Empty Nat) = .ok charge) : charge = 0 ↔ stop ≤ memory.data.length := by
  have hcharge := (Memory.expansionCost_eq_ok.mp h).2
  constructor
  · rintro rfl
    have heq := fee_inj ((Nat.zero_add _).symm.trans hcharge)
    unfold Memory.wordsOf at heq
    omega
  · intro hle
    rw [max_eq_left hle] at hcharge
    omega

theorem Machine.sizeAfter_dvd (hwhole : 32 ∣ m.frame.memory.data.length) : 32 ∣ m.sizeAfter opcode := by
  unfold Machine.sizeAfter
  split
  · split
    · exact hwhole
    · exact dvd_max_roundUp hwhole
  · exact hwhole

theorem Whole.grows (h : Whole m) (hgrows : Grows m opcode m') : Whole m' := by
  have hm := h m.frame mem_cons_self
  have hrest (f : CallFrame) (hf : f ∈ m.vm.callFrames) := h f (mem_cons_of_mem _ hf)
  intro f hf
  cases hgrows with
  | stays hframes hsize =>
    rcases mem_cons.mp hf with rfl | hf
    · exact hsize ▸ Machine.sizeAfter_dvd hm
    · exact hrest f (hframes ▸ hf)
  | enters _ saved _ _ hframes hnew hsaved =>
    rcases mem_cons.mp hf with rfl | hf
    · exact hnew ▸ Nat.dvd_zero 32
    · rw [hframes] at hf
      rcases mem_cons.mp hf with rfl | hf
      · exact hsaved ▸ dvd_max_roundUp hm
      · exact hrest f hf
  | leaves parent hframes hmemory =>
    rw [hframes] at hrest
    rcases mem_cons.mp hf with rfl | hf
    · exact hmemory ▸ hrest parent mem_cons_self
    · exact hrest f (mem_cons_of_mem _ hf)

theorem settled_start {vm : VM}
    (hnew : ∀ f ∈ frame :: rest, f.memory = Memory.new) :
    Settled (vm.start frame rest) (Ledger.start (vm.start frame rest)) := by
  refine List.forall₂_iff_zip.mpr ⟨by simp [VM.start, Ledger.start], fun {f paid} hzip => ?_⟩
  obtain ⟨hf, hpaid⟩ := of_mem_zip hzip
  rw [hnew f hf]
  rcases mem_cons.mp hpaid with rfl | hpaid
  · rfl
  · exact (mem_replicate.mp hpaid).2

section

variable [Keccak256]

theorem round_grows (hat : m.At opcode) (hround : Round Levm.step m m') : Grows m opcode m' := by
  obtain ⟨opcode', hat', hact⟩ := (step_act m).ok hround
  obtain rfl := hat.unique hat'
  cases hact.grows (round_bill hat hround) with
  | stays hframes hsize => exact .stays hframes hsize
  | enters stop saved hargs hfree hframes hnew hsaved => exact .enters stop saved hargs hfree hframes hnew hsaved
  | leaves parent hframes hmemory => exact .leaves parent hframes hmemory

theorem Machine.charge_eq (hat : m.At opcode) (hround : Round Levm.step m m') : m.charge m' = m.growth opcode := by
  have hopcode : (m.frame.opcodeAt m.frame.pc : Outcome Empty _) = .ok (some opcode) := hat
  have hgas : m'.txEnv.consumedGas = m.txEnv.consumedGas + opcode.toll m.frame.stack + m.growth opcode :=
    (round_bill hat hround).gas
  rw [Machine.charge, hopcode]
  dsimp only
  omega

theorem WithinMemory.charge_stays (h : WithinMemory m) (hwhole : 32 ∣ m.frame.memory.data.length) (hat : m.At opcode)
    (hround : Round Levm.step m m') :
    m.growth opcode + Memory.fee (m.frame.memory.data.length / 32) = Memory.fee (m.sizeAfter opcode / 32) := by
  rcases hrange : opcode.range m.frame.stack with _ | ⟨stop, size⟩
  · rw [Machine.growth, Machine.sizeAfter, hrange, Nat.zero_add]
  · have hcost : (m.frame.memory.expansionCost stop : Outcome Empty Nat) = .ok (m.growth opcode) :=
      (round_bill hat hround).computed stop size hrange
    have hcharge := (Memory.expansionCost_eq_ok.mp hcost).2
    rw [Machine.sizeAfter, hrange]
    dsimp only
    split
    · rename_i hcopy
      have hstop := h.empty m' opcode stop hround hat (hcopy.2 ▸ hrange)
      rw [(expansionCost_zero_iff hwhole hcost).mpr hstop, Nat.zero_add]
    · rwa [← Memory.wordsOf_max_roundUp, Memory.wordsOf_of_dvd hwhole,
        Memory.wordsOf_of_dvd (dvd_max_roundUp hwhole)] at hcharge

theorem Settled.round (h : Settled m ledger) (hwhole : Whole m) (hat : m.At opcode) (hround : Round Levm.step m m')
    (hwithin : WithinMemory m) : Settled m' (ledger.round m m') := by
  have hm := hwhole m.frame mem_cons_self
  cases h with
  | cons hcurrent hwaiting =>
  cases round_grows hat hround with
  | stays hframes hsize =>
    rw [Ledger.round, hframes, if_neg (lt_irrefl _), if_neg (lt_irrefl _)]
    refine .cons ?_ (hframes ▸ hwaiting)
    rw [hcurrent, hsize, ← hwithin.charge_stays hm hat hround, Machine.charge_eq hat hround, Nat.add_comm]
  | enters stop saved hargs hfree hframes hnew hsaved =>
    have hgrown : m.vm.callFrames.length < m'.vm.callFrames.length := hframes ▸ Nat.lt_succ_self _
    have hstop := hwithin.arguments m' opcode stop hround hat hargs hgrown
    rw [Ledger.round, if_pos hgrown, Settled, hframes]
    refine .cons (by rw [hnew]; rfl) (.cons ?_ hwaiting)
    rw [hsaved, max_eq_left (roundUp_le hm hstop), hcurrent, Machine.charge_eq hat hround, hfree, Nat.add_zero]
  | leaves parent hframes hmemory =>
    have hless : m'.vm.callFrames.length < m.vm.callFrames.length := hframes ▸ Nat.lt_succ_self _
    rw [Ledger.round, if_neg hless.asymm, if_pos hless]
    rw [hframes] at hwaiting
    generalize ledger.waiting = waiting at hwaiting
    cases hwaiting with
    | cons hparent hrest => exact .cons (hmemory ▸ hparent) hrest

/-- A `RETURN` that stops is the one of the outermost frame, which reads its range and does not charge for it, or it
lacks the gas. -/
structure Returns (m m' : Machine) (offset size : U256) (cost : Nat) : Prop where
  operands : ∃ stack, m.frame.stack = offset :: size :: stack
  growth : (m.frame.memory.expansionCost (offset.toNat + size.toNat) : Outcome Empty Nat) = .ok cost
  reads : m.Affords cost → m.vm.callFrames = [] ∧
    m'.frame.memory.data.length = max m.frame.memory.data.length (Memory.roundUp (offset.toNat + size.toNat))
  breaks : ¬ m.Affords cost → m'.frame.memory = m.frame.memory

omit [Keccak256] in
theorem ensures_return (m : Machine) : Ensures return_ m fun flow m' => flow = .stop →
    ∃ offset size cost, Returns m m' offset size cost := by
  refine ensures_size₂ fun offset size stack hstack => ensures_sum fun _ => ensures_growth fun cost hcost => ?_
  refine Exec.ensures_bind.mpr (ensures_exceeds.mpr fun hfits => ?_)
  split
  · rename_i hexceeded
    have hlimit : ¬ m.Affords cost := fun hafford => absurd hafford.limit (not_le.mpr (of_decide_eq_true hexceeded))
    exact fun _ => ⟨offset, size, cost, ⟨stack, hstack⟩, hcost, fun hafford => absurd hafford hlimit, fun _ => rfl⟩
  · rename_i hexceeded
    have hafford : m.Affords cost := ⟨not_lt.mp fun hlt => hexceeded (decide_eq_true hlt), hfits⟩
    refine ensures_memory ((ends_loadRange _ _ _).ensures fun ⟨returnData, memory⟩ hload => ensures_got ?_)
    split
    · exact Exec.ensures_bind.mpr (Exec.ensures_modify.mpr (ensures_pay fun _ => nofun))
    · rename_i hframes
      have hserves := (m.withStack stack).frame.memory.ensures_loadRange (ε := Empty) offset.toNat size.toNat
      rw [hload] at hserves
      exact Exec.ensures_bind.mpr (ensures_push.mpr fun _ => ⟨offset, size, cost, ⟨stack, hstack⟩, hcost,
        fun _ => ⟨hframes, hserves.length⟩, fun hlimit => absurd hafford hlimit⟩)

/-- A round that stops charges nothing, and only `RETURN` changes the memory in one. -/
theorem stop_inv (hstep : Levm.step m = (.ok .stop, m')) : m.charge m' = 0 ∧ m'.vm.callFrames = m.vm.callFrames ∧
    ∃ opcode, m.At opcode ∧ (opcode ≠ .RETURN → m'.frame.memory = m.frame.memory) := by
  obtain ⟨opcode, hat, hact⟩ := (step_act m).ok hstep
  have hopcode : (m.frame.opcodeAt m.frame.pc : Outcome Empty _) = .ok (some opcode) := hat
  cases hact with | spent h => cases h with | halts stack memory hmemory =>
  refine ⟨?_, rfl, opcode, hat, hmemory⟩
  rw [Machine.charge, hopcode]
  change m.txEnv.consumedGas - m.txEnv.consumedGas - _ = 0
  omega

theorem stop_return (hat : m.At .RETURN) (hstep : Levm.step m = (.ok .stop, m')) :
    ∃ offset size cost, Returns m.advance m' offset size cost :=
  (ensures_step hat (ensures_return m.advance)).ok hstep rfl

theorem WithinMemory.stop (h : WithinMemory m) (hwhole : 32 ∣ m.frame.memory.data.length)
    (hstep : Levm.step m = (.ok .stop, m')) : m'.frame.memory.data.length = m.frame.memory.data.length := by
  obtain ⟨-, -, opcode, hat, hother⟩ := stop_inv hstep
  by_cases hreturn : opcode = .RETURN
  · subst hreturn
    obtain ⟨offset, size, cost, ⟨stack, hstack⟩, hcost, hreads, hbreaks⟩ := stop_return hat hstep
    by_cases hafford : m.advance.Affords cost
    · obtain ⟨hframes, hsize⟩ := hreads hafford
      have hstop := h.output m' offset size stack cost hstep hat hframes hstack hcost ⟨hafford.limit, hafford.fits⟩
      exact hsize.trans (max_eq_left (roundUp_le hwhole hstop))
    · exact congrArg (·.data.length) (hbreaks hafford)
  · rw [hother hreturn]

/-- The ledger after a round that stops is the one before it. -/
theorem settled_stop (h : Settled m ledger) (hstep : Levm.step m = (.ok .stop, m')) :
    Settled m' (ledger.round m m') ↔ m'.frame.memory.data.length / 32 = m.frame.memory.data.length / 32 := by
  obtain ⟨hcharge, hframes, -⟩ := stop_inv hstep
  cases h with
  | cons hcurrent hwaiting =>
  rw [Ledger.round, hframes, if_neg (lt_irrefl _), if_neg (lt_irrefl _), hcharge, Nat.add_zero, Settled, hframes,
    forall₂_cons, and_iff_left hwaiting, hcurrent]
  exact ⟨fun heq => (fee_inj heq).symm, fun heq => by rw [heq]⟩

theorem WithinMemory.skipsEmpty (h : WithinMemory m) (hwhole : 32 ∣ m.frame.memory.data.length) : SkipsEmpty m := by
  intro flow m' opcode stop hstep hat hrange
  cases flow with
  | stop => exact ⟨(stop_inv hstep).1, fun _ => h.stop hwhole hstep⟩
  | next =>
    have hstop := h.empty m' opcode stop hstep hat hrange
    have hbill := round_bill hat hstep
    have hrange' : opcode.range m.advance.frame.stack = some (stop, 0) := hrange
    refine ⟨?_, fun hframes => ?_⟩
    · rw [Machine.charge_eq hat hstep]
      exact (expansionCost_zero_iff hwhole (hbill.computed stop 0 hrange')).mpr hstop
    · rw [hbill.size hframes, Machine.sizeAfter, hrange']
      dsimp only
      split
      · rfl
      · exact max_eq_left (roundUp_le hwhole hstop)

/-- If nothing is wrong after the rounds from `m`, they keep within the memory. -/
theorem withinMemory_of_settled (h : Settled m ledger) (hwhole : 32 ∣ m.frame.memory.data.length)
    (hskips : SkipsEmpty m)
    (hnext : ∀ flow m', Levm.step m = (.ok flow, m') → Settled m' (ledger.round m m')) : WithinMemory m := by
  constructor
  · intro m' opcode stop hround hat hrange
    have hcharge := (hskips .next m' opcode stop hround hat hrange).1
    rw [Machine.charge_eq hat hround] at hcharge
    exact (expansionCost_zero_iff hwhole ((round_bill hat hround).computed stop 0 hrange)).mp hcharge
  · intro m' opcode stop hround hat hargs hgrown
    have hsettled := hnext .next m' hround
    cases round_grows hat hround with
    | stays hframes => exact absurd hgrown (hframes ▸ lt_irrefl _)
    | leaves parent hframes => exact absurd hgrown (Nat.lt_asymm (hframes ▸ Nat.lt_succ_self _))
    | enters stop' saved hargs' hfree hframes hnew hsaved =>
      obtain rfl : stop = stop' := Option.some.inj (hargs.symm.trans hargs')
      rw [Ledger.round, if_pos hgrown, Settled, hframes] at hsettled
      cases h with | cons hcurrent _ =>
      cases hsettled with | cons _ hsettled =>
      cases hsettled with | cons hcaller _ =>
      -- the caller was charged nothing, so its memory has the size that it had
      rw [Machine.charge_eq hat hround, hfree, hcurrent] at hcaller
      have heq := fee_inj hcaller
      have hle := Memory.le_roundUp stop
      have hdvd := dvd_max_roundUp (n := stop) hwhole
      omega
  · intro m' offset size stack cost hstep hat hframes hstack hcost hafford
    have hsame := (settled_stop h hstep).mp (hnext .stop m' hstep)
    obtain ⟨offset', size', cost', ⟨stack', hstack'⟩, hcost', hreads, -⟩ := stop_return hat hstep
    cases hstack.symm.trans hstack'
    cases hcost.symm.trans hcost'
    have hsize : _ = max m.frame.memory.data.length (Memory.roundUp (offset.toNat + size.toNat)) :=
      (hreads ⟨hafford.limit, hafford.fits⟩).2
    have hle := Memory.le_roundUp (offset.toNat + size.toNat)
    have hdvd := dvd_max_roundUp (n := offset.toNat + size.toNat) hwhole
    omega

theorem VM.Accounts.whole {vm : VM} (hstart : ∀ f ∈ vm.callFrames, f.memory = Memory.new) (h : vm.Accounts m ledger) :
    Whole m := by
  induction h with
  | start hframes =>
    intro f hf
    rw [hstart f (hframes ▸ hf)]
    exact Nat.dvd_zero 32
  | round _ hround ih =>
    obtain ⟨opcode, hat, -⟩ := (step_act _).ok hround
    exact ih.grows (round_grows hat hround)

/-- In every state of a run, the last one included, the frames were charged the cost of their memory, and ranges of
length zero are skipped, exactly if the run keeps within the memory. -/
theorem memory_paid_once_iff {vm : VM} (hstart : ∀ f ∈ vm.callFrames, f.memory = Memory.new) :
    (∀ m ledger, vm.Accounts m ledger → Settled m ledger ∧ SkipsEmpty m ∧
      ∀ m', Levm.step m = (.ok .stop, m') → Settled m' (ledger.round m m')) ↔
      ∀ m ledger, vm.Accounts m ledger → WithinMemory m := by
  constructor
  · intro hright m ledger h
    obtain ⟨hsettled, hskips, hlast⟩ := hright m ledger h
    refine withinMemory_of_settled hsettled (h.whole hstart _ List.mem_cons_self) hskips fun flow m' hstep => ?_
    cases flow with
    | next => exact (hright m' _ (.round h hstep)).1
    | stop => exact hlast m' hstep
  · intro hwithin m ledger h
    have hwhole := h.whole hstart _ List.mem_cons_self
    suffices hsettled : Settled m ledger from ⟨hsettled, (hwithin m ledger h).skipsEmpty hwhole, fun m' hstep =>
      (settled_stop hsettled hstep).mpr (by rw [(hwithin m ledger h).stop hwhole hstep])⟩
    clear hwhole
    induction h with
    | start hframes => exact settled_start (hframes ▸ hstart)
    | round h hround ih =>
      obtain ⟨opcode, hat, -⟩ := (step_act _).ok hround
      exact ih.round (VM.Accounts.whole hstart h) hat hround (hwithin _ _ h)

end

theorem memory_paid_once_iff_sampleVm :
    let vm := sampleVm [0x60, 0x20, 0x51] []
    (∀ f ∈ vm.callFrames, f.memory = Memory.new) ∧
    ((∀ m ledger, vm.Accounts m ledger → Settled m ledger ∧ SkipsEmpty m ∧
      ∀ m', Levm.step m = (.ok .stop, m') → Settled m' (ledger.round m m')) ↔
      ∀ m ledger, vm.Accounts m ledger → WithinMemory m) := by
  have hstart : ∀ f ∈ (sampleVm [0x60, 0x20, 0x51] []).callFrames, f.memory = Memory.new := by
    intro f hf
    rw [List.mem_singleton.mp hf]
    rfl
  exact ⟨hstart, memory_paid_once_iff hstart⟩

/-- `CALLDATACOPY` of nothing to `32` is charged and does not grow the memory; `STATICCALL` with `32` bytes of
arguments grows the memory of the caller and is not charged, nor are the `32` bytes that the outermost frame returns. -/
theorem memory_paid_otherwise :
    (∃ m ledger, (sampleVm [0x5F, 0x5F, 0x60, 0x20, 0x37] []).Accounts m ledger ∧
      ledger.current = 3 ∧ m.frame.memory.data.length = 0) ∧
    (∃ m ledger, (sampleVm [0x5F, 0x5F, 0x60, 0x20, 0x5F, 0x60, 0x01, 0x5F, 0xFA] [[0x00]]).Accounts m ledger ∧
      ledger.waiting = [0] ∧ m.vm.callFrames.map (·.memory.data.length) = [32]) ∧
    ∃ m ledger, (sampleVm [0x60, 0x20, 0x5F, 0xF3] []).Accounts m ledger ∧ (Levm.step m).1 = .ok .stop ∧
      (ledger.round m (Levm.step m).2).current = 0 ∧ (Levm.step m).2.frame.memory.data.length = 32 := by
  refine ⟨⟨_, _, recorded_after rfl 4 ?_, ?_⟩, ⟨_, _, recorded_after rfl 7 ?_, ?_⟩, _, _,
    recorded_after rfl 2 ?_, ?_⟩ <;>
    decide +kernel

end EthereumRust.Levm
