import EthereumRust.Levm.Calls

/-! # Transient storage

Each frame has a transient storage of its own, so `TLOAD` reads what the same frame
stored, not what was stored last in the account. A history numbers the frames of a run. -/

namespace EthereumRust.Levm

open Rlp (Address U256)
open List
open Mpt (Keccak256)
open Exec (Flow Ensures Round)

variable {vm : VM}

/-! ## The history of a run -/

/-- A `TSTORE` of the frame with this number, in the context of this account. -/
structure Write where
  frame : Nat
  account : Address
  key : U256
  value : U256

/-- The numbers of the frame at work and of those put aside, the number of the next frame, and the
writes so far, the last one first. -/
structure History where
  current : Nat
  waiting : List Nat
  fresh : Nat
  writes : List Write

namespace History

def start (waiting : Nat) : History := ⟨waiting, (List.range waiting).reverse, waiting + 1, []⟩

def record (history : History) (m : Machine) : History :=
  match decide (m.At .TSTORE), m.frame.stack with
  | true, key :: value :: _ =>
    { history with writes := ⟨history.current, m.frame.storageAddress, key, value⟩ :: history.writes }
  | _, _ => history

def follow (history : History) (before after : Nat) : History :=
  if before < after then
    { history with
      current := history.fresh, waiting := history.current :: history.waiting, fresh := history.fresh + 1 }
  else if after < before then
    match history.waiting with
    | [] => history
    | frame :: waiting => { history with current := frame, waiting := waiting }
  else history

def round (history : History) (m m' : Machine) : History :=
  (history.record m).follow m.vm.callFrames.length m'.vm.callFrames.length

def lastByFrame (history : History) (key : U256) : U256 :=
  (history.writes.find? fun w => w.frame == history.current && w.key == key).elim 0 Write.value

def lastInAccount (history : History) (account : Address) (key : U256) : U256 :=
  (history.writes.find? fun w => w.account == account && w.key == key).elim 0 Write.value

end History

inductive VM.Traces [Keccak256] (vm : VM) : Machine → History → Prop
  | start {frame : CallFrame} {rest : List CallFrame} : vm.callFrames = frame :: rest →
      VM.Traces vm (vm.start frame rest) (History.start rest.length)
  | round {m m' : Machine} {history : History} : VM.Traces vm m history → Round Levm.step m m' →
      VM.Traces vm m' (history.round m m')

/-! ## What the frames hold -/

def CallFrame.transient (frame : CallFrame) (key : U256) : U256 :=
  (frame.transientStorage.lookup (frame.msgSender, key)).getD 0

/-- The frame with this number holds what it wrote last. -/
def Holds (writes : List Write) (frame : CallFrame) (number : Nat) : Prop :=
  ∀ key, frame.transient key = (writes.find? fun w => w.frame == number && w.key == key).elim 0 Write.value

/-- The frames hold what they wrote last, and the numbers of frames are all different. -/
structure Sync (m : Machine) (history : History) : Prop where
  holds : List.Forall₂ (Holds history.writes) (m.frame :: m.vm.callFrames) (history.current :: history.waiting)
  nodup : (history.current :: history.waiting).Nodup
  numbers : ∀ n ∈ history.current :: history.waiting, n < history.fresh
  writes : ∀ w ∈ history.writes, w.frame < history.fresh

variable {m m' : Machine} {history : History} {opcode : Opcode}

namespace History

variable (history : History)

theorem record_of_ne (hat : m.At opcode) (hne : opcode ≠ .TSTORE) :
    history.record m = history := by
  have hnot : decide (m.At .TSTORE) = false := decide_eq_false fun h => hne (hat.unique h)
  rw [record, hnot]

theorem record_tstore (hat : m.At .TSTORE) (hstack : m.frame.stack = key :: value :: stack) :
    history.record m =
      { history with writes := ⟨history.current, m.frame.storageAddress, key, value⟩ :: history.writes } := by
  rw [record, decide_eq_true hat, hstack]

@[simp] theorem follow_same (n : Nat) : history.follow n n = history := by simp [follow]

theorem follow_push (n : Nat) : history.follow n (n + 1) =
    { history with
      current := history.fresh, waiting := history.current :: history.waiting, fresh := history.fresh + 1 } := by
  simp [follow]

theorem follow_pop {history : History} {frame waiting} (h : history.waiting = frame :: waiting)
    (n : Nat) : history.follow (n + 1) n = { history with current := frame, waiting := waiting } := by
  simp [follow, h]

end History

theorem holds_congr {frame' : CallFrame}
    (heq : frame'.transient = frame.transient) (h : Holds writes frame number) : Holds writes frame' number := by
  intro key
  rw [heq]
  exact h key

theorem Holds.other {w : Write} (hne : w.frame ≠ number)
    (h : Holds writes frame number) : Holds (w :: writes) frame number := by
  intro key
  rw [List.find?_cons_of_neg (by simp [hne])]
  exact h key

theorem Sync.quiet (h : Sync m history) (hat : m.At opcode) (hne : opcode ≠ .TSTORE)
    (hframes : m'.vm.callFrames = m.vm.callFrames) (hframe : m'.frame.transient = m.frame.transient) :
    Sync m' (history.round m m') := by
  rw [History.round, history.record_of_ne hat hne, hframes, History.follow_same]
  refine ⟨?_, h.nodup, h.numbers, h.writes⟩
  rw [hframes]
  cases h.holds with
  | cons hcurrent hwaiting => exact .cons (holds_congr hframe hcurrent) hwaiting

theorem Sync.kept (h : Sync m history) (hat : m.At .TSTORE)
    (hstack : m.frame.stack = key :: value :: stack) (hframes : m'.vm.callFrames = m.vm.callFrames)
    (hframe : ∀ k, m'.frame.transient k = if k = key then value else m.frame.transient k) :
    Sync m' (history.round m m') := by
  rw [History.round, history.record_tstore hat hstack, hframes, History.follow_same]
  refine ⟨?_, h.nodup, h.numbers, ?_⟩
  · rw [hframes]
    cases h.holds with
    | cons hcurrent hwaiting =>
      refine .cons (fun k => ?_) ?_
      · rw [hframe]
        by_cases hk : k = key
        · rw [if_pos hk, List.find?_cons_of_pos (by simp [hk])]
          rfl
        · rw [if_neg hk, List.find?_cons_of_neg (by simp [Ne.symm hk])]
          exact hcurrent k
      · -- the frames put aside have other numbers
        have hne : ∀ n ∈ history.waiting, history.current ≠ n := fun n hn heq =>
          (nodup_cons.mp h.nodup).1 (heq ▸ hn)
        refine List.forall₂_iff_zip.mpr ⟨hwaiting.length_eq, fun hzip => ?_⟩
        exact ((List.forall₂_iff_zip.mp hwaiting).2 hzip).other (hne _ (of_mem_zip hzip).2)
  · intro w hw
    rcases mem_cons.mp hw with rfl | hw
    · exact h.numbers _ mem_cons_self
    · exact h.writes w hw

/-- A callee starts with an empty storage and a number that no write has. -/
theorem Sync.entered (h : Sync m history) (hat : m.At opcode) (hne : opcode ≠ .TSTORE)
    (hframes : m'.vm.callFrames = saved :: m.vm.callFrames) (hsaved : saved.transient = m.frame.transient)
    (hempty : ∀ key, m'.frame.transient key = 0) : Sync m' (history.round m m') := by
  rw [History.round, history.record_of_ne hat hne, hframes, length_cons, History.follow_push]
  refine ⟨?_, nodup_cons.mpr ⟨fun hmem => ?_, h.nodup⟩, fun n hn => ?_, fun w hw => ?_⟩
  · rw [hframes]
    cases h.holds with
    | cons hcurrent hwaiting =>
      refine .cons (fun key => ?_) (.cons (holds_congr hsaved hcurrent) hwaiting)
      rw [hempty, List.find?_eq_none.mpr fun w hw => by simp [(h.writes w hw).ne]]
      rfl
  · exact absurd (h.numbers _ hmem) (lt_irrefl _)
  · rcases mem_cons.mp hn with rfl | hn
    · exact Nat.lt_succ_self _
    · exact Nat.lt_succ_of_lt (h.numbers n hn)
  · exact Nat.lt_succ_of_lt (h.writes w hw)

/-- The caller has its storage and its number again. -/
theorem Sync.left (h : Sync m history) (hat : m.At opcode) (hne : opcode ≠ .TSTORE)
    (hframes : m.vm.callFrames = parent :: m'.vm.callFrames) (hparent : m'.frame.transient = parent.transient) :
    Sync m' (history.round m m') := by
  have hholds := h.holds
  rw [hframes] at hholds
  cases hholds with
  | cons _ hwaiting =>
    generalize hids : history.waiting = ids at hwaiting
    cases hwaiting with
    | cons hcurrent hrest =>
      rw [History.round, history.record_of_ne hat hne, hframes, length_cons, History.follow_pop hids]
      have hnodup := (nodup_cons.mp h.nodup).2
      rw [hids] at hnodup
      refine ⟨.cons (holds_congr hparent hcurrent) hrest, hnodup, fun n hn => ?_, h.writes⟩
      exact h.numbers n (mem_cons_of_mem _ (hids ▸ hn))

theorem Opcode.ne_tstore_of_isPlain (h : opcode.isPlain = true) : opcode ≠ .TSTORE := by
  rintro rfl
  cases h

theorem CallKind.opcode_ne_tstore (kind : CallKind) : kind.opcode ≠ .TSTORE := by cases kind <;> nofun

theorem transient_insert (frame : CallFrame) (stack : List U256) (key value k : U256) :
    CallFrame.transient { frame with
      stack := stack
      transientStorage := frame.transientStorage.insert (frame.msgSender, key) value } k =
      if k = key then value else frame.transient k := by
  change ((frame.transientStorage.insert (frame.msgSender, key) value).lookup (frame.msgSender, k)).getD 0 = _
  by_cases hk : k = key
  · rw [if_pos hk, hk, AList.lookup_insert]
    rfl
  · rw [if_neg hk, AList.lookup_insert_ne fun h => hk (Prod.mk.inj h).2]
    rfl

theorem Sync.act (h : Sync m history) (hat : m.At opcode) (hact : Act m.advance opcode .next m') :
    Sync m' (history.round m m') := by
  cases hact with
  | spent hspends =>
    cases hspends with
    | works _ _ _ hplain => exact h.quiet hat (Opcode.ne_tstore_of_isPlain hplain) rfl rfl
  | free _ _ hplain => exact h.quiet hat (Opcode.ne_tstore_of_isPlain hplain.isPlain) rfl rfl
  | loaded _ _ hopcode => exact h.quiet hat (by rw [hopcode]; nofun) rfl rfl
  | stored _ _ _ _ hopcode => exact h.quiet hat (by rw [hopcode]; nofun) rfl rfl
  | jumped _ _ _ htaken => exact h.quiet hat (by rintro rfl; cases htaken) rfl rfl
  | logged _ _ _ _ _ hopcode => exact h.quiet hat (by rw [hopcode]; nofun) rfl rfl
  | declined kind _ _ _ _ hopcode => exact h.quiet hat (hopcode ▸ kind.opcode_ne_tstore) rfl rfl
  | kept key value stack hopcode hstack =>
    subst hopcode
    exact h.kept hat hstack rfl fun k => transient_insert m.frame stack key value k
  | entered entry warm hopcode =>
    refine h.entered hat (hopcode ▸ entry.kind.opcode_ne_tstore) rfl rfl fun key => ?_
    rcases entry with ⟨kind, operands, rest, calldata, memory⟩
    cases kind <;> rfl
  | left _ _ _ _ _ _ parent rest hopcode _ _ hframes =>
    exact h.left hat (by rw [hopcode]; nofun) hframes rfl

/-! ## `TLOAD` and `TSTORE` -/

theorem ensures_tload [Keccak256] (m : Machine) : Ensures (instruction .TLOAD) m fun flow m' =>
    flow = .next → ∃ key stack, m.frame.stack = key :: stack ∧ m'.frame.stack = m.frame.transient key :: stack := by
  refine ensures_metered nofun fun _ => ?_
  exact Exec.ensures_bind.mpr (ensures_pop.mpr fun key stack hstack _ => ⟨key, stack, hstack, rfl⟩)

theorem sync_start
    (hempty : ∀ f ∈ frame :: rest, f.transientStorage = ∅) :
    Sync (vm.start frame rest) (History.start rest.length) := by
  have hnodup : (rest.length :: (List.range rest.length).reverse).Nodup :=
    nodup_cons.mpr ⟨by simp, nodup_reverse.mpr nodup_range⟩
  refine ⟨?_, hnodup, fun n hn => ?_, nofun⟩
  · refine List.forall₂_iff_zip.mpr ⟨by simp [VM.start, History.start], fun {f n} hzip key => ?_⟩
    rw [CallFrame.transient, hempty f (of_mem_zip hzip).1]
    rfl
  · rcases mem_cons.mp hn with rfl | hn
    · exact Nat.lt_succ_self _
    · exact Nat.lt_succ_of_lt (mem_range.mp (mem_reverse.mp hn))

section

variable [Keccak256] {vm : VM}

/-- In every run the frames hold what they wrote last. -/
theorem VM.Traces.sync (hempty : ∀ f ∈ vm.callFrames, f.transientStorage = ∅) (h : vm.Traces m history) :
    Sync m history := by
  induction h with
  | start hframes => exact sync_start (hframes ▸ hempty)
  | round _ hround ih =>
    obtain ⟨opcode, hat, hact⟩ := (step_act _).ok hround
    exact ih.act hat hact

theorem VM.Traces.transient (hempty : ∀ f ∈ vm.callFrames, f.transientStorage = ∅) (h : vm.Traces m history)
    (key : U256) : m.frame.transient key = history.lastByFrame key := by
  cases (h.sync hempty).holds with
  | cons hcurrent _ => exact hcurrent key

/-- `TLOAD` pushes the last value stored in the context of its account exactly if the last value that the frame
itself stored is the same, and a `TSTORE` in a static frame has no effect exactly if the value is the one
that the frame holds already. -/
theorem transient_storage_iff (hempty : ∀ f ∈ vm.callFrames, f.transientStorage = ∅) (h : vm.Traces m history) :
    (∀ key stack m', m.At .TLOAD → m.frame.stack = key :: stack → Round Levm.step m m' →
      (m'.frame.stack = history.lastInAccount m.frame.storageAddress key :: stack ↔
        history.lastByFrame key = history.lastInAccount m.frame.storageAddress key)) ∧
    (∀ key value stack m', m.At .TSTORE → m.frame.stack = key :: value :: stack → m.frame.isStatic = true →
      Round Levm.step m m' →
      ((∀ k, m'.frame.transient k = m.frame.transient k) ↔ value = history.lastByFrame key)) := by
  constructor
  · intro key stack m' hat hstack hround
    obtain ⟨key', stack', hstack', hpushed⟩ := (ensures_step hat (ensures_tload m.advance)).ok hround rfl
    cases hstack.symm.trans hstack'
    have hvalue : m'.frame.stack = history.lastByFrame key :: stack := by
      rw [hpushed, ← h.transient hempty]
      rfl
    rw [hvalue, List.cons.injEq, and_iff_left rfl]
  · intro key value stack m' hat hstack _ hround
    rcases (ensures_step hat (ensures_tstore m.advance)).ok hround with
      ⟨hstop, -⟩ | ⟨-, -, key', value', stack', hstack', rfl⟩
    · cases hstop
    cases hstack.symm.trans hstack'
    have hread (k : U256) := transient_insert m.frame stack key value k
    constructor
    · intro hsame
      have hkey := (hread key).symm.trans (hsame key)
      rw [if_pos rfl, h.transient hempty] at hkey
      exact hkey
    · intro hvalue k
      refine (hread k).trans ?_
      by_cases hk : k = key
      · rw [if_pos hk, hvalue, hk, h.transient hempty]
      · exact if_neg hk

end

def Machine.historyAfter [Keccak256] (m : Machine) : Nat → History
  | 0 => History.start m.vm.callFrames.length
  | n + 1 => (m.historyAfter n).round (m.after n) (m.after (n + 1))

theorem traces_after [Keccak256]
    (hframes : vm.callFrames = frame :: rest) (n : Nat)
    (hrounds : ∀ k < n, (Levm.step ((vm.start frame rest).after k)).1 = .ok .next) :
    vm.Traces ((vm.start frame rest).after n) ((vm.start frame rest).historyAfter n) := by
  induction n with
  | zero => exact .start hframes
  | succ n ih =>
    exact .round (ih fun k hk => hrounds k (Nat.lt_succ_of_lt hk)) (Prod.ext (hrounds n (Nat.lt_succ_self n)) rfl)

attribute [local instance] Keccak256.empty

/-- A frame stores `7` and loads it back. -/
theorem transient_storage_iff_sampleVm :
    let start := (sampleVm [0x60, 0x07, 0x5F, 0x5D, 0x5F, 0x5C] []).start
      (CallFrame.newFromBytecode [0x60, 0x07, 0x5F, 0x5D, 0x5F, 0x5C]) []
    let m := start.after 4
    let history := start.historyAfter 4
    (m.At .TLOAD ∧ history.lastByFrame 0 = 7) ∧
    (∀ key stack m', m.At .TLOAD → m.frame.stack = key :: stack → Round Levm.step m m' →
      (m'.frame.stack = history.lastInAccount m.frame.storageAddress key :: stack ↔
        history.lastByFrame key = history.lastInAccount m.frame.storageAddress key)) ∧
    (∀ key value stack m', m.At .TSTORE → m.frame.stack = key :: value :: stack → m.frame.isStatic = true →
      Round Levm.step m m' →
      ((∀ k, m'.frame.transient k = m.frame.transient k) ↔ value = history.lastByFrame key)) := by
  refine ⟨by decide +kernel, transient_storage_iff (fun f hf => ?_) (traces_after rfl 4 (by decide +kernel))⟩
  rw [List.mem_singleton.mp hf]
  rfl

/-- A frame stores `7` and delegates to the account `1`, whose code loads it in the context of the same account:
it gets `0`. And a frame that was called statically stores `7` and loads it back. -/
theorem transient_storage_per_frame :
    let m := (sampleVm [] [[0x5F, 0x5C]]).start (CallFrame.newFromBytecode
      [0x60, 0x07, 0x5F, 0x5D, 0x5F, 0x5F, 0x5F, 0x5F, 0x60, 0x01, 0x5F, 0xF4]) []
    let s := (sampleVm [] [[0x60, 0x07, 0x5F, 0x5D, 0x5F, 0x5C]]).start (CallFrame.newFromBytecode
      [0x5F, 0x5F, 0x5F, 0x5F, 0x60, 0x01, 0x5F, 0xFA]) []
    ((∀ n < 12, (Levm.step (m.after n)).1 = .ok .next) ∧
      (m.after 2).At .TSTORE ∧ (m.after 2).frame.stack = [0, 7] ∧
      (m.after 11).At .TLOAD ∧ (m.after 11).frame.stack = [0] ∧
      (m.after 11).frame.storageAddress = (m.after 2).frame.storageAddress ∧
      (m.after 12).frame.stack = [0]) ∧
    (∀ n < 12, (Levm.step (s.after n)).1 = .ok .next) ∧
      (s.after 9).At .TSTORE ∧ (s.after 9).frame.isStatic = true ∧ (s.after 12).frame.stack = [7] := by
  decide +kernel

end EthereumRust.Levm
