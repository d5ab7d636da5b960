import EthereumRust.Levm.Calls

/-! # Storage slots

The current value is that of the last `SSTORE`. The value from before the transaction is
kept as long as the slot exists; a slot that `SSTORE` creates gets the value stored now. -/

namespace EthereumRust.Levm

open Rlp (Address U256)
open Mpt (Keccak256)
open Exec (Flow Round)

/-- What `SLOAD` finds. -/
def Db.value (db : Db) (address : Address) (key : U256) : U256 :=
  (db.readAccountStorage address key).elim 0 StorageSlot.currentValue

/-- The storage with which a run starts, and what its `SSTORE`s wrote, the last one first. -/
structure StorageLog where
  initial : Db
  writes : List ((Address × U256) × U256)

namespace StorageLog

def start (m : Machine) : StorageLog := ⟨m.vm.db, []⟩

def round (log : StorageLog) (m _m' : Machine) : StorageLog :=
  match (m.frame.opcodeAt m.frame.pc : Outcome Empty _), m.frame.stack with
  | .ok (some .SSTORE), key :: value :: _ => { log with writes := ((m.frame.storageAddress, key), value) :: log.writes }
  | _, _ => log

def last (log : StorageLog) (address : Address) (key : U256) : U256 :=
  (log.writes.lookup (address, key)).getD (log.initial.value address key)

end StorageLog

/-- The run from `vm` with the log of its stores. -/
def VM.Logs [Keccak256] (vm : VM) : Machine → StorageLog → Prop := vm.Recorded StorageLog.start StorageLog.round

/-- The slots hold the values last stored, and `SLOAD` pushes them. -/
structure HoldsLast [Keccak256] (m : Machine) (log : StorageLog) : Prop where
  value : ∀ address key, m.vm.db.value address key = log.last address key
  sload : ∀ key stack m', m.At .SLOAD → m.frame.stack = key :: stack → Round Levm.step m m' →
    m'.frame.stack = log.last m.frame.storageAddress key :: stack

/-- The slots remember the values from before the run. -/
def Remembers (m : Machine) (log : StorageLog) : Prop := ∀ address key slot,
  m.vm.db.readAccountStorage address key = some slot → slot.originalValue = log.initial.value address key

/-- The machine does not store anything but zero in a slot that is not there. -/
def CreatesZero [Keccak256] (m : Machine) : Prop := ∀ m' key value stack, Round Levm.step m m' → m.At .SSTORE →
  m.frame.stack = key :: value :: stack → m.vm.db.readAccountStorage m.frame.storageAddress key = none → value = 0

/-! ## One round -/

theorem readAccountStorage_write (db : Db) (address address' : Address) (key key' : U256) (slot : StorageSlot) :
    (db.writeAccountStorage address key slot).readAccountStorage address' key' =
      if (address', key') = (address, key) then some slot else db.readAccountStorage address' key' := by
  unfold Db.readAccountStorage Db.writeAccountStorage
  by_cases ha : address' = address
  · subst ha
    by_cases hk : key' = key
    · subst hk
      simp
    · have hne : (address', key') ≠ (address', key) := fun h => hk (congrArg Prod.snd h)
      rw [if_neg hne, AList.lookup_insert, Option.bind_eq_bind, Option.bind_some, AList.lookup_insert_ne hk]
      cases db.accounts.lookup address' <;> rfl
  · have hne : (address', key') ≠ (address, key) := fun h => ha (congrArg Prod.fst h)
    rw [if_neg hne, AList.lookup_insert_ne ha]

variable {log : StorageLog}

theorem Act.db_eq (h : Act m opcode .next m') (hne : opcode ≠ .SSTORE) : m'.vm.db = m.vm.db := by
  cases h with
  | spent h => cases h; rfl
  | stored _ _ _ _ hopcode => exact absurd hopcode hne
  | free | loaded | jumped | kept | logged | declined | entered | left => rfl

theorem StorageLog.round_of_ne (hat : m.At opcode) (hne : opcode ≠ .SSTORE) : log.round m m' = log := by
  unfold round
  split
  · rename_i hopcode _
    exact absurd (Option.some.inj (Except.ok.inj (hat.symm.trans hopcode))) hne
  · rfl

theorem StorageLog.round_sstore (hat : m.At .SSTORE)
    (hstack : m.frame.stack = key :: value :: stack) :
    log.round m m' = { log with writes := ((m.frame.storageAddress, key), value) :: log.writes } := by
  have hat : (m.frame.opcodeAt m.frame.pc : Outcome Empty _) = .ok (some .SSTORE) := hat
  rw [round, hat, hstack]

theorem StorageLog.last_cons (address address' : Address) (key key' value : U256) :
    StorageLog.last { log with writes := ((address, key), value) :: log.writes } address' key' =
      if (address', key') = (address, key) then value else log.last address' key' := by
  unfold last
  rw [List.lookup_cons]
  split
  · rename_i h
    rw [if_pos (beq_iff_eq.mp h)]
    rfl
  · rename_i h
    rw [if_neg (by simpa using h)]

/-- The slots of the start hold their value, and no slot is ever removed. -/
structure Tracks (m : Machine) (log : StorageLog) : Prop where
  value : ∀ address key, m.vm.db.value address key = log.last address key
  absent : ∀ address key, m.vm.db.readAccountStorage address key = none → log.initial.value address key = 0

section

variable [Keccak256]

theorem round_storage (log : StorageLog) (hround : Round Levm.step m m') :
    (m'.vm.db = m.vm.db ∧ log.round m m' = log) ∨
    ∃ key value stack, m.At .SSTORE ∧ m.frame.stack = key :: value :: stack ∧
      m'.vm.db = m.vm.db.writeAccountStorage m.frame.storageAddress key
        ⟨(m.vm.db.readAccountStorage m.frame.storageAddress key).elim value StorageSlot.originalValue, value⟩ ∧
      log.round m m' = { log with writes := ((m.frame.storageAddress, key), value) :: log.writes } := by
  obtain ⟨opcode, hat, hact⟩ := (step_act m).ok hround
  rcases eq_or_ne opcode .SSTORE with rfl | hne
  · obtain ⟨-, -, key, value, stack, hstack, rfl⟩ := (ensures_step hat (ensures_sstore m.advance)).ok hround
    exact .inr ⟨key, value, stack, hat, hstack, rfl, StorageLog.round_sstore hat hstack⟩
  · exact .inl ⟨hact.db_eq hne, StorageLog.round_of_ne hat hne⟩

theorem Tracks.round (h : Tracks m log) (hround : Round Levm.step m m') : Tracks m' (log.round m m') := by
  obtain ⟨hdb, hlog⟩ | ⟨key, value, stack, -, -, hdb, hlog⟩ := round_storage log hround <;> rw [hlog]
  · exact ⟨hdb ▸ h.value, hdb ▸ h.absent⟩
  · constructor <;> intro address' key'
    · rw [StorageLog.last_cons, Db.value, hdb, readAccountStorage_write]
      split
      · rfl
      · exact h.value address' key'
    · rw [hdb, readAccountStorage_write]
      split
      · nofun
      · exact h.absent address' key'

theorem Remembers.round (h : Remembers m log) (htracks : Tracks m log) (hzero : CreatesZero m)
    (hround : Round Levm.step m m') : Remembers m' (log.round m m') := by
  obtain ⟨hdb, hlog⟩ | ⟨key, value, stack, hat, hstack, hdb, hlog⟩ := round_storage log hround <;> rw [hlog]
  · exact fun address key slot => hdb ▸ h address key slot
  · intro address' key' slot
    rw [hdb, readAccountStorage_write]
    split
    · rename_i heq
      obtain ⟨rfl, rfl⟩ := Prod.mk.inj heq
      rintro ⟨⟩
      cases hread : m.vm.db.readAccountStorage m.frame.storageAddress key' with
      | none => exact (hzero m' key' value stack hround hat hstack hread).trans (htracks.absent _ _ hread).symm
      | some slot => exact h _ _ slot hread
    · exact h address' key' slot

/-- If the slots remember the values after every round, the round creates no slot with another value. -/
theorem createsZero_of_remembers (htracks : Tracks m log)
    (hnext : ∀ m', Round Levm.step m m' → Remembers m' (log.round m m')) : CreatesZero m := by
  intro m' key value stack hround hat hstack hread
  obtain ⟨hdb, hlog⟩ | ⟨key', value', stack', -, hstack', hdb, hlog⟩ := round_storage log hround
  · rw [StorageLog.round_sstore hat hstack] at hlog
    exact absurd (congrArg StorageLog.writes hlog) (List.cons_ne_self _ _)
  · cases hstack.symm.trans hstack'
    have hslot : m'.vm.db.readAccountStorage m.frame.storageAddress key = some ⟨value, value⟩ := by
      rw [hdb, readAccountStorage_write, if_pos rfl, hread]
      rfl
    have hvalue := hnext m' hround _ _ _ hslot
    rw [hlog] at hvalue
    exact hvalue.trans (htracks.absent _ _ hread)

theorem VM.Logs.tracks {vm : VM} (h : vm.Logs m log) : Tracks m log := by
  induction h with
  | start hframes =>
    refine ⟨fun _ _ => rfl, fun address key habsent => ?_⟩
    exact congrArg (fun slot => Option.elim slot 0 StorageSlot.currentValue) habsent
  | round _ hround ih => exact ih.round hround

/-- The slots always hold the values last stored. They remember the values from before the run exactly if no `SSTORE`
creates a slot with a value that is not zero. -/
theorem storage_remembers_iff {vm : VM} (hdb : ∀ address key slot,
    vm.db.readAccountStorage address key = some slot → slot.originalValue = slot.currentValue) :
    (∀ m log, vm.Logs m log → HoldsLast m log) ∧
    ((∀ m log, vm.Logs m log → Remembers m log) ↔ ∀ m log, vm.Logs m log → CreatesZero m) := by
  refine ⟨fun m log h => ⟨h.tracks.value, fun key stack m' hat hstack hround => ?_⟩, fun hright m log h => ?_,
    fun hzero m log h => ?_⟩
  · rw [← h.tracks.value]
    exact (usesStorage m).sload key stack m' hat hstack hround
  · exact createsZero_of_remembers h.tracks fun m' hround => hright m' _ (.round h hround)
  · induction h with
    | start hframes =>
      intro address key slot hread
      have hvalue : Db.value vm.db address key = slot.currentValue :=
        congrArg (fun slot => Option.elim slot 0 StorageSlot.currentValue) hread
      exact (hdb address key slot hread).trans hvalue.symm
    | round h hround ih => exact ih.round (VM.Logs.tracks h) (hzero _ _ h) hround

end

/-- A program that stores `7` where there is a `5`. -/
def storedVm : VM :=
  { VM.new [0x60, 0x07, 0x5F, 0x55] CallFrame.zeroAddress 0 with
    db := Db.writeAccountStorage ⟨∅, ∅⟩ (Word.toAddress 0) 0 ⟨5, 5⟩ }

attribute [local instance] Keccak256.empty

theorem storage_remembers_iff_storedVm :
    (∀ address key slot, storedVm.db.readAccountStorage address key = some slot →
      slot.originalValue = slot.currentValue) ∧
    (∃ m log, storedVm.Logs m log ∧ HoldsLast m log ∧
      m.vm.db.readAccountStorage (Word.toAddress 0) 0 = some ⟨5, 7⟩ ∧ log.initial.value (Word.toAddress 0) 0 = 5) ∧
    ((∀ m log, storedVm.Logs m log → Remembers m log) ↔ ∀ m log, storedVm.Logs m log → CreatesZero m) := by
  have hdb (address : Address) (key : U256) (slot : StorageSlot)
      (h : storedVm.db.readAccountStorage address key = some slot) : slot.originalValue = slot.currentValue := by
    change (Db.writeAccountStorage ⟨∅, ∅⟩ (Word.toAddress 0) 0 ⟨5, 5⟩).readAccountStorage address key = _ at h
    rw [readAccountStorage_write] at h
    split at h
    · cases h
      rfl
    · cases h
  obtain ⟨hlast, hiff⟩ := storage_remembers_iff hdb
  obtain ⟨m, log, hlogs, hfacts⟩ : ∃ m log, storedVm.Logs m log ∧
      m.vm.db.readAccountStorage (Word.toAddress 0) 0 = some ⟨5, 7⟩ ∧ log.initial.value (Word.toAddress 0) 0 = 5 := by
    refine ⟨_, _, recorded_after rfl 3 ?_, ?_⟩ <;> decide +kernel
  exact ⟨hdb, ⟨m, log, hlogs, hlast m log hlogs, hfacts⟩, hiff⟩

/-- `7` stored in a slot that is not there is also its value from before the run, which was `0`. -/
theorem created_slot_forgets :
    ∃ m log, (sampleVm [0x60, 0x07, 0x5F, 0x55] []).Logs m log ∧
      m.vm.db.readAccountStorage (Word.toAddress 0) 0 = some ⟨7, 7⟩ ∧ log.initial.value (Word.toAddress 0) 0 = 0 := by
  refine ⟨_, _, recorded_after rfl 3 ?_, ?_⟩ <;> decide +kernel

end EthereumRust.Levm
