import Mathlib.Data.List.ReduceOption
import EthereumRust.Core.Genesis

/-! # Fork identifiers: `crates/core/types/fork_id.rs`

The loop compares every activation with the last one it included, which leaves out
repetitions because the activations are ordered, and zero because it starts with zero. -/

namespace EthereumRust.Core
open Rlp List

variable {head : UInt64}

/-! ## CRC-32 -/

/-- `Hasher` of the crate `crc32fast` -/
class Crc32 where
  Hasher : Type
  new : Hasher
  update : Hasher → ByteString → Hasher
  finalize : Hasher → BitVec 32
  update_nil (self : Hasher) : update self [] = self
  update_append (self : Hasher) (xs ys : ByteString) : update self (xs ++ ys) = update (update self xs) ys

open Crc32

def crc32 [Crc32] (bytes : ByteString) : BitVec 32 := finalize (update Crc32.new bytes)

/-! ## Forks of a chain -/

def activationBytes (activation : UInt64) : ByteString := beBytes 8 activation.toNat

def updateChecksumFrom [Crc32] (head lastIncluded : UInt64) (hasher : Hasher) : List UInt64 → UInt64 × Hasher
  | [] => (0, hasher)
  | activation :: rest =>
    if activation ≤ head then
      if activation ≠ lastIncluded then
        updateChecksumFrom head activation (update hasher (activationBytes activation)) rest
      else updateChecksumFrom head lastIncluded hasher rest
    else (activation, hasher)

def updateChecksum [Crc32] (forks : List (Option UInt64)) (hasher : Hasher) (head : UInt64) : UInt64 × Hasher :=
  updateChecksumFrom head 0 hasher forks.reduceOption

abbrev H32 := FixedBytes 4

structure ForkId where
  forkHash : H32
  forkNext : BlockNumber
  deriving DecidableEq

instance : RLPDecode H32 where
  typeName := "ethereum_types::hash::H32"
  decodeUnfinished := decodeFixed 4

instance : RLPEncode ForkId where
  encode self := (Encoder.new.encodeField self.forkHash |>.encodeField self.forkNext).finish

instance : RLPDecode ForkId where
  typeName := "ethereum_rust_core::types::fork_id::ForkId"
  decodeUnfinished rlp := do
    let decoder ← Decoder.new rlp
    let (forkHash, decoder) ← decoder.decodeField H32 "forkHash"
    let (forkNext, decoder) ← decoder.decodeField UInt64 "forkNext"
    let remaining ← decoder.finish
    pure (⟨forkHash, forkNext⟩, remaining)

def forkHashOf (checksum : BitVec 32) : H32 := ⟨beBytes 4 checksum.toNat, length_beBytes _ _⟩

def ForkId.new [Crc32] (chainConfig : ChainConfig) (genesisHash : H256)
    (headTimestamp headBlockNumber : UInt64) : ForkId :=
  let (blockNumberBasedForks, timestampBasedForks) := chainConfig.gatherForks
  let hasher := update Crc32.new genesisHash.1
  let (forkNext, hasher) := updateChecksum blockNumberBasedForks hasher headBlockNumber
  if forkNext > 0 then ⟨forkHashOf (finalize hasher), forkNext⟩
  else
    let (forkNext, hasher) := updateChecksum timestampBasedForks hasher headTimestamp
    ⟨forkHashOf (finalize hasher), forkNext⟩

/-! ## What a head has passed -/

def passed (forks : List (Option UInt64)) (head : UInt64) : List UInt64 :=
  (forks.reduceOption.filter fun activation => activation ≠ 0 ∧ activation ≤ head).eraseDups

def upcoming (forks : List (Option UInt64)) (head : UInt64) : Option UInt64 :=
  forks.reduceOption.find? fun activation => head < activation

namespace ChainConfig

def forksPassed (config : ChainConfig) (timestamp number : UInt64) : List UInt64 :=
  passed config.gatherForks.1 number ++
    if upcoming config.gatherForks.1 number = none then passed config.gatherForks.2 timestamp else []

def nextFork (config : ChainConfig) (timestamp number : UInt64) : UInt64 :=
  ((upcoming config.gatherForks.1 number).or (upcoming config.gatherForks.2 timestamp)).getD 0

def checksummed (config : ChainConfig) (genesisHash : H256) (timestamp number : UInt64) : ByteString :=
  genesisHash.1 ++ (config.forksPassed timestamp number).flatMap activationBytes

end ChainConfig

/-- Every activation included last is at most those to come, so comparing with it is enough. -/
theorem updateChecksumFrom_eq [Crc32] {last hasher forks}
    (hsorted : (last :: forks).Pairwise (· ≤ ·)) : updateChecksumFrom head last hasher forks =
      ((forks.find? fun a => head < a).getD 0,
        update hasher ((forks.filter fun a => a ≠ last ∧ a ≤ head).eraseDups.flatMap activationBytes)) := by
  induction forks generalizing last hasher with
  | nil => exact congrArg (Prod.mk 0) (update_nil hasher).symm
  | cons a rest ih =>
    obtain ⟨hlast, htail⟩ := pairwise_cons.mp hsorted
    obtain ⟨hrest, hsuffix⟩ := pairwise_cons.mp htail
    have hlast_a : last ≤ a := hlast a mem_cons_self
    rw [updateChecksumFrom]
    by_cases hle : a ≤ head
    · have hnext : ¬ head < a := UInt64.not_lt.mpr hle
      rw [if_pos hle, List.find?_cons_of_neg (by simpa using hnext)]
      by_cases hne : a = last
      · subst hne
        rw [if_neg (not_not_intro rfl), ih htail, filter_cons_of_neg (by simp)]
      · -- what is to come is not below `a`, so it differs from `last`
        have hfilter : ((rest.filter fun b => b ≠ last ∧ b ≤ head).filter fun b => !b == a) =
            rest.filter fun b => b ≠ a ∧ b ≤ head := by
          rw [filter_filter]
          refine filter_congr fun b hb => ?_
          have hb' : b ≠ last := by
            rintro rfl
            exact hne (UInt64.le_antisymm (hrest b hb) hlast_a)
          simp [hb', Bool.beq_eq_decide_eq]
        rw [if_pos hne, ih htail, filter_cons_of_pos (by simp [hne, hle]), eraseDups_cons, hfilter,
          flatMap_cons, update_append]
    · have hlt : head < a := UInt64.not_le.mp hle
      have hnone : (a :: rest).filter (fun b => b ≠ last ∧ b ≤ head) = [] := by
        refine filter_eq_nil_iff.mpr fun b hb => ?_
        have hb' : ¬ b ≤ head := by
          rcases mem_cons.mp hb with rfl | hb
          · exact hle
          · exact fun h => hle (UInt64.le_trans (hrest b hb) h)
        simp [hb']
      rw [if_neg hle, List.find?_cons_of_pos (by simpa using hlt), hnone]
      exact congrArg (Prod.mk a) (update_nil hasher).symm

theorem updateChecksum_eq [Crc32] (hsorted : forks.reduceOption.Pairwise (· ≤ ·))
    (hasher : Hasher) (head : UInt64) : updateChecksum forks hasher head =
      ((upcoming forks head).getD 0, update hasher ((passed forks head).flatMap activationBytes)) :=
  updateChecksumFrom_eq (pairwise_cons.mpr ⟨fun _ _ => UInt64.zero_le, hsorted⟩)

theorem mem_passed :
    a ∈ passed forks head ↔ a ∈ forks.reduceOption ∧ a ≠ 0 ∧ a ≤ head := by
  rw [passed, mem_eraseDups, mem_filter, decide_eq_true_eq]

theorem upcoming_eq_none :
    upcoming forks head = none ↔ ∀ a ∈ forks.reduceOption, a ≤ head := by
  rw [upcoming, List.find?_eq_none]
  exact forall₂_congr fun a _ => by simp [UInt64.not_lt]

theorem lt_of_upcoming (h : upcoming forks head = some a) : head < a := by
  have hfound := List.find?_some (p := fun a => decide (head < a)) h
  exact of_decide_eq_true hfound

theorem ForkId.new_eq [Crc32] {config : ChainConfig} (hblocks : config.gatherForks.1.reduceOption.Pairwise (· ≤ ·))
    (htimes : config.gatherForks.2.reduceOption.Pairwise (· ≤ ·)) (genesisHash : H256) (timestamp number : UInt64) :
    ForkId.new config genesisHash timestamp number =
      ⟨forkHashOf (crc32 (config.checksummed genesisHash timestamp number)), config.nextFork timestamp number⟩ := by
  rw [ForkId.new, ChainConfig.checksummed, ChainConfig.forksPassed, ChainConfig.nextFork]
  simp only [updateChecksum_eq hblocks, updateChecksum_eq htimes, crc32, update_append, flatMap_append]
  cases hnext : upcoming config.gatherForks.1 number with
  | none => simp
  | some a =>
    have hpos : 0 < a := UInt64.lt_of_le_of_lt UInt64.zero_le (lt_of_upcoming hnext)
    simp [hpos, update_nil]

/-! ## Equal identifiers -/

theorem le_iff_of_passed_eq
    (h : passed forks head = passed forks head') (ha : a ∈ forks.reduceOption) : a ≤ head ↔ a ≤ head' := by
  rcases eq_or_ne a 0 with rfl | hne
  · exact iff_of_true UInt64.zero_le UInt64.zero_le
  · have hmem : a ∈ passed forks head ↔ a ∈ passed forks head' := by rw [h]
    simpa [mem_passed, ha, hne] using hmem

theorem upcoming_eq_of_passed_eq
    (h : passed forks head = passed forks head') : upcoming forks head = upcoming forks head' := by
  unfold upcoming
  rw [← List.head?_filter, ← List.head?_filter]
  refine congrArg List.head? (filter_congr fun a ha => decide_eq_decide.mpr ?_)
  rw [← UInt64.not_le, ← UInt64.not_le, le_iff_of_passed_eq h ha]

theorem passed_eq_of_upcoming_none (h : upcoming forks head = none)
    (h' : upcoming forks head' = none) : passed forks head = passed forks head' := by
  refine congrArg List.eraseDups (filter_congr fun a ha => ?_)
  simp [upcoming_eq_none.mp h a ha, upcoming_eq_none.mp h' a ha]

namespace ChainConfig

variable {config : ChainConfig}

/-- A head before some fork by block number has not passed the same forks as one behind all of them. -/
theorem forksPassed_ne (h : upcoming config.gatherForks.1 number = none)
    (h' : upcoming config.gatherForks.1 number' = some a) :
    config.forksPassed timestamp number ≠ config.forksPassed timestamp' number' := by
  intro heq
  have hlt := lt_of_upcoming h'
  have ha := mem_of_find?_eq_some h'
  have hne : a ≠ 0 := by
    rintro rfl
    exact absurd hlt (UInt64.not_lt.mpr UInt64.zero_le)
  have hmem : a ∈ config.forksPassed timestamp' number' := by
    rw [← heq]
    exact mem_append_left _ (mem_passed.mpr ⟨ha, hne, upcoming_eq_none.mp h a ha⟩)
  rw [forksPassed, if_neg (by rw [h']; nofun), append_nil] at hmem
  exact UInt64.not_le.mpr hlt (mem_passed.mp hmem).2.2

theorem nextFork_eq_of_forksPassed_eq
    (h : config.forksPassed timestamp number = config.forksPassed timestamp' number') :
    config.nextFork timestamp number = config.nextFork timestamp' number' := by
  cases hnext : upcoming config.gatherForks.1 number with
  | none =>
    cases hnext' : upcoming config.gatherForks.1 number' with
    | none =>
      rw [forksPassed, forksPassed, if_pos hnext, if_pos hnext', passed_eq_of_upcoming_none hnext hnext'] at h
      rw [nextFork, nextFork, hnext, hnext', upcoming_eq_of_passed_eq (append_cancel_left h)]
    | some a => exact absurd h (forksPassed_ne hnext hnext')
  | some a =>
    cases hnext' : upcoming config.gatherForks.1 number' with
    | none => exact absurd h.symm (forksPassed_ne hnext' hnext)
    | some a' =>
      rw [forksPassed, forksPassed, if_neg (by rw [hnext]; nofun), if_neg (by rw [hnext']; nofun), append_nil,
        append_nil] at h
      rw [nextFork, nextFork, ← upcoming_eq_of_passed_eq h, hnext]
      rfl

end ChainConfig

theorem activationBytes_injective : Function.Injective activationBytes := by
  intro a b h
  have hnat := congrArg beNat h
  rw [activationBytes, activationBytes, beNat_beBytes, beNat_beBytes] at hnat
  have ha := a.toNat_lt
  have hb := b.toNat_lt
  exact UInt64.toNat_inj.mp (by omega)

theorem flatMap_activationBytes_injective : Function.Injective (List.flatMap activationBytes) := by
  intro xs
  have hlen (a : UInt64) : (activationBytes a).length = 8 := length_beBytes _ _
  induction xs with
  | nil =>
    rintro (_ | ⟨b, ys⟩) h
    · rfl
    · have := congrArg List.length h
      simp [hlen] at this
      omega
  | cons a xs ih =>
    rintro (_ | ⟨b, ys⟩) h
    · have := congrArg List.length h
      simp [hlen] at this
    · obtain ⟨hhead, htail⟩ := append_inj h (by rw [hlen, hlen])
      rw [activationBytes_injective hhead, ih htail]

theorem forkHashOf_injective : Function.Injective forkHashOf := by
  intro a b h
  have hnat := congrArg (fun bytes : H32 => beNat bytes.1) h
  simp only [forkHashOf, beNat_beBytes] at hnat
  exact BitVec.toNat_inj.mp (by omega)

/-- The identifier is that of the proposal; two heads have the same one exactly if they have passed the same forks,
unless their checksums collide. -/
theorem fork_id_spec [Crc32] {config : ChainConfig} (hblocks : config.gatherForks.1.reduceOption.Pairwise (· ≤ ·))
    (htimes : config.gatherForks.2.reduceOption.Pairwise (· ≤ ·)) (genesisHash : H256) :
    (∀ timestamp number, ForkId.new config genesisHash timestamp number =
      ⟨forkHashOf (crc32 (config.checksummed genesisHash timestamp number)), config.nextFork timestamp number⟩) ∧
    ∀ timestamp number timestamp' number',
      (crc32 (config.checksummed genesisHash timestamp number) =
        crc32 (config.checksummed genesisHash timestamp' number') →
        config.checksummed genesisHash timestamp number = config.checksummed genesisHash timestamp' number') →
      (ForkId.new config genesisHash timestamp number = ForkId.new config genesisHash timestamp' number' ↔
        config.forksPassed timestamp number = config.forksPassed timestamp' number') := by
  have hnew := ForkId.new_eq hblocks htimes genesisHash
  refine ⟨hnew, fun timestamp number timestamp' number' hcollision => ?_⟩
  rw [hnew, hnew]
  constructor
  · intro heq
    have hcrc := forkHashOf_injective (congrArg ForkId.forkHash heq)
    exact flatMap_activationBytes_injective (List.append_cancel_left (hcollision hcrc))
  · intro heq
    rw [ChainConfig.checksummed, ChainConfig.checksummed, heq, ChainConfig.nextFork_eq_of_forksPassed_eq heq]

/-- Division of a bit by the reflected polynomial. -/
def crcShift (state : BitVec 32) : BitVec 32 :=
  if state.getLsbD 0 then (state >>> 1) ^^^ 0xEDB88320 else state >>> 1

@[reducible] def Crc32.bitwise : Crc32 where
  Hasher := BitVec 32
  new := BitVec.allOnes 32
  update := foldl fun state byte => Nat.iterate crcShift 8 (state ^^^ byte.toBitVec.setWidth 32)
  finalize state := ~~~state
  update_nil _ := rfl
  update_append _ _ _ := foldl_append

/-- The check value of the polynomial: the checksum of the digits from one to nine. -/
example : @crc32 .bitwise [0x31, 0x32, 0x33, 0x34, 0x35, 0x36, 0x37, 0x38, 0x39] = 0xCBF43926 := by decide +kernel

def sampleForks : ChainConfig where
  chainId := 1
  homesteadBlock := some 0
  daoForkBlock := some 7
  eip150Block := some 1150000
  eip155Block := some 2675000
  eip158Block := some 2675000
  shanghaiTime := some 1681338455

theorem fork_id_spec_sampleForks :
    letI := Crc32.bitwise
    (sampleForks.gatherForks.1.reduceOption.Pairwise (· ≤ ·) ∧
      sampleForks.gatherForks.2.reduceOption.Pairwise (· ≤ ·)) ∧
    sampleForks.forksPassed 0 2675000 = [1150000, 2675000] ∧ sampleForks.nextFork 0 2675000 = 1681338455 ∧
    ForkId.new sampleForks (H256.ofNat 0) 0 2675000 =
      ⟨forkHashOf (crc32 (sampleForks.checksummed (H256.ofNat 0) 0 2675000)), sampleForks.nextFork 0 2675000⟩ := by
  let := Crc32.bitwise
  have hblocks : sampleForks.gatherForks.1.reduceOption.Pairwise (· ≤ ·) := by decide
  have htimes : sampleForks.gatherForks.2.reduceOption.Pairwise (· ≤ ·) := by decide
  exact ⟨⟨hblocks, htimes⟩, by decide, by decide, (fork_id_spec hblocks htimes (H256.ofNat 0)).1 0 2675000⟩

end EthereumRust.Core
