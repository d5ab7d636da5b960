import EthereumRust.Levm.Calls

/-! # Word instructions and the integers

What the instructions should push is said in unbounded integers, as the Yellow Paper
does. The negation that `SDIV` and `SMOD` use panics at zero, `SMOD` takes the sign of
the quotient, and `ADDMOD` corrects a sum that wrapped by one divisor only. -/

namespace EthereumRust.Levm
open BitVec Nat GasCost Word

open Rlp (U256)
open Mpt (Keccak256)
open Exec (Flow)

/-! ## The words to push -/

namespace YellowPaper

def sdiv (a b : U256) : U256 := if b = 0 then 0 else BitVec.ofInt 256 (a.toInt.tdiv b.toInt)

def smod (a b : U256) : U256 := if b = 0 then 0 else BitVec.ofInt 256 (a.toInt.tmod b.toInt)

def addmod (a b n : U256) : U256 := if n = 0 then 0 else BitVec.ofNat 256 ((a.toNat + b.toNat) % n.toNat)

def mulmod (a b n : U256) : U256 := if n = 0 then 0 else BitVec.ofNat 256 (a.toNat * b.toNat % n.toNat)

/-- The lowest `k + 1` bytes, read with a sign. -/
def signextend (k x : U256) : U256 :=
  if 31 ≤ k.toNat then x else BitVec.ofInt 256 (Int.bmod x.toNat (2 ^ (8 * (k.toNat + 1))))

def shl (shift x : U256) : U256 := BitVec.ofNat 256 (x.toNat * 2 ^ shift.toNat)

def shr (shift x : U256) : U256 := BitVec.ofNat 256 (x.toNat / 2 ^ shift.toNat)

/-- The integer quotient is rounded down. -/
def sar (shift x : U256) : U256 := BitVec.ofInt 256 (x.toInt / 2 ^ shift.toNat)

/-- The byte at an index counted from the most significant one. -/
def byte (i x : U256) : U256 :=
  if i.toNat < 32 then BitVec.ofNat 256 (x.toNat / 256 ^ (31 - i.toNat) % 256) else 0

def slt (a b : U256) : U256 := if a.toInt < b.toInt then 1 else 0

def sgt (a b : U256) : U256 := if a.toInt > b.toInt then 1 else 0

end YellowPaper

namespace Word

variable {ε : Type} {b n : U256}

/-! ## Signed division -/

theorem isNegative_eq (a : U256) : isNegative a = a.msb := (msb_eq_getLsbD_last a).symm

/-- Zero has no negation: the sum overflows. -/
theorem negate_eq (a : U256) : (negate a : Outcome ε U256) =
    if a = 0 then Outcome.panic "arithmetic operation overflow" else .ok (-a) := by
  have hiff : (~~~a).toNat + (1 : U256).toNat < 2 ^ 256 ↔ ¬ a = 0 := by
    rw [toNat_not, ← toNat_inj, show (1 : U256).toNat = 1 from rfl, show (0 : U256).toNat = 0 from rfl]
    omega
  have hneg : ~~~a + 1 = -a := (neg_eq_not_add a).symm
  simp only [negate, add, hiff, hneg, ite_not]

theorem magnitude_eq (a : U256) : (magnitude a : Outcome ε U256) = .ok a.abs := by
  rw [magnitude, isNegative_eq, negate_eq, BitVec.abs]
  cases h : a.msb with
  | false => rfl
  | true =>
    have hne : a ≠ 0 := fun hzero => by simp [hzero] at h
    exact if_neg hne

theorem abs_toNat (a : U256) : a.abs.toNat = a.toInt.natAbs := by
  rw [toNat_abs, toInt_eq_msb_cond]
  split <;> omega

theorem abs_ne_zero (hb : b ≠ 0) : 0 < b.abs.toNat := by
  rw [abs_toNat, Int.natAbs_pos, ← toInt_zero (w := 256), Ne, toInt_inj]
  exact hb

theorem sdiv_abs (a b : U256) : a.sdiv b = if a.msb ^^ b.msb then -(a.abs / b.abs) else a.abs / b.abs := by
  cases ha : a.msb <;> cases hb : b.msb <;> simp [BitVec.sdiv, BitVec.abs, ha, hb]

theorem srem_abs (a b : U256) : a.srem b = if a.msb then -(a.abs % b.abs) else a.abs % b.abs := by
  cases ha : a.msb <;> cases hb : b.msb <;> simp [BitVec.srem, BitVec.abs, ha, hb]

theorem yellowPaper_sdiv (hb : b ≠ 0) : YellowPaper.sdiv a b = a.sdiv b := by
  rw [YellowPaper.sdiv, if_neg hb, ← toInt_inj, toInt_sdiv, toInt_ofInt]

theorem yellowPaper_smod (hb : b ≠ 0) : YellowPaper.smod a b = a.srem b := by
  rw [YellowPaper.smod, if_neg hb, ← toInt_srem, ofInt_toInt]

theorem signed_eq (negative : Bool) (value word : U256) :
    ((if negative then negate value else pure value : Outcome ε U256) = .ok word) ↔
      (if negative then value ≠ 0 ∧ -value = word else value = word) := by
  cases negative
  · exact ⟨fun h => Except.ok.inj h, fun h => congrArg Except.ok h⟩
  · simp only [if_true, negate_eq]
    split
    · rename_i h
      exact ⟨nofun, fun hne => absurd h hne.1⟩
    · rename_i h
      exact ⟨fun hok => ⟨h, Except.ok.inj hok⟩, fun hok => congrArg Except.ok hok.2⟩

theorem signedDiv_iff (hb : b ≠ 0) : (signedDiv a b : Outcome ε U256) = .ok (YellowPaper.sdiv a b) ↔
    ((a.toInt < 0 ↔ b.toInt < 0) ∨ b.toInt.natAbs ≤ a.toInt.natAbs) := by
  have hzero : a.abs / b.abs ≠ 0 ↔ b.toInt.natAbs ≤ a.toInt.natAbs := by
    rw [← abs_toNat, ← abs_toNat, Ne, ← toNat_inj, toNat_udiv, show (0 : U256).toNat = 0 from rfl,
      Nat.div_eq_zero_iff]
    have := abs_ne_zero hb
    omega
  rw [yellowPaper_sdiv hb, sdiv_abs, signedDiv, magnitude_eq, Outcome.bind_ok, magnitude_eq, Outcome.bind_ok]
  dsimp only
  rw [signed_eq, isNegative_eq, isNegative_eq, ← hzero, msb_eq_toInt, msb_eq_toInt]
  by_cases ha : a.toInt < 0 <;> by_cases hb' : b.toInt < 0 <;> simp [ha, hb']

/-- A word below half the range differs from its negation unless it is zero. -/
theorem neg_eq_self_iff {r : U256} (hr : r.toNat < 2 ^ 255) : -r = r ↔ r = 0 := by
  rw [← toNat_inj, ← toNat_inj, toNat_neg, show (0 : U256).toNat = 0 from rfl]
  omega

theorem signedMod_iff (hb : b ≠ 0) : (signedMod a b : Outcome ε U256) = .ok (YellowPaper.smod a b) ↔
    if a.toInt < 0 then (b.toInt < 0 ↔ b.toInt ∣ a.toInt) else 0 ≤ b.toInt := by
  have hpos := abs_ne_zero hb
  have hzero : a.abs % b.abs = 0 ↔ b.toInt ∣ a.toInt := by
    rw [← Int.natAbs_dvd_natAbs, ← abs_toNat, ← abs_toNat, ← toNat_inj, toNat_umod,
      show (0 : U256).toNat = 0 from rfl, dvd_iff_mod_eq_zero]
  have hself : -(a.abs % b.abs) = a.abs % b.abs ↔ a.abs % b.abs = 0 := by
    refine neg_eq_self_iff ?_
    have hlt := mod_lt a.abs.toNat hpos
    rw [toNat_umod]
    rw [abs_toNat b, toInt_eq_msb_cond] at hlt ⊢
    have hmsb := msb_eq_decide b
    split at hlt <;> simp_all <;> omega
  rw [yellowPaper_smod hb, srem_abs, signedMod, magnitude_eq, Outcome.bind_ok, magnitude_eq, Outcome.bind_ok]
  dsimp only
  rw [signed_eq, isNegative_eq, isNegative_eq, ← hzero, msb_eq_toInt, msb_eq_toInt]
  by_cases ha : a.toInt < 0 <;> by_cases hb' : b.toInt < 0 <;>
    simp only [ha, hb', decide_true, decide_false, Bool.xor_self, Bool.xor_false,
      Bool.false_eq_true, if_true, if_false, true_iff, false_iff, and_true]
  · rw [eq_comm, hself]
  · exact iff_of_false (fun h => h.1 (hself.mp h.2)) (by omega)
  · exact Int.not_lt.mp hb'

/-! ## Modular arithmetic -/

theorem mod_lt_word (hn : n ≠ 0) : x % n.toNat < n.toNat := by
  refine mod_lt x (pos_of_ne_zero fun h => hn ?_)
  exact toNat_inj.mp h

theorem addMod_iff (hn : n ≠ 0) : addMod a b n = YellowPaper.addmod a b n ↔
    (2 ^ 256 ≤ a.toNat + b.toNat → (a.toNat + b.toNat - 2 ^ 256) % n.toNat + 2 ^ 256 < 2 * n.toNat) := by
  have hnlt := n.isLt
  have hspec := mod_lt_word (x := a.toNat + b.toNat) hn
  have hsum : ((a + b) % n).toNat = (a.toNat + b.toNat) % 2 ^ 256 % n.toNat := by
    rw [toNat_umod, toNat_add]
  have hrem := mod_lt_word (x := (a.toNat + b.toNat) % 2 ^ 256) hn
  have hsmall : ¬ (a + b) % n > n := by
    rw [gt_iff_lt, lt_def, hsum]
    omega
  rw [addMod, YellowPaper.addmod, if_neg hn, ← toNat_inj, toNat_ofNat,
    mod_eq_of_lt (hspec.trans hnlt)]
  simp only [hsmall, or_false]
  by_cases hover : 2 ^ 256 ≤ a.toNat + b.toNat
  · have hwrap : (a.toNat + b.toNat) % 2 ^ 256 = a.toNat + b.toNat - 2 ^ 256 := by omega
    rw [hwrap] at hsum hrem
    have hvalue : ((a + b) % n - n).toNat = (a.toNat + b.toNat - 2 ^ 256) % n.toNat + 2 ^ 256 - n.toNat := by
      rw [toNat_sub, hsum]
      omega
    -- the difference has the right remainder, so it is right if it is below the divisor
    have hmod : ((a.toNat + b.toNat - 2 ^ 256) % n.toNat + 2 ^ 256 - n.toNat) % n.toNat =
        (a.toNat + b.toNat) % n.toNat := by
      rw [← Nat.mod_eq_sub_mod (by omega), Nat.mod_add_mod, Nat.sub_add_cancel hover]
    rw [if_pos hover, hvalue]
    constructor
    · intro heq _
      omega
    · intro hlt
      exact (mod_eq_of_lt (by omega)).symm.trans hmod
  · rw [if_neg hover, hsum, Nat.mod_eq_of_lt (Nat.lt_of_not_le hover)]
    exact iff_of_true rfl fun h => absurd h hover

/-- The product fits into 512 bits. -/
theorem mulMod_eq (hn : n ≠ 0) : mulMod a b n = YellowPaper.mulmod a b n := by
  have hprod : a.toNat * b.toNat < 2 ^ 512 := by
    rw [show 512 = 256 + 256 from rfl, pow_add]
    exact mul_lt_mul'' a.isLt b.isLt
  have hlt := mod_lt_word (x := a.toNat * b.toNat) hn
  have hwide (x : U256) : (x.setWidth 512).toNat = x.toNat := toNat_setWidth_of_le (by decide)
  have hrem : (a.setWidth 512 * b.setWidth 512 % n.setWidth 512).toNat = a.toNat * b.toNat % n.toNat := by
    rw [toNat_umod, toNat_mul, hwide, hwide, hwide, mod_eq_of_lt hprod]
  have hplain : ¬ (2 ^ 512 ≤ a.toNat * b.toNat ∨
      a.setWidth 512 * b.setWidth 512 % n.setWidth 512 > n.setWidth 512) := by
    rw [gt_iff_lt, lt_def, hrem, hwide]
    omega
  rw [mulMod, YellowPaper.mulmod, if_neg hn]
  simp only [hwide]
  rw [if_neg hplain, ← toNat_inj, toNat_setWidth, hrem, toNat_ofNat]

/-! ## Shifts, bytes and comparisons -/

variable (shift x : U256)

theorem shiftLeft_eq : shiftLeft shift x = YellowPaper.shl shift x := by
  rw [shiftLeft, YellowPaper.shl]
  split
  · rw [← toNat_inj, toNat_shiftLeft, toNat_ofNat, Nat.shiftLeft_eq]
  · rename_i h
    obtain ⟨k, hk⟩ : ∃ k, shift.toNat = k + 256 := Nat.exists_eq_add_of_le' (Nat.le_of_not_lt h)
    rw [← toNat_inj, toNat_ofNat, hk, pow_add, ← mul_assoc, mul_mod_left]
    rfl

theorem shiftRight_eq : shiftRight shift x = YellowPaper.shr shift x := by
  have hx := x.isLt
  rw [shiftRight, YellowPaper.shr, ← toNat_inj, toNat_ofNat, mod_eq_of_lt
    ((div_le_self _ _).trans_lt hx)]
  split
  · rw [toNat_ushiftRight, shiftRight_eq_div_pow]
  · rename_i h
    refine (div_eq_of_lt (hx.trans_le ?_)).symm
    exact Nat.pow_le_pow_right (by decide) (Nat.le_of_not_lt h)

theorem sshiftRight_eq (n : Nat) : BitVec.ofInt 256 (x.toInt / 2 ^ n) = x.sshiftRight n := by
  rw [← ofInt_toInt (x := x.sshiftRight n), toInt_sshiftRight, Int.shiftRight_eq_div_pow]
  norm_cast

theorem signedShiftRight_eq : signedShiftRight shift x = YellowPaper.sar shift x := by
  rw [YellowPaper.sar, sshiftRight_eq, signedShiftRight]
  unfold arithmeticShiftRight
  refine eq_of_getLsbD_eq fun i hi => ?_
  rw [getLsbD_sshiftRight, ← isNegative_eq, isNegative, decide_eq_false (by omega : ¬ 256 ≤ i), Bool.not_false,
    Bool.true_and]
  cases hsign : bit x 255 <;> simp only [Bool.false_eq_true, if_false, if_true]
  · split
    · rw [getLsbD_ushiftRight]
      split
      · rfl
      · exact getLsbD_of_ge _ _ (by omega)
    · rename_i h
      have hshift : 256 ≤ shift.toNat := Nat.le_of_not_lt h
      rw [if_neg (by omega)]
      exact getLsbD_zero
  · split
    · rename_i h
      rw [getLsbD_or, getLsbD_shiftLeft, getLsbD_allOnes]
      by_cases hin : shift.toNat + i < 256
      · simp [hin, hi, show i < 256 - shift.toNat by omega]
      · simp [hin, hi, show ¬ i < 256 - shift.toNat by omega, show i - (256 - shift.toNat) < 256 by omega]
    · rename_i h
      have hshift : 256 ≤ shift.toNat := Nat.le_of_not_lt h
      rw [if_neg (by omega), getLsbD_allOnes, decide_eq_true hi]

theorem byteAt_eq (i x : U256) : byteAt i x = YellowPaper.byte i x := by
  refine if_congr Iff.rfl ?_ rfl
  rw [byte, ← toNat_inj, toNat_and, toNat_ushiftRight,
    shiftRight_eq_div_pow, pow_mul, show (0xFF : U256).toNat = 2 ^ 8 - 1 from rfl,
      and_two_pow_sub_one_eq_mod]
  exact (mod_eq_of_lt ((mod_lt _ (by decide)).trans (by decide))).symm

theorem getLsbD_mask {n} (hn : n < 256) (i : Nat) : (((1 : U256) <<< n) - 1).getLsbD i = decide (i < n) := by
  have hone : ((1 : U256) <<< n).toNat = 2 ^ n := by
    rw [toNat_shiftLeft, Nat.shiftLeft_eq, Nat.mod_eq_of_lt]
    · exact one_mul _
    · exact (Nat.one_mul _).symm ▸ Nat.pow_lt_pow_right (by decide) hn
  have hmask : (((1 : U256) <<< n) - 1).toNat = 2 ^ n - 1 := by
    have hpos := Nat.one_le_two_pow (n := n)
    rw [toNat_sub_of_le, hone]
    · rfl
    · rw [le_def, hone]
      exact hpos
  rw [BitVec.getLsbD, hmask, testBit_two_pow_sub_one]

theorem getLsbD_signExtend (k x : U256) {i} (hi : i < 256) :
    (signExtend k x).getLsbD i = x.getLsbD (min i (8 * min k.toNat 31 + 7)) := by
  have hsize : (if k ≤ 31 then k else (31 : U256)).toNat = min k.toNat 31 := by
    split
    · rename_i h
      exact (min_eq_left h).symm
    · rename_i h
      exact (Nat.min_eq_right (Nat.le_of_not_le h)).symm
  rw [signExtend]
  simp only [hsize]
  have hlast : 8 * min k.toNat 31 + 7 < 256 := by omega
  generalize 8 * min k.toNat 31 + 7 = last at hlast
  cases hsign : bit x last <;> rw [bit] at hsign <;> by_cases h : i < last
  all_goals simp only [Bool.false_eq_true, if_false, if_true, getLsbD_and, getLsbD_or, getLsbD_not,
    getLsbD_mask hlast, h, hi, decide_true, decide_false, Bool.and_true, Bool.and_false, Bool.not_true, Bool.not_false,
    Bool.or_false, Bool.or_true]
  · rw [min_eq_left (by omega)]
  · rw [min_eq_right (by omega), hsign]
  · rw [min_eq_left (by omega)]
  · rw [min_eq_right (by omega), hsign]

theorem signExtend_eq (k x : U256) : signExtend k x = YellowPaper.signextend k x := by
  refine eq_of_getLsbD_eq fun i hi => ?_
  rw [getLsbD_signExtend k x hi, YellowPaper.signextend]
  split
  · congr 1
    omega
  · have hbits : 8 * (k.toNat + 1) ≤ 256 := by omega
    rw [← BitVec.toInt_setWidth, ← BitVec.toInt_signExtend_of_le hbits, BitVec.ofInt_toInt, BitVec.getLsbD_signExtend,
      decide_eq_true hi, Bool.true_and, msb_setWidth]
    split
    · rw [getLsbD_setWidth, decide_eq_true ‹_›, Bool.true_and, Nat.min_eq_left (by omega)]
    · rw [Nat.min_eq_right (by omega), Nat.min_eq_left (by omega)]
      simp [Nat.mul_add]

theorem signedLt_eq (a b : U256) : signedLt a b = decide (a.toInt < b.toInt) := by
  have hmsb (x : U256) : bit x 255 = x.msb := isNegative_eq x
  rw [signedLt, hmsb, hmsb, toInt_eq_msb_cond, toInt_eq_msb_cond]
  cases hma : a.msb <;> cases hmb : b.msb <;> simp_all [lt_def] <;> omega

theorem signedGt_eq (a b : U256) : signedGt a b = decide (b.toInt < a.toInt) := by
  rw [← signedLt_eq, signedGt, signedLt]
  simp only [eq_comm]

theorem ofBool_signedLt (a b : U256) : ofBool (signedLt a b) = YellowPaper.slt a b := by
  rw [ofBool, signedLt_eq, YellowPaper.slt]
  simp

theorem ofBool_signedGt (a b : U256) : ofBool (signedGt a b) = YellowPaper.sgt a b := by
  rw [ofBool, signedGt_eq, YellowPaper.sgt]
  simp

end Word

/-! ## The instructions -/

def Pushes (instruction : Levm Flow) (m : Machine) (operands : Nat) (word : U256) : Prop :=
  (instruction m).1 = .ok .next ∧ (instruction m).2.frame.stack = word :: m.frame.stack.drop operands

instance (instruction : Levm Flow) (m : Machine) (operands : Nat) (word : U256) :
    Decidable (Pushes instruction m operands word) :=
  inferInstanceAs (Decidable (_ ∧ _))

section

variable {m : Machine} {a b n word : U256} {stack : List U256} {cost : Nat}

theorem metered_run (hafford : m.Affords cost) (hbody : body m = (.ok (), r))
    (hsame : r.txEnv = m.txEnv) : metered cost body m = (.ok .next, r.charged cost) := by
  have hfits : r.txEnv.consumedGas + cost < Rust.wordSize := hsame ▸ hafford.fits
  rw [metered, Exec.run_bind_ok (exceeds_run hafford), if_neg Bool.false_ne_true, Exec.run_bind_ok hbody,
    Exec.run_bind_ok (charge_run hfits)]
  rfl

theorem binary_run (f : U256 → U256 → U256) (hstack : m.frame.stack = a :: b :: stack) (hafford : m.Affords cost) :
    binary cost f m = (.ok .next, (m.withStack (f a b :: stack)).charged cost) := by
  refine metered_run (r := m.withStack (f a b :: stack)) hafford ?_ rfl
  rw [Exec.run_bind_ok (pop_run hstack)]
  rfl

theorem push_charge_run (hfits : m.txEnv.consumedGas + cost < Rust.wordSize) :
    (do push w; charge cost; pure Flow.next : Levm Flow) m =
      (.ok .next, (m.withStack (w :: m.frame.stack)).charged cost) := by
  have hpush : push w m = (.ok (), m.withStack (w :: m.frame.stack)) := rfl
  have hcharge := charge_run (m := m.withStack (w :: m.frame.stack)) hfits
  rw [Exec.run_bind_ok hpush, Exec.run_bind_ok hcharge]
  rfl

theorem dividing_pushes_iff (f : U256 → U256 → Outcome Empty U256) (hstack : m.frame.stack = a :: b :: stack)
    (hafford : m.Affords cost) :
    Pushes (dividing cost f) m 2 word ↔ if b = 0 then 0 = word else f a b = .ok word := by
  have hpop : pop (m.withStack (b :: stack)) = (.ok b, m.withStack stack) := pop_run rfl
  rw [Pushes, dividing, Exec.run_bind_ok (exceeds_run hafford), if_neg Bool.false_ne_true,
    Exec.run_bind_ok (pop_run hstack), Exec.run_bind_ok hpop, hstack]
  split
  · exact ⟨fun h => (List.cons.inj h.2).1, fun h => ⟨rfl, congrArg (· :: stack) h⟩⟩
  · cases f a b with
    | error e => exact iff_of_false (fun h => nomatch h.1) nofun
    | ok value =>
      have hcharge := push_charge_run (m := m.withStack stack) (w := value) hafford.fits
      rw [Exec.run_bind_ok (rfl : (checked (.ok value) : Levm _) _ = (.ok value, m.withStack stack)), hcharge]
      exact ⟨fun h => congrArg Except.ok (List.cons.inj h.2).1,
        fun h => ⟨rfl, congrArg (· :: stack) (Except.ok.inj h)⟩⟩

theorem modular_run (f : U256 → U256 → U256 → U256) (hstack : m.frame.stack = a :: b :: n :: stack)
    (hafford : m.Affords cost) : modular cost f m = (.ok .next,
      if n = 0 then m.withStack (0 :: stack) else (m.withStack (f a b n :: stack)).charged cost) := by
  rw [modular, Exec.run_bind_ok (exceeds_run hafford), if_neg Bool.false_ne_true, Exec.run_bind_ok (pop_run hstack),
    Exec.run_bind_ok (pop_run rfl), Exec.run_bind_ok (pop_run rfl)]
  split
  · rfl
  · exact push_charge_run hafford.fits

theorem modular_pushes_iff (f : U256 → U256 → U256 → U256) (hstack : m.frame.stack = a :: b :: n :: stack)
    (hafford : m.Affords cost) : Pushes (modular cost f) m 3 word ↔ (if n = 0 then 0 else f a b n) = word := by
  rw [Pushes, modular_run f hstack hafford, hstack]
  split <;> exact ⟨fun h => (List.cons.inj h.2).1, fun h => ⟨rfl, congrArg (· :: stack) h⟩⟩

/-- `SDIV` is right unless the quotient of words of different signs is zero; `SMOD` is right if the divisor is positive
and so is the dividend, or both are negative and nothing remains of it. -/
theorem sdiv_smod_iff [Keccak256] (hstack : m.frame.stack = a :: b :: stack) (hsdiv : m.Affords SDIV)
    (hsmod : m.Affords SMOD) :
    (Pushes (instruction .SDIV) m 2 (YellowPaper.sdiv a b) ↔
      ((a.toInt < 0 ↔ b.toInt < 0) ∨ b.toInt.natAbs ≤ a.toInt.natAbs)) ∧
    (Pushes (instruction .SMOD) m 2 (YellowPaper.smod a b) ↔
      if a.toInt < 0 then (b.toInt < 0 ↔ b.toInt ∣ a.toInt) else 0 ≤ b.toInt) := by
  refine ⟨(dividing_pushes_iff _ hstack hsdiv).trans ?_, (dividing_pushes_iff _ hstack hsmod).trans ?_⟩
  · split
    · rename_i hb
      subst hb
      exact iff_of_true rfl (.inr (zero_le _))
    · exact signedDiv_iff ‹_›
  · split
    · rename_i hb
      subst hb
      refine iff_of_true rfl ?_
      split
      · exact iff_of_false (lt_irrefl _) fun h => (Int.ne_of_lt ‹_›) (Int.zero_dvd.mp h)
      · exact le_refl _
    · exact signedMod_iff ‹_›

attribute [local instance] Keccak256.empty

theorem sdiv_smod_iff_sampleMachine :
    let m := sampleMachine [] [7, 3] []
    (m.Affords SDIV ∧ m.Affords SMOD) ∧
    (Pushes (instruction .SDIV) m 2 (YellowPaper.sdiv 7 3) ↔
      (((7 : U256).toInt < 0 ↔ (3 : U256).toInt < 0) ∨ (3 : U256).toInt.natAbs ≤ (7 : U256).toInt.natAbs)) ∧
    (Pushes (instruction .SMOD) m 2 (YellowPaper.smod 7 3) ↔
      if (7 : U256).toInt < 0 then ((3 : U256).toInt < 0 ↔ (3 : U256).toInt ∣ (7 : U256).toInt)
        else 0 ≤ (3 : U256).toInt) := by
  have hafford : (sampleMachine [] [7, 3] []).Affords 5 := ⟨by decide, by decide⟩
  exact ⟨⟨hafford, hafford⟩, sdiv_smod_iff rfl hafford hafford⟩

/-- `1 / -2` panics instead of `0`, and `7 % -3` is `-1` instead of `1`. -/
theorem sdiv_panics_smod_sign :
    ((instruction .SDIV (sampleMachine [] [1, -2] [])).1 = Outcome.panic "arithmetic operation overflow" ∧
      YellowPaper.sdiv 1 (-2) = 0) ∧
    Pushes (instruction .SMOD) (sampleMachine [] [7, -3] []) 2 (-1) ∧ YellowPaper.smod 7 (-3) = 1 := by
  decide +kernel

/-- `MULMOD` is right. `ADDMOD` is right unless the sum wraps and one divisor less is not a remainder. -/
theorem addmod_mulmod_iff [Keccak256] (hstack : m.frame.stack = a :: b :: n :: stack)
    (haddmod : m.Affords ADDMOD)
    (hmulmod : m.Affords MULMOD) :
    (Pushes (instruction .ADDMOD) m 3 (YellowPaper.addmod a b n) ↔
      n = 0 ∨ (2 ^ 256 ≤ a.toNat + b.toNat → (a.toNat + b.toNat - 2 ^ 256) % n.toNat + 2 ^ 256 < 2 * n.toNat)) ∧
    Pushes (instruction .MULMOD) m 3 (YellowPaper.mulmod a b n) := by
  refine ⟨(modular_pushes_iff _ hstack haddmod).trans ?_, (modular_pushes_iff _ hstack hmulmod).mpr ?_⟩
  · split
    · rename_i hn
      exact iff_of_true (if_pos hn).symm (.inl hn)
    · rename_i hn
      rw [addMod_iff hn, or_iff_right hn]
  · split
    · rename_i hn
      exact (if_pos hn).symm
    · exact mulMod_eq ‹_›

theorem addmod_mulmod_iff_sampleMachine :
    let m := sampleMachine [] [7, 5, 3] []
    (m.Affords ADDMOD ∧ m.Affords MULMOD) ∧
    (Pushes (instruction .ADDMOD) m 3 (YellowPaper.addmod 7 5 3) ↔ (3 : U256) = 0 ∨
    (2 ^ 256 ≤ (7 : U256).toNat + (5 : U256).toNat →
      ((7 : U256).toNat + (5 : U256).toNat - 2 ^ 256) % (3 : U256).toNat + 2 ^ 256 < 2 * (3 : U256).toNat)) ∧
    Pushes (instruction .MULMOD) m 3 (YellowPaper.mulmod 7 5 3) := by
  have hafford : (sampleMachine [] [7, 5, 3] []).Affords 8 := ⟨by decide, by decide⟩
  exact ⟨⟨hafford, hafford⟩, addmod_mulmod_iff rfl hafford hafford⟩

/-- `(2 ^ 256 - 1 + 1) % 3`: the sum wraps to `0`, and `-3` is pushed instead of `1`. -/
theorem addmod_wraps :
    Pushes (instruction .ADDMOD) (sampleMachine [] [-1, 1, 3] []) 3 (-3) ∧ YellowPaper.addmod (-1) 1 3 = 1 := by
  decide +kernel

/-- What the instructions on bits and signs should push for their two operands. -/
def YellowPaper.result : Opcode → Option (U256 → U256 → U256)
  | .SIGNEXTEND => signextend
  | .SAR => sar
  | .SHL => shl
  | .SHR => shr
  | .BYTE => byte
  | .SLT => slt
  | .SGT => sgt
  | _ => none

theorem bit_instruction_pushes [Keccak256] {opcode : Opcode} {f : U256 → U256 → U256}
    (hword : YellowPaper.result opcode = some f)
    (hprice : opcode.price = some cost) (hstack : m.frame.stack = a :: b :: stack) (hafford : m.Affords cost) :
    Pushes (instruction opcode) m 2 (f a b) := by
  -- the words of the interpreter are those of the table
  have hbinary (g : U256 → U256 → U256) (hinstruction : instruction opcode = binary cost g) (hg : g a b = f a b) :
      Pushes (instruction opcode) m 2 (f a b) := by
    rw [Pushes, hinstruction, binary_run g hstack hafford, hstack, ← hg]
    exact ⟨rfl, rfl⟩
  cases opcode <;> cases hword <;> cases hprice
  · exact hbinary _ rfl (signExtend_eq a b)
  · exact hbinary _ rfl (ofBool_signedLt a b)
  · exact hbinary _ rfl (ofBool_signedGt a b)
  · exact hbinary _ rfl (byteAt_eq a b)
  · exact hbinary _ rfl (shiftLeft_eq a b)
  · exact hbinary _ rfl (shiftRight_eq a b)
  · exact hbinary _ rfl (signedShiftRight_eq a b)

/-- `-5` shifted by one to the right. -/
theorem bit_instruction_pushes_sampleMachine :
    let m := sampleMachine [] [1, -5] []
    YellowPaper.result .SAR = some YellowPaper.sar ∧ YellowPaper.sar 1 (-5) = -3 ∧ m.Affords SAR ∧
    Pushes (instruction .SAR) m 2 (YellowPaper.sar 1 (-5)) := by
  have hafford : (sampleMachine [] [1, -5] []).Affords SAR := ⟨by decide, by decide⟩
  exact ⟨rfl, by decide +kernel, hafford, bit_instruction_pushes rfl rfl rfl hafford⟩

end

end EthereumRust.Levm
