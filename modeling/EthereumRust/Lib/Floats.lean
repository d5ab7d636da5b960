import Mathlib.Algebra.Order.Field.Power
import Mathlib.Data.Rat.Floor
import Mathlib.Tactic.Linarith
import Mathlib.Tactic.Positivity
import Mathlib.Tactic.FieldSimp

/-! # Binary floating-point numbers

The finite numbers of a format are rationals with few binary digits. A result is rounded
to the nearest of them, and to the even one of two. Zero has no sign here. -/

namespace EthereumRust

variable {q : ℚ} {n : ℤ}

structure FloatFormat where
  /-- The number of digits. -/
  precision : Nat
  /-- The weight of the last digit of the smallest numbers is this power of two. -/
  minExponent : ℤ
  /-- The finite numbers are below this power of two. -/
  maxExponent : ℤ
  positive : 0 < precision

def binary32 : FloatFormat := ⟨24, -149, 128, by decide⟩
def binary64 : FloatFormat := ⟨53, -1074, 1024, by decide⟩

/-! ## Rounding to integers -/

/-- The nearest integer, and the even one of two. -/
def roundEven (q : ℚ) : ℤ :=
  if q - ⌊q⌋ < 1 / 2 then ⌊q⌋
  else if 1 / 2 < q - ⌊q⌋ then ⌊q⌋ + 1
  else if ⌊q⌋ % 2 = 0 then ⌊q⌋ else ⌊q⌋ + 1

theorem floor_le_roundEven (q : ℚ) : ⌊q⌋ ≤ roundEven q := by
  unfold roundEven
  split_ifs <;> omega

theorem roundEven_le_floor_add_one (q : ℚ) : roundEven q ≤ ⌊q⌋ + 1 := by
  unfold roundEven
  split_ifs <;> omega

theorem roundEven_mono {r} (h : q ≤ r) : roundEven q ≤ roundEven r := by
  rcases (Int.floor_le_floor h).lt_or_eq with hlt | heq
  · exact (roundEven_le_floor_add_one q).trans (hlt.trans_le (floor_le_roundEven r))
  · unfold roundEven
    rw [heq]
    split_ifs <;> first | omega | linarith

@[simp] theorem roundEven_intCast (n : ℤ) : roundEven n = n := by
  rw [roundEven, Int.floor_intCast, if_pos (by norm_num)]

theorem le_roundEven (h : n ≤ q) : n ≤ roundEven q := by
  have hmono := roundEven_mono h
  rwa [roundEven_intCast] at hmono

theorem roundEven_le (h : q ≤ n) : roundEven q ≤ n := by
  have hmono := roundEven_mono h
  rwa [roundEven_intCast] at hmono

/-! ## Rounding to a number of digits -/

/-- The weight of the first digit of a positive number. -/
def leadingExponent (q : ℚ) : ℤ :=
  let e : ℤ := (Nat.log2 q.num.natAbs : ℤ) - Nat.log2 q.den
  if (2 : ℚ) ^ e ≤ q then e else e - 1

theorem leadingExponent_spec (h : 0 < q) :
    (2 : ℚ) ^ leadingExponent q ≤ q ∧ q < (2 : ℚ) ^ (leadingExponent q + 1) := by
  have hnum : 0 < q.num := Rat.num_pos.mpr h
  obtain ⟨a, ha⟩ : ∃ a : ℕ, a = q.num.natAbs := ⟨_, rfl⟩
  have hapos : a ≠ 0 := by omega
  have hq : q = a / q.den := by
    have hcast : (q.num : ℚ) = a := by
      rw [ha, Nat.cast_natAbs, abs_of_pos hnum]
    rw [← hcast, Rat.num_div_den]
  have hlow : (2 : ℚ) ^ (Nat.log2 a : ℤ) ≤ a := by exact_mod_cast Nat.log2_self_le hapos
  have hhigh : (a : ℚ) < 2 ^ ((Nat.log2 a : ℤ) + 1) := by exact_mod_cast Nat.lt_log2_self
  have hlow' : (2 : ℚ) ^ (Nat.log2 q.den : ℤ) ≤ q.den := by exact_mod_cast Nat.log2_self_le q.den_nz
  have hhigh' : (q.den : ℚ) < 2 ^ ((Nat.log2 q.den : ℤ) + 1) := by exact_mod_cast Nat.lt_log2_self
  have htwo : (2 : ℚ) ≠ 0 := two_ne_zero
  rw [leadingExponent, ← ha]
  split_ifs with hle
  · refine ⟨hle, ?_⟩
    calc q = a / q.den := hq
      _ < 2 ^ ((Nat.log2 a : ℤ) + 1) / q.den := by gcongr
      _ ≤ 2 ^ ((Nat.log2 a : ℤ) + 1) / 2 ^ (Nat.log2 q.den : ℤ) := by gcongr
      _ = 2 ^ ((Nat.log2 a : ℤ) - Nat.log2 q.den + 1) := by
        rw [← zpow_sub₀ htwo]
        congr 1
        ring
  · refine ⟨?_, ?_⟩
    · calc (2 : ℚ) ^ ((Nat.log2 a : ℤ) - Nat.log2 q.den - 1)
          = 2 ^ (Nat.log2 a : ℤ) / 2 ^ ((Nat.log2 q.den : ℤ) + 1) := by
            rw [← zpow_sub₀ htwo]
            congr 1
            ring
        _ ≤ a / 2 ^ ((Nat.log2 q.den : ℤ) + 1) := by gcongr
        _ ≤ a / q.den := by gcongr
        _ = q := hq.symm
    · rw [sub_add_cancel]
      exact lt_of_not_ge hle

namespace FloatFormat

variable (fmt : FloatFormat)

/-- The weight of the last digit that is kept. -/
def unitExponent (q : ℚ) : ℤ := max (leadingExponent q - (fmt.precision - 1)) fmt.minExponent

def magnitude (q : ℚ) : ℚ := roundEven (q / 2 ^ fmt.unitExponent q) * 2 ^ fmt.unitExponent q

/-- The nearest number with so many digits. -/
def nearest (q : ℚ) : ℚ := if q < 0 then -fmt.magnitude (-q) else fmt.magnitude q

/-- The number has few enough digits. -/
def Represents (v : ℚ) : Prop :=
  ∃ m k : ℤ, |m| < 2 ^ fmt.precision ∧ fmt.minExponent ≤ k ∧ v = m * 2 ^ k

variable {fmt}

theorem leadingExponent_lt (h : 0 < q) (hq : q < 2 ^ j) : leadingExponent q < j :=
  (zpow_lt_zpow_iff_right₀ one_lt_two).mp ((leadingExponent_spec h).1.trans_lt hq)

theorem le_leadingExponent (h : 0 < q) (hq : (2 : ℚ) ^ j ≤ q) : j ≤ leadingExponent q :=
  Int.lt_add_one_iff.mp ((zpow_lt_zpow_iff_right₀ one_lt_two).mp (hq.trans_lt (leadingExponent_spec h).2))

theorem magnitude_nonneg (h : 0 ≤ q) : 0 ≤ fmt.magnitude q := by
  have hround : (0 : ℤ) ≤ roundEven (q / 2 ^ fmt.unitExponent q) := by
    refine le_roundEven ?_
    positivity
  unfold magnitude
  positivity

/-- Powers of two of enough weight are in the format, so rounding does not pass them. -/
theorem magnitude_le_two_zpow (hj : fmt.unitExponent q ≤ j) (h : q ≤ 2 ^ j) : fmt.magnitude q ≤ 2 ^ j := by
  obtain ⟨d, hd⟩ := Int.eq_ofNat_of_zero_le (sub_nonneg.mpr hj)
  have hpow : (2 : ℚ) ^ j = ((2 ^ d : ℤ) : ℚ) * 2 ^ fmt.unitExponent q := by
    rw [Int.cast_pow, Int.cast_ofNat, ← zpow_natCast, ← zpow_add₀ two_ne_zero]
    congr 1
    omega
  have hunit : (0 : ℚ) < 2 ^ fmt.unitExponent q := by positivity
  have hround : roundEven (q / 2 ^ fmt.unitExponent q) ≤ (2 ^ d : ℤ) := by
    refine roundEven_le ?_
    rw [div_le_iff₀ hunit, ← hpow]
    exact h
  rw [hpow]
  exact mul_le_mul_of_nonneg_right (by exact_mod_cast hround) hunit.le

theorem two_zpow_le_magnitude (hj : fmt.unitExponent q ≤ j) (h : 2 ^ j ≤ q) : 2 ^ j ≤ fmt.magnitude q := by
  obtain ⟨d, hd⟩ := Int.eq_ofNat_of_zero_le (sub_nonneg.mpr hj)
  have hpow : (2 : ℚ) ^ j = ((2 ^ d : ℤ) : ℚ) * 2 ^ fmt.unitExponent q := by
    rw [Int.cast_pow, Int.cast_ofNat, ← zpow_natCast, ← zpow_add₀ two_ne_zero]
    congr 1
    omega
  have hunit : (0 : ℚ) < 2 ^ fmt.unitExponent q := by positivity
  have hround : (2 ^ d : ℤ) ≤ roundEven (q / 2 ^ fmt.unitExponent q) := by
    refine le_roundEven ?_
    rw [le_div_iff₀ hunit, ← hpow]
    exact h
  rw [hpow]
  exact mul_le_mul_of_nonneg_right (by exact_mod_cast hround) hunit.le

@[simp] theorem magnitude_zero : fmt.magnitude 0 = 0 := by
  have hround : roundEven 0 = 0 := roundEven_intCast 0
  rw [magnitude, zero_div, hround, Int.cast_zero, zero_mul]

/-- The last digit of a larger number has at least the same weight. If it has more, a power of two lies between. -/
theorem magnitude_mono (h : 0 ≤ q) (hqr : q ≤ r) : fmt.magnitude q ≤ fmt.magnitude r := by
  rcases h.eq_or_lt with rfl | hq
  · rw [magnitude_zero]
    exact magnitude_nonneg hqr
  have hr := hq.trans_le hqr
  have hprecision := fmt.positive
  have hlead : leadingExponent q ≤ leadingExponent r :=
    le_leadingExponent hr ((leadingExponent_spec hq).1.trans hqr)
  rcases eq_or_ne (fmt.unitExponent q) (fmt.unitExponent r) with heq | hne
  · have hunit : (0 : ℚ) < 2 ^ fmt.unitExponent r := by positivity
    have hround : roundEven (q / 2 ^ fmt.unitExponent r) ≤ roundEven (r / 2 ^ fmt.unitExponent r) :=
      roundEven_mono (div_le_div_of_nonneg_right hqr hunit.le)
    rw [magnitude, heq]
    exact mul_le_mul_of_nonneg_right (by exact_mod_cast hround) hunit.le
  · have hle : fmt.unitExponent q ≤ leadingExponent r ∧ fmt.unitExponent r ≤ leadingExponent r := by
      unfold unitExponent at hne ⊢
      omega
    have hpow : q ≤ 2 ^ leadingExponent r := by
      by_contra hlarge
      have hlead' := le_leadingExponent hq (not_le.mp hlarge).le
      exact hne (by unfold unitExponent; rw [le_antisymm hlead hlead'])
    exact (magnitude_le_two_zpow hle.1 hpow).trans (two_zpow_le_magnitude hle.2 (leadingExponent_spec hr).1)

theorem nearest_mono (h : q ≤ r) : fmt.nearest q ≤ fmt.nearest r := by
  unfold nearest
  split_ifs with hq hr hr
  · have hmono : fmt.magnitude (-r) ≤ fmt.magnitude (-q) := magnitude_mono (by linarith) (by linarith)
    linarith
  · have hq' : 0 ≤ fmt.magnitude (-q) := magnitude_nonneg (by linarith)
    have hr' : 0 ≤ fmt.magnitude r := magnitude_nonneg (not_lt.mp hr)
    linarith
  · linarith
  · exact magnitude_mono (not_lt.mp hq) h

theorem nearest_of_nonneg (h : 0 ≤ q) : fmt.nearest q = fmt.magnitude q := if_neg (not_lt.mpr h)

@[simp] theorem nearest_zero : fmt.nearest 0 = 0 := by rw [nearest_of_nonneg le_rfl, magnitude_zero]

theorem nearest_nonneg (h : 0 ≤ q) : 0 ≤ fmt.nearest q := by
  rw [nearest_of_nonneg h]
  exact magnitude_nonneg h

theorem nearest_natCast {n : ℕ} (hmin : fmt.minExponent ≤ 0) (h : n < 2 ^ fmt.precision) : fmt.nearest n = n := by
  rcases Nat.eq_zero_or_pos n with rfl | hpos
  · simp
  have hq : (0 : ℚ) < n := by exact_mod_cast hpos
  have hlead : leadingExponent (n : ℚ) < fmt.precision := leadingExponent_lt hq (by exact_mod_cast h)
  have hunit : fmt.unitExponent n ≤ 0 := by
    unfold unitExponent
    omega
  obtain ⟨d, hd⟩ := Int.eq_ofNat_of_zero_le (neg_nonneg.mpr hunit)
  have hscaled : (n : ℚ) / 2 ^ fmt.unitExponent n = ((n * 2 ^ d : ℤ) : ℚ) := by
    rw [div_eq_mul_inv, ← zpow_neg, hd]
    push_cast
    rfl
  have hpos' : (2 : ℚ) ^ fmt.unitExponent n ≠ 0 := by positivity
  rw [nearest_of_nonneg hq.le, magnitude, hscaled, roundEven_intCast, ← hscaled, div_mul_cancel₀ _ hpos']

theorem represents_magnitude (h : 0 ≤ q) : fmt.Represents (fmt.magnitude q) := by
  rcases h.eq_or_lt with rfl | hq
  · exact ⟨0, fmt.minExponent, by simp, le_rfl, by simp⟩
  have hprecision := fmt.positive
  obtain ⟨m, hm⟩ : ∃ m, m = roundEven (q / 2 ^ fmt.unitExponent q) := ⟨_, rfl⟩
  have hunit : (0 : ℚ) < 2 ^ fmt.unitExponent q := by positivity
  have hmin : fmt.minExponent ≤ fmt.unitExponent q := le_max_right _ _
  have hnonneg : 0 ≤ m := by
    rw [hm]
    refine le_roundEven ?_
    positivity
  have hle : m ≤ 2 ^ fmt.precision := by
    rw [hm]
    refine roundEven_le ?_
    rw [div_le_iff₀ hunit, Int.cast_pow, Int.cast_ofNat, ← zpow_natCast, ← zpow_add₀ two_ne_zero]
    refine (leadingExponent_spec hq).2.le.trans (zpow_le_zpow_right₀ one_le_two ?_)
    unfold unitExponent
    omega
  have hmagnitude : fmt.magnitude q = m * 2 ^ fmt.unitExponent q := by rw [magnitude, hm]
  rcases hle.lt_or_eq with hlt | heq
  · exact ⟨m, fmt.unitExponent q, by rwa [abs_of_nonneg hnonneg], hmin, hmagnitude⟩
  · -- rounded up to a power of two
    refine ⟨2 ^ (fmt.precision - 1), fmt.unitExponent q + 1, ?_, by omega, ?_⟩
    · rw [abs_of_nonneg (by positivity)]
      exact pow_lt_pow_right₀ one_lt_two (by omega)
    · have hpow : (2 : ℚ) ^ fmt.precision = 2 ^ (fmt.precision - 1) * 2 := by
        rw [← pow_succ, Nat.sub_add_cancel hprecision]
      rw [hmagnitude, heq, zpow_add_one₀ two_ne_zero]
      push_cast
      rw [hpow]
      ring

theorem represents_neg {v} (h : fmt.Represents v) : fmt.Represents (-v) := by
  obtain ⟨m, k, hm, hk, rfl⟩ := h
  exact ⟨-m, k, by rwa [abs_neg], hk, by push_cast; ring⟩

theorem represents_nearest (q : ℚ) : fmt.Represents (fmt.nearest q) := by
  unfold nearest
  split_ifs with h
  · exact represents_neg (represents_magnitude (by linarith))
  · exact represents_magnitude (not_lt.mp h)

end FloatFormat

/-! ## Numbers -/

inductive Flt (fmt : FloatFormat) where
  | nan
  | infinity (negative : Bool)
  | finite (value : ℚ) (represented : fmt.Represents value)
  deriving DecidableEq

abbrev F32 := Flt binary32
abbrev F64 := Flt binary64

namespace Flt

variable {x : Flt fmt}

def ofRat (q : ℚ) : Flt fmt :=
  if 2 ^ fmt.maxExponent ≤ fmt.nearest q then infinity false
  else if fmt.nearest q ≤ -2 ^ fmt.maxExponent then infinity true
  else finite (fmt.nearest q) (FloatFormat.represents_nearest q)

def ofNat (n : Nat) : Flt fmt := ofRat n

def isNegative : Flt fmt → Bool
  | nan => false
  | infinity negative => negative
  | finite value _ => value < 0

def isZero : Flt fmt → Bool
  | finite value _ => value = 0
  | _ => false

def mul : Flt fmt → Flt fmt → Flt fmt
  | nan, _ | _, nan => nan
  | infinity negative, x | x, infinity negative => if x.isZero then nan else infinity (negative != x.isNegative)
  | finite v _, finite w _ => ofRat (v * w)

def div : Flt fmt → Flt fmt → Flt fmt
  | nan, _ | _, nan => nan
  | infinity _, infinity _ => nan
  | infinity negative, x => infinity (negative != x.isNegative)
  | finite .., infinity _ => ofRat 0
  | finite v h, finite w _ => if w = 0 then (if v = 0 then nan else infinity (finite v h).isNegative) else ofRat (v / w)

def lt : Flt fmt → Flt fmt → Bool
  | nan, _ | _, nan => false
  | infinity negative, infinity negative' => negative && !negative'
  | infinity negative, finite .. => negative
  | finite .., infinity negative => !negative
  | finite v _, finite w _ => v < w

def le : Flt fmt → Flt fmt → Bool
  | nan, _ | _, nan => false
  | x, y => !y.lt x

def toUsize : Flt fmt → Nat
  | nan => 0
  | infinity negative => if negative then 0 else 2 ^ 64 - 1
  | finite v _ => min ⌊v⌋.toNat (2 ^ 64 - 1)

def convert {fmt' : FloatFormat} : Flt fmt → Flt fmt'
  | nan => nan
  | infinity negative => infinity negative
  | finite v _ => ofRat v

/-! ## Order -/

@[simp] theorem finite_le_finite {v w} (hv : fmt.Represents v) (hw : fmt.Represents w) :
    (finite v hv).le (finite w hw) ↔ v ≤ w := by
  simp [le, lt]

theorem ofRat_cases (q : ℚ) :
    ofRat q = (infinity false : Flt fmt) ∧ 2 ^ fmt.maxExponent ≤ fmt.nearest q ∨
    ofRat q = (infinity true : Flt fmt) ∧ fmt.nearest q ≤ -2 ^ fmt.maxExponent ∨
    ofRat q = finite (fmt.nearest q) (FloatFormat.represents_nearest q) ∧
      -2 ^ fmt.maxExponent < fmt.nearest q ∧ fmt.nearest q < 2 ^ fmt.maxExponent := by
  unfold ofRat
  split_ifs with hhigh hlow
  · exact .inl ⟨rfl, hhigh⟩
  · exact .inr (.inl ⟨rfl, hlow⟩)
  · exact .inr (.inr ⟨rfl, not_le.mp hlow, not_le.mp hhigh⟩)

theorem ofRat_le_ofRat {q r} (h : q ≤ r) : (ofRat q : Flt fmt).le (ofRat r) := by
  have hmono : fmt.nearest q ≤ fmt.nearest r := FloatFormat.nearest_mono h
  have hpos : (0 : ℚ) < 2 ^ fmt.maxExponent := by positivity
  rcases @ofRat_cases fmt q with ⟨hq, hq'⟩ | ⟨hq, hq'⟩ | ⟨hq, hq', hq''⟩ <;>
    rcases @ofRat_cases fmt r with ⟨hr, hr'⟩ | ⟨hr, hr'⟩ | ⟨hr, hr', hr''⟩ <;>
    rw [hq, hr] <;> simp only [le, lt] <;> grind

theorem ofRat_ne_nan (q : ℚ) : (ofRat q : Flt fmt) ≠ nan := by
  rcases @ofRat_cases fmt q with ⟨hq, -⟩ | ⟨hq, -⟩ | ⟨hq, -⟩ <;> simp [hq]

theorem le_infinity (h : x ≠ nan) : x.le (infinity false) := by
  cases x <;> simp_all [le, lt]

theorem neg_infinity_le (h : x ≠ nan) : (infinity true).le x := by
  cases x <;> simp_all [le, lt]

theorem div_le_div_right {w} (hw : 0 < w) (hr : fmt.Represents w) (h : x.le y) :
    (x.div (finite w hr)).le (y.div (finite w hr)) := by
  have hsign : (finite w hr).isNegative = false := by simp [isNegative, hw.le]
  have hinfinity (negative : Bool) : (infinity negative).div (finite w hr) = infinity negative := by
    simp only [div, hsign, Bool.bne_false]
  have hfinite {v : ℚ} (hv : fmt.Represents v) : (finite v hv).div (finite w hr) = ofRat (v / w) := by
    rw [div, if_neg hw.ne']
  match x, y with
  | infinity false, infinity false | infinity true, infinity false | infinity true, infinity true =>
    simpa only [hinfinity] using h
  | infinity true, finite v hv =>
    rw [hinfinity, hfinite]
    exact neg_infinity_le (ofRat_ne_nan _)
  | finite v hv, infinity false =>
    rw [hinfinity, hfinite]
    exact le_infinity (ofRat_ne_nan _)
  | finite v hv, finite v' hv' =>
    rw [hfinite, hfinite]
    exact ofRat_le_ofRat (div_le_div_of_nonneg_right ((finite_le_finite hv hv').mp h) hw.le)

theorem toUsize_mono (h : x.le y) : x.toUsize ≤ y.toUsize := by
  match x, y with
  | infinity false, infinity false | infinity true, infinity true => exact le_rfl
  | infinity true, infinity false | infinity true, finite v hv => exact Nat.zero_le _
  | finite v hv, infinity false => exact min_le_right _ _
  | finite v hv, finite v' hv' =>
    exact min_le_min_right _ (Int.toNat_le_toNat (Int.floor_le_floor ((finite_le_finite hv hv').mp h)))

theorem ofNat_eq_finite {n : ℕ} (hmin : fmt.minExponent ≤ 0) (hmax : fmt.precision ≤ fmt.maxExponent)
    (h : n < 2 ^ fmt.precision) : ∃ hn : fmt.Represents n, (ofNat n : Flt fmt) = finite n hn := by
  have hexact := FloatFormat.nearest_natCast hmin h
  have hlt : (n : ℚ) < 2 ^ fmt.maxExponent := by
    have hpow : (2 : ℚ) ^ fmt.precision ≤ 2 ^ fmt.maxExponent := by
      exact zpow_le_zpow_right₀ one_le_two hmax
    have hcast : (n : ℚ) < 2 ^ fmt.precision := by exact_mod_cast h
    linarith
  rcases @ofRat_cases fmt n with ⟨-, hge⟩ | ⟨-, hle⟩ | ⟨heq, -⟩
  · linarith
  · linarith
  · refine ⟨hexact ▸ FloatFormat.represents_nearest n, ?_⟩
    rw [ofNat, heq]
    congr 1

theorem ofNat_cases (n : ℕ) :
    ofNat n = (infinity false : Flt fmt) ∨ ∃ (v : ℚ) (hv : fmt.Represents v), 0 ≤ v ∧ ofNat n = finite v hv := by
  have hnonneg : 0 ≤ fmt.nearest n := FloatFormat.nearest_nonneg (Nat.cast_nonneg n)
  have hpos : (0 : ℚ) < 2 ^ fmt.maxExponent := by positivity
  rcases @ofRat_cases fmt n with ⟨heq, -⟩ | ⟨-, hle⟩ | ⟨heq, -⟩
  · exact .inl heq
  · linarith
  · exact .inr ⟨_, _, hnonneg, heq⟩

end Flt
end EthereumRust
