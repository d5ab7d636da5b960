import Mathlib.Data.Nat.Dist
import EthereumRust.Lib.FakeExponential
import EthereumRust.Core.Block
import EthereumRust.Levm.Word

/-! # The fees against their definitions in EIP-1559 and EIP-4844

The definitions are over natural numbers, the code computes with `u64`. -/

namespace EthereumRust.Core
open Nat

variable {ε : Type}

/-! ## The base fee -/

def GasLimitInBounds (gasLimit parentGasLimit : Nat) : Prop :=
  gasLimit < parentGasLimit + parentGasLimit / 1024 ∧ parentGasLimit - parentGasLimit / 1024 < gasLimit ∧
    5000 ≤ gasLimit

instance (gasLimit parentGasLimit : Nat) : Decidable (GasLimitInBounds gasLimit parentGasLimit) :=
  inferInstanceAs (Decidable (_ ∧ _))

def eip1559BaseFee (parentGasLimit parentGasUsed parentBaseFee : Nat) : Nat :=
  let target := parentGasLimit / 2
  if parentGasUsed = target then parentBaseFee
  else if target < parentGasUsed then
    parentBaseFee + max (parentBaseFee * (parentGasUsed - target) / target / 8) 1
  else parentBaseFee - parentBaseFee * (target - parentGasUsed) / target / 8

section

variable {parentGasTarget : UInt64}

theorem checkGasLimit_ok (h : parentGasLimit.toNat + parentGasLimit.toNat / 1024 < Rust.wordSize) :
    (checkGasLimit gasLimit parentGasLimit : Outcome ε Bool) =
      .ok (decide (GasLimitInBounds gasLimit.toNat parentGasLimit.toNat)) := by
  have hdelta : (parentGasLimit / GAS_LIMIT_ADJUSTMENT_FACTOR).toNat = parentGasLimit.toNat / 1024 :=
    UInt64.toNat_div _ _
  have hminimum : GAS_LIMIT_MINIMUM.toNat = 5000 := rfl
  obtain ⟨above, habove⟩ := Rust.exists_toNat_eq h
  obtain ⟨below, hbelow⟩ := Rust.exists_toNat_eq
    ((sub_le parentGasLimit.toNat (parentGasLimit.toNat / 1024)).trans_lt (Rust.toNat_lt_wordSize _))
  have hadd : (Rust.u64Add parentGasLimit (parentGasLimit / GAS_LIMIT_ADJUSTMENT_FACTOR) : Outcome ε UInt64) =
      .ok above := by
    rw [Rust.u64Add_eq_ok, habove, hdelta]
  have hsub : (Rust.u64Sub parentGasLimit (parentGasLimit / GAS_LIMIT_ADJUSTMENT_FACTOR) : Outcome ε UInt64) =
      .ok below := by
    rw [Rust.u64Sub_eq_ok, hbelow, hdelta, Nat.sub_add_cancel (Nat.div_le_self _ _)]
  rw [checkGasLimit, hadd, hsub]
  simp only [Outcome.bind_ok, GasLimitInBounds, ← habove, ← hbelow]
  split_ifs with hlt
  · have hlt' : gasLimit.toNat < above.toNat := hlt
    simp [UInt64.lt_iff_toNat_lt, UInt64.le_iff_toNat_le, hlt', hminimum]
  · have hlt' : ¬ gasLimit.toNat < above.toNat := hlt
    simp [hlt']

theorem checkGasLimit_overflows (h : ¬ parentGasLimit.toNat + parentGasLimit.toNat / 1024 < Rust.wordSize) :
    (checkGasLimit gasLimit parentGasLimit : Outcome ε Bool) = Outcome.panic "attempt to add with overflow" := by
  have hdelta : (parentGasLimit / GAS_LIMIT_ADJUSTMENT_FACTOR).toNat = parentGasLimit.toNat / 1024 :=
    UInt64.toNat_div _ _
  rw [checkGasLimit, Rust.u64Add, if_neg (by rwa [hdelta])]
  rfl

theorem targetFeeGasDelta_ok (htarget : parentGasTarget.toNat ≠ 0)
    (h : parentBaseFee.toNat * gasUsedDelta.toNat < Rust.wordSize) :
    ∃ delta, (targetFeeGasDelta parentBaseFee gasUsedDelta parentGasTarget : Outcome ε UInt64) = .ok delta ∧
      delta.toNat = parentBaseFee.toNat * gasUsedDelta.toNat / parentGasTarget.toNat := by
  obtain ⟨product, hproduct⟩ := Rust.exists_toNat_eq h
  have hzero : parentGasTarget ≠ 0 := fun hzero => htarget (congrArg UInt64.toNat hzero)
  refine ⟨product / parentGasTarget, ?_, ?_⟩
  · rw [targetFeeGasDelta, Rust.u64Mul_eq_ok.mpr hproduct, Outcome.bind_ok, if_neg hzero]
    rfl
  · rw [UInt64.toNat_div, hproduct]

theorem targetFeeGasDelta_overflows (h : ¬ parentBaseFee.toNat * gasUsedDelta.toNat < Rust.wordSize) :
    (targetFeeGasDelta parentBaseFee gasUsedDelta parentGasTarget : Outcome ε UInt64) =
      Outcome.panic "attempt to multiply with overflow" := by
  rw [targetFeeGasDelta, Rust.u64Mul, if_neg h]
  rfl

theorem lowered_ok (hn : n ≤ parentGasTarget.toNat)
    (hdelta : delta.toNat = parentBaseFee.toNat * n / parentGasTarget.toNat) :
    ∃ fee, (Rust.u64Sub parentBaseFee (delta / BASE_FEE_MAX_CHANGE_DENOMINATOR) : Outcome ε UInt64) = .ok fee ∧
      fee.toNat = parentBaseFee.toNat - parentBaseFee.toNat * n / parentGasTarget.toNat / 8 := by
  have hchange : (delta / BASE_FEE_MAX_CHANGE_DENOMINATOR).toNat =
      parentBaseFee.toNat * n / parentGasTarget.toNat / 8 := by
    rw [← hdelta]
    exact UInt64.toNat_div _ _
  have hle : parentBaseFee.toNat * n / parentGasTarget.toNat / 8 ≤ parentBaseFee.toNat := by
    refine (Nat.div_le_self _ _).trans (Nat.div_le_of_le_mul ?_)
    rw [Nat.mul_comm parentGasTarget.toNat]
    exact mul_le_mul_left _ hn
  obtain ⟨fee, hfee⟩ := Rust.exists_toNat_eq ((sub_le _ _).trans_lt (Rust.toNat_lt_wordSize parentBaseFee))
  refine ⟨fee, ?_, hfee⟩
  rw [Rust.u64Sub_eq_ok, hchange, hfee, Nat.sub_add_cancel hle]

theorem raised_ok (hdelta : delta.toNat = n)
    (hresult : parentBaseFee.toNat + max (n / 8) 1 < Rust.wordSize) :
    ∃ fee, (Rust.u64Add parentBaseFee (max (delta / BASE_FEE_MAX_CHANGE_DENOMINATOR) 1) : Outcome ε UInt64) = .ok fee ∧
      fee.toNat = parentBaseFee.toNat + max (n / 8) 1 := by
  have hdiv : (delta / BASE_FEE_MAX_CHANGE_DENOMINATOR).toNat = n / 8 := by
    rw [← hdelta]
    exact UInt64.toNat_div _ _
  have hchange : (max (delta / BASE_FEE_MAX_CHANGE_DENOMINATOR) 1).toNat = max (n / 8) 1 := by
    rw [← hdiv, max_def]
    exact apply_ite UInt64.toNat _ _ _
  obtain ⟨fee, hfee⟩ := Rust.exists_toNat_eq hresult
  exact ⟨fee, by rw [Rust.u64Add_eq_ok, hchange, hfee], hfee⟩

theorem calculateBaseFeePerGas_ok
    (hgas : parentGasLimit.toNat + parentGasLimit.toNat / 1024 < Rust.wordSize)
    (hin : GasLimitInBounds gasLimit.toNat parentGasLimit.toNat)
    (hproduct : parentBaseFee.toNat * Nat.dist parentGasUsed.toNat (parentGasLimit.toNat / 2) < Rust.wordSize)
    (hresult : eip1559BaseFee parentGasLimit.toNat parentGasUsed.toNat parentBaseFee.toNat < Rust.wordSize) :
    ∃ fee, (calculateBaseFeePerGas gasLimit parentGasLimit parentGasUsed parentBaseFee : Outcome ε _) = .ok (some fee) ∧
      fee.toNat = eip1559BaseFee parentGasLimit.toNat parentGasUsed.toNat parentBaseFee.toNat := by
  have htarget : (parentGasLimit / ELASTICITY_MULTIPLIER).toNat = parentGasLimit.toNat / 2 := UInt64.toNat_div _ _
  have hpos : (parentGasLimit / ELASTICITY_MULTIPLIER).toNat ≠ 0 := by
    unfold GasLimitInBounds at hin
    omega
  rw [calculateBaseFeePerGas, checkGasLimit_ok hgas, decide_eq_true hin]
  unfold eip1559BaseFee at hresult ⊢
  rw [← htarget] at hproduct hresult ⊢
  simp only [Outcome.bind_ok, Bool.not_true, Bool.false_eq_true, if_false] at hresult ⊢
  generalize parentGasLimit / ELASTICITY_MULTIPLIER = target at *
  rcases lt_trichotomy parentGasUsed.toNat target.toNat with hlt | heq | hgt
  · have hdist : (target - parentGasUsed).toNat = target.toNat - parentGasUsed.toNat :=
      UInt64.toNat_sub_of_le _ _ (UInt64.le_of_lt hlt)
    rw [dist_eq_sub_of_le hlt.le, ← hdist] at hproduct
    obtain ⟨delta, hok, hdelta⟩ := targetFeeGasDelta_ok (ε := ε) hpos hproduct
    rw [hdist] at hdelta
    obtain ⟨fee, hsub, hfee⟩ := lowered_ok (ε := ε) (sub_le _ _) hdelta
    refine ⟨fee, ?_, by rw [if_neg hlt.ne, if_neg hlt.not_gt, hfee]⟩
    rw [if_neg (fun h => hlt.ne (congrArg UInt64.toNat h)), if_neg (UInt64.not_lt.mpr (UInt64.le_of_lt hlt)), hok,
      Outcome.bind_ok, hsub]
    rfl
  · rw [if_pos heq, if_pos (UInt64.toNat_inj.mp heq)]
    exact ⟨parentBaseFee, rfl, rfl⟩
  · have hdist : (parentGasUsed - target).toNat = parentGasUsed.toNat - target.toNat :=
      UInt64.toNat_sub_of_le _ _ (UInt64.le_of_lt hgt)
    rw [dist_eq_sub_of_le_right hgt.le, ← hdist] at hproduct
    obtain ⟨delta, hok, hdelta⟩ := targetFeeGasDelta_ok (ε := ε) hpos hproduct
    rw [hdist] at hdelta
    rw [if_neg hgt.ne', if_pos hgt] at hresult ⊢
    obtain ⟨fee, hadd, hfee⟩ := raised_ok (ε := ε) hdelta hresult
    refine ⟨fee, ?_, hfee⟩
    rw [if_neg (fun h => hgt.ne' (congrArg UInt64.toNat h)), if_pos (show target < parentGasUsed from hgt), hok,
      Outcome.bind_ok, hadd]
    rfl

/-- Away from the target the product of the fee and the distance has to fit. -/
theorem calculateBaseFeePerGas_overflows
    (hgas : parentGasLimit.toNat + parentGasLimit.toNat / 1024 < Rust.wordSize)
    (hin : GasLimitInBounds gasLimit.toNat parentGasLimit.toNat)
    (hproduct : ¬ parentBaseFee.toNat * Nat.dist parentGasUsed.toNat (parentGasLimit.toNat / 2) < Rust.wordSize) :
    (calculateBaseFeePerGas gasLimit parentGasLimit parentGasUsed parentBaseFee : Outcome ε _) =
      Outcome.panic "attempt to multiply with overflow" := by
  have htarget : (parentGasLimit / ELASTICITY_MULTIPLIER).toNat = parentGasLimit.toNat / 2 := UInt64.toNat_div _ _
  rw [calculateBaseFeePerGas, checkGasLimit_ok hgas, decide_eq_true hin]
  rw [← htarget] at hproduct
  simp only [Outcome.bind_ok, Bool.not_true, Bool.false_eq_true, if_false]
  generalize parentGasLimit / ELASTICITY_MULTIPLIER = target at *
  split_ifs with heq hgt
  · rw [heq, dist_self, mul_zero] at hproduct
    exact absurd (by decide) hproduct
  · have hle : target.toNat ≤ parentGasUsed.toNat := UInt64.le_of_lt hgt
    rw [dist_eq_sub_of_le_right hle, ← UInt64.toNat_sub_of_le _ _ hle] at hproduct
    rw [targetFeeGasDelta_overflows hproduct]
    rfl
  · have hle : parentGasUsed.toNat ≤ target.toNat := UInt64.not_lt.mp hgt
    rw [dist_eq_sub_of_le hle, ← UInt64.toNat_sub_of_le _ _ hle] at hproduct
    rw [targetFeeGasDelta_overflows hproduct]
    rfl

end

/-- If the fee of EIP-1559 fits, the code computes it exactly if two steps in between fit as well: the upper
bound of the gas limit, and the product of the parent's fee with the distance of its gas from the target. -/
theorem base_fee_exact_iff (blockGasLimit parentGasLimit parentGasUsed parentBaseFeePerGas : UInt64)
    (hfits : GasLimitInBounds blockGasLimit.toNat parentGasLimit.toNat →
      eip1559BaseFee parentGasLimit.toNat parentGasUsed.toNat parentBaseFeePerGas.toNat < 2 ^ 64) :
    (∃ fee, (calculateBaseFeePerGas blockGasLimit parentGasLimit parentGasUsed parentBaseFeePerGas : Outcome ε _) =
        .ok fee ∧
      fee.map UInt64.toNat = if GasLimitInBounds blockGasLimit.toNat parentGasLimit.toNat
        then some (eip1559BaseFee parentGasLimit.toNat parentGasUsed.toNat parentBaseFeePerGas.toNat) else none) ↔
      parentGasLimit.toNat + parentGasLimit.toNat / 1024 < 2 ^ 64 ∧
      (GasLimitInBounds blockGasLimit.toNat parentGasLimit.toNat →
        parentBaseFeePerGas.toNat * Nat.dist parentGasUsed.toNat (parentGasLimit.toNat / 2) < 2 ^ 64) := by
  constructor
  · rintro ⟨fee, hok, -⟩
    by_cases hgas : parentGasLimit.toNat + parentGasLimit.toNat / 1024 < 2 ^ 64
    · refine ⟨hgas, fun hin => ?_⟩
      by_contra hproduct
      rw [calculateBaseFeePerGas_overflows hgas hin hproduct] at hok
      cases hok
    · rw [calculateBaseFeePerGas, checkGasLimit_overflows hgas] at hok
      cases hok
  · rintro ⟨hgas, hproduct⟩
    split_ifs with hin
    · obtain ⟨fee, hok, hfee⟩ := calculateBaseFeePerGas_ok (ε := ε) hgas hin (hproduct hin) (hfits hin)
      exact ⟨some fee, hok, congrArg some hfee⟩
    · refine ⟨none, ?_, rfl⟩
      rw [calculateBaseFeePerGas, checkGasLimit_ok hgas, decide_eq_false hin]
      rfl

theorem base_fee_exact_iff_raised :
    eip1559BaseFee 30000000 20000000 1000000000 < 2 ^ 64 ∧
    ((∃ fee, (calculateBaseFeePerGas 30000000 30000000 20000000 1000000000 : Outcome Empty _) = .ok fee ∧
        fee.map UInt64.toNat = if GasLimitInBounds 30000000 30000000
          then some (eip1559BaseFee 30000000 20000000 1000000000) else none) ↔
      30000000 + 30000000 / 1024 < 2 ^ 64 ∧
      (GasLimitInBounds 30000000 30000000 → 1000000000 * Nat.dist 20000000 (30000000 / 2) < 2 ^ 64)) :=
  ⟨by decide +kernel, base_fee_exact_iff 30000000 30000000 20000000 1000000000 fun _ => by decide +kernel⟩

/-- After a full block at 1300 gwei. -/
theorem base_fee_product_overflows :
    GasLimitInBounds 30000000 30000000 ∧ eip1559BaseFee 30000000 30000000 1300000000000 = 1462500000000 ∧
    (calculateBaseFeePerGas 30000000 30000000 30000000 1300000000000 : Outcome Empty _) =
      Outcome.panic "attempt to multiply with overflow" := by
  decide +kernel

/-! ## The blob base fee -/

open FakeExponential Outcome Rust

theorem fakeExponentialFrom_eq_ok {numerator denominator i output numeratorAccum fee} :
    (fakeExponentialFrom numerator denominator rounds i output numeratorAccum : Outcome ε UInt64) = .ok fee ↔
      boundedFrom wordSize numerator.toNat denominator.toNat rounds i.toNat output.toNat numeratorAccum.toNat =
        some fee.toNat := by
  induction rounds generalizing i output numeratorAccum with
  | zero => simp [fakeExponentialFrom, boundedFrom]
  | succ rounds ih =>
    unfold fakeExponentialFrom boundedFrom
    by_cases hzero : numeratorAccum.toNat = 0
    · have hnot : ¬ numeratorAccum > 0 := fun hpos => (ne_of_gt hpos) hzero
      rw [if_pos hzero, if_neg hnot, pure_eq, Except.ok.injEq, Option.some.injEq, ← UInt64.toNat_div,
        UInt64.toNat_inj]
    · have hpos : numeratorAccum > 0 := pos_of_ne_zero hzero
      rw [if_neg hzero, if_pos hpos]
      constructor
      · intro h
        obtain ⟨output', houtput, h⟩ := bind_ok_inv h
        obtain ⟨product, hproduct, h⟩ := bind_ok_inv h
        obtain ⟨divisor, hdivisor, h⟩ := bind_ok_inv h
        obtain ⟨next, hnext, h⟩ := bind_ok_inv h
        rw [u64Add_eq_ok] at houtput hnext
        rw [u64Mul_eq_ok] at hproduct hdivisor
        rw [ih, UInt64.toNat_div, houtput, hproduct, hdivisor, hnext] at h
        rw [if_pos ⟨houtput ▸ toNat_lt_wordSize output', hproduct ▸ toNat_lt_wordSize product,
          hdivisor ▸ toNat_lt_wordSize divisor, hnext ▸ toNat_lt_wordSize next⟩]
        exact h
      · intro h
        split_ifs at h with hfits
        obtain ⟨output', houtput⟩ := exists_toNat_eq hfits.1
        obtain ⟨product, hproduct⟩ := exists_toNat_eq hfits.2.1
        obtain ⟨divisor, hdivisor⟩ := exists_toNat_eq hfits.2.2.1
        obtain ⟨next, hnext⟩ := exists_toNat_eq hfits.2.2.2
        rw [u64Add_eq_ok.mpr houtput, bind_ok, u64Mul_eq_ok.mpr hproduct, bind_ok,
          u64Mul_eq_ok.mpr hdivisor, bind_ok, u64Add_eq_ok.mpr hnext, bind_ok, ih,
          UInt64.toNat_div, houtput, hproduct, hdivisor, hnext]
        exact h

theorem u128Add_eq_ok :
    (Levm.u128Add a b : Outcome ε Nat) = .ok c ↔ a + b < Levm.u128Size ∧ a + b = c := by
  unfold Levm.u128Add
  split_ifs with h <;> simp [h, Outcome.panic]

theorem u128Mul_eq_ok :
    (Levm.u128Mul a b : Outcome ε Nat) = .ok c ↔ a * b < Levm.u128Size ∧ a * b = c := by
  unfold Levm.u128Mul
  split_ifs with h <;> simp [h, Outcome.panic]

theorem levm_fakeExponentialFrom_eq_ok :
    (Levm.fakeExponentialFrom numerator denominator rounds i output numeratorAccum : Outcome ε Nat) = .ok fee ↔
      boundedFrom Levm.u128Size numerator denominator rounds i output numeratorAccum = some fee := by
  induction rounds generalizing i output numeratorAccum with
  | zero => simp [Levm.fakeExponentialFrom, boundedFrom]
  | succ rounds ih =>
    unfold Levm.fakeExponentialFrom boundedFrom
    by_cases hzero : numeratorAccum = 0
    · rw [if_pos hzero, if_pos hzero, pure_eq, Except.ok.injEq, Option.some.injEq]
    · rw [if_neg hzero, if_neg hzero]
      constructor
      · intro h
        obtain ⟨output', houtput, h⟩ := bind_ok_inv h
        obtain ⟨product, hproduct, h⟩ := bind_ok_inv h
        obtain ⟨divisor, hdivisor, h⟩ := bind_ok_inv h
        obtain ⟨next, hnext, h⟩ := bind_ok_inv h
        obtain ⟨hfits₁, rfl⟩ := u128Add_eq_ok.mp houtput
        obtain ⟨hfits₂, rfl⟩ := u128Mul_eq_ok.mp hproduct
        obtain ⟨hfits₃, rfl⟩ := u128Mul_eq_ok.mp hdivisor
        obtain ⟨hfits₄, rfl⟩ := u128Add_eq_ok.mp hnext
        rw [if_pos ⟨hfits₁, hfits₂, hfits₃, hfits₄⟩]
        exact ih.mp h
      · intro h
        split_ifs at h with hfits
        rw [u128Add_eq_ok.mpr ⟨hfits.1, rfl⟩, bind_ok, u128Mul_eq_ok.mpr ⟨hfits.2.1, rfl⟩, bind_ok,
          u128Mul_eq_ok.mpr ⟨hfits.2.2.1, rfl⟩, bind_ok, u128Add_eq_ok.mpr ⟨hfits.2.2.2, rfl⟩, bind_ok]
        exact ih.mpr h

def eip4844BlobFee (excessBlobGas : Nat) : Nat := value 1 excessBlobGas 3338477

theorem eip4844BlobFee_mono (h : excessBlobGas ≤ excessBlobGas') :
    eip4844BlobFee excessBlobGas ≤ eip4844BlobFee excessBlobGas' := fromTerm_mono h le_rfl le_rfl

theorem calculateBaseFeePerBlobGas_eq_ok {parentHeader fee} :
    (calculateBaseFeePerBlobGas parentHeader : Outcome ε UInt64) = .ok fee ↔
      boundedFrom wordSize (parentHeader.excessBlobGas.getD 0).toNat 3338477 wordSize 1 0 3338477 =
        some fee.toNat := by
  have hfirst : (Rust.u64Mul MIN_BASE_FEE_PER_BLOB_GAS BLOB_BASE_FEE_UPDATE_FRACTION : Outcome ε UInt64) =
      .ok 3338477 := by
    rw [u64Mul_eq_ok]
    rfl
  rw [calculateBaseFeePerBlobGas, fakeExponential, hfirst, bind_ok, fakeExponentialFrom_eq_ok]
  rfl

theorem levm_fakeExponential_eq_ok :
    (Levm.fakeExponential 1 excessBlobGas 3338477 : Outcome ε Nat) = .ok fee ↔
      boundedFrom Levm.u128Size excessBlobGas 3338477 (Levm.u128Size + 1) 1 0 3338477 = some fee :=
  levm_fakeExponentialFrom_eq_ok

/-- The largest excess for which `u64` is enough. -/
theorem bounded_64_iff :
    (boundedFrom wordSize excessBlobGas 3338477 wordSize 1 0 3338477).isSome ↔ excessBlobGas ≤ 46488065 := by
  constructor
  · intro h
    by_contra hlarge
    have hnext := boundedFrom_mono (Nat.lt_of_not_le hlarge) le_rfl le_rfl h
    revert hnext
    decide +kernel
  · intro hle
    refine boundedFrom_mono hle le_rfl le_rfl ?_
    decide +kernel

theorem calculateBaseFeePerBlobGas_returns_iff :
    (∃ fee, (calculateBaseFeePerBlobGas header : Outcome ε UInt64) = .ok fee) ↔
      (header.excessBlobGas.getD 0).toNat ≤ 46488065 := by
  rw [← bounded_64_iff, Option.isSome_iff_exists]
  constructor
  · rintro ⟨fee, hfee⟩
    exact ⟨_, calculateBaseFeePerBlobGas_eq_ok.mp hfee⟩
  · rintro ⟨n, hn⟩
    have hlargest : boundedFrom wordSize 46488065 3338477 wordSize 1 0 3338477 = some 1115632 := by
      decide +kernel
    have hle : eip4844BlobFee (header.excessBlobGas.getD 0).toNat ≤ eip4844BlobFee 46488065 :=
      eip4844BlobFee_mono (bounded_64_iff.mp (Option.isSome_iff_exists.mpr ⟨n, hn⟩))
    have hvalue : eip4844BlobFee (header.excessBlobGas.getD 0).toNat = n := boundedFrom_exact hn
    have hvalue' : eip4844BlobFee 46488065 = 1115632 := boundedFrom_exact hlargest
    rw [hvalue, hvalue'] at hle
    obtain ⟨fee, hfee⟩ := exists_toNat_eq (hle.trans_lt (by decide))
    exact ⟨fee, calculateBaseFeePerBlobGas_eq_ok.mpr (hfee ▸ hn)⟩

/-- The largest excess with a fee that fits in a `u64`, for which `u128` is enough. -/
theorem bounded_128 (h : eip4844BlobFee excessBlobGas < 2 ^ 64) :
    (boundedFrom Levm.u128Size excessBlobGas 3338477 (Levm.u128Size + 1) 1 0 3338477).isSome := by
  have hnext : boundedFrom Levm.u128Size 148099579 3338477 (Levm.u128Size + 1) 1 0 3338477 =
      some 18446744762204311910 := by decide +kernel
  rcases lt_or_ge excessBlobGas 148099579 with hlt | hge
  · refine boundedFrom_mono hlt.le le_rfl le_rfl ?_
    rw [hnext]
    rfl
  · have hmono := eip4844BlobFee_mono hge
    have hvalue : eip4844BlobFee 148099579 = 18446744762204311910 := boundedFrom_exact hnext
    rw [hvalue] at hmono
    exact absurd (hmono.trans_lt h) (by decide)

theorem levm_fakeExponential_exact (h : eip4844BlobFee excessBlobGas < 2 ^ 64) :
    (Levm.fakeExponential 1 excessBlobGas 3338477 : Outcome ε Nat) = .ok (eip4844BlobFee excessBlobGas) := by
  obtain ⟨fee, hfee⟩ := Option.isSome_iff_exists.mp (bounded_128 h)
  rw [levm_fakeExponential_eq_ok, hfee, ← boundedFrom_exact hfee]
  rfl

/-- If the fee of EIP-4844 fits in a `u64`, the EVM computes it, and the code for headers does so exactly up to
some excess blob gas. Beyond that a product overflows, long before the fee does. -/
theorem blob_fee_exact_iff (parentHeader : BlockHeader)
    (hfits : eip4844BlobFee (parentHeader.excessBlobGas.getD 0).toNat < 2 ^ 64) :
    (Levm.fakeExponential 1 (parentHeader.excessBlobGas.getD 0).toNat 3338477 : Outcome ε Nat) =
        .ok (eip4844BlobFee (parentHeader.excessBlobGas.getD 0).toNat) ∧
    ((∃ fee, (calculateBaseFeePerBlobGas parentHeader : Outcome ε UInt64) = .ok fee ∧
        fee.toNat = eip4844BlobFee (parentHeader.excessBlobGas.getD 0).toNat) ↔
      (parentHeader.excessBlobGas.getD 0).toNat ≤ 46488065) := by
  constructor
  · exact levm_fakeExponential_exact hfits
  · rw [← bounded_64_iff, Option.isSome_iff_exists]
    constructor
    · rintro ⟨fee, hok, -⟩
      exact ⟨fee.toNat, calculateBaseFeePerBlobGas_eq_ok.mp hok⟩
    · rintro ⟨n, hn⟩
      have hvalue : eip4844BlobFee (parentHeader.excessBlobGas.getD 0).toNat = n := boundedFrom_exact hn
      obtain ⟨fee, hfee⟩ := Rust.exists_toNat_eq hfits
      exact ⟨fee, calculateBaseFeePerBlobGas_eq_ok.mpr (by rw [hn, hfee, hvalue]), hfee⟩

def headerWithExcess (excessBlobGas : UInt64) : BlockHeader :=
  { plainHeader with gasLimit := 30000000, excessBlobGas := some excessBlobGas }

theorem eip4844BlobFee_eq
    (h : boundedFrom Levm.u128Size excessBlobGas 3338477 (Levm.u128Size + 1) 1 0 3338477 = some fee) :
    eip4844BlobFee excessBlobGas = fee := boundedFrom_exact h

theorem blob_fee_exact_iff_headerWithExcess :
    eip4844BlobFee 10000000 < 2 ^ 64 ∧
    (Levm.fakeExponential 1 10000000 3338477 : Outcome Empty Nat) = .ok (eip4844BlobFee 10000000) ∧
    ((∃ fee, (calculateBaseFeePerBlobGas (headerWithExcess 10000000) : Outcome Empty UInt64) = .ok fee ∧
        fee.toNat = eip4844BlobFee 10000000) ↔ 10000000 ≤ 46488065) := by
  have hfee : eip4844BlobFee 10000000 = 19 := eip4844BlobFee_eq (by decide +kernel)
  have hfits : eip4844BlobFee 10000000 < 2 ^ 64 := by
    rw [hfee]
    decide
  exact ⟨hfits, blob_fee_exact_iff (headerWithExcess 10000000) hfits⟩

/-- The fee is about a million. -/
theorem blob_fee_product_overflows :
    eip4844BlobFee 46488066 = 1115632 ∧
    (Levm.fakeExponential 1 46488066 3338477 : Outcome Empty Nat) = .ok 1115632 ∧
    (calculateBaseFeePerBlobGas (headerWithExcess 46488066) : Outcome Empty UInt64) =
      Outcome.panic "attempt to multiply with overflow" :=
  ⟨eip4844BlobFee_eq (by decide +kernel), by decide +kernel, by decide +kernel⟩

/-- Where the fee fits in a `u64` none of the `u128` steps of the EVM overflows, what comes out is the fee, and it does
not go down with a higher excess. -/
theorem levm_blob_fee_exact_mono (excessBlobGas : Nat) (hfits : eip4844BlobFee excessBlobGas < 2 ^ 64) :
    (Levm.fakeExponential 1 excessBlobGas 3338477 : Outcome ε Nat) = .ok (eip4844BlobFee excessBlobGas) ∧
    ∀ lower ≤ excessBlobGas, ∃ fee, (Levm.fakeExponential 1 lower 3338477 : Outcome ε Nat) = .ok fee ∧
      fee ≤ eip4844BlobFee excessBlobGas := by
  refine ⟨levm_fakeExponential_exact hfits, fun lower hle => ?_⟩
  have hmono := eip4844BlobFee_mono hle
  exact ⟨_, levm_fakeExponential_exact (hmono.trans_lt hfits), hmono⟩

theorem levm_blob_fee_exact_mono_nineteen :
    eip4844BlobFee 10000000 < 2 ^ 64 ∧
    (Levm.fakeExponential 1 10000000 3338477 : Outcome Empty Nat) = .ok (eip4844BlobFee 10000000) ∧
    ∀ lower ≤ 10000000, ∃ fee, (Levm.fakeExponential 1 lower 3338477 : Outcome Empty Nat) = .ok fee ∧
      fee ≤ eip4844BlobFee 10000000 := by
  have hfee : eip4844BlobFee 10000000 = 19 := eip4844BlobFee_eq (by decide +kernel)
  have hfits : eip4844BlobFee 10000000 < 2 ^ 64 := by
    rw [hfee]
    decide
  exact ⟨hfits, levm_blob_fee_exact_mono 10000000 hfits⟩

end EthereumRust.Core
