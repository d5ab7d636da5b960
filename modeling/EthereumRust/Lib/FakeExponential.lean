import Mathlib.Tactic.SplitIfs

/-! # A sum for the exponential function in integers

`factor * e ^ (numerator / denominator)` by the terms of the Taylor series, each rounded
down, until one is zero: over the natural numbers, where the sum always ends, and for
machine numbers below some size, where a step may not fit. -/

namespace EthereumRust.FakeExponential

/-- The sum from the `i`-th term on, with what has been added before. -/
def fromTerm (numerator denominator i output term : Nat) : Nat :=
  if term = 0 then output / denominator
  else fromTerm numerator denominator (i + 1) (output + term) (term * numerator / (denominator * i))
termination_by (numerator + 1 - i, term)
decreasing_by
  rename_i hterm
  -- terms may grow up to the index `numerator` and get smaller after it
  rcases Nat.lt_or_ge numerator i with hlt | hle
  · have hfirst : numerator + 1 - (i + 1) = numerator + 1 - i := by omega
    rw [hfirst]
    refine Prod.Lex.right _ ?_
    rcases Nat.eq_zero_or_pos denominator with rfl | hpos
    · rw [Nat.zero_mul, Nat.div_zero]
      omega
    · have hfactor : numerator < denominator * i := Nat.lt_of_lt_of_le hlt (Nat.le_mul_of_pos_left i hpos)
      exact Nat.div_lt_of_lt_mul (by
        rw [Nat.mul_comm (denominator * i)]
        exact Nat.mul_lt_mul_of_pos_left hfactor (by omega))
  · exact Prod.Lex.left _ _ (by omega)

def value (factor numerator denominator : Nat) : Nat :=
  fromTerm numerator denominator 1 0 (factor * denominator)

/-- The same in at most so many rounds, if all numbers stay below `size`. -/
def boundedFrom (size numerator denominator : Nat) : (rounds i output term : Nat) → Option Nat
  | 0, _, _, _ => none
  | rounds + 1, i, output, term =>
    if term = 0 then some (output / denominator)
    else if output + term < size ∧ term * numerator < size ∧ denominator * i < size ∧ i + 1 < size then
      boundedFrom size numerator denominator rounds (i + 1) (output + term) (term * numerator / (denominator * i))
    else none

theorem fromTerm_zero (numerator denominator i output : Nat) :
    fromTerm numerator denominator i output 0 = output / denominator := by
  rw [fromTerm, if_pos rfl]

theorem fromTerm_of_ne_zero (h : term ≠ 0) : fromTerm numerator denominator i output term =
    fromTerm numerator denominator (i + 1) (output + term) (term * numerator / (denominator * i)) := by
  rw [fromTerm, if_neg h]

theorem boundedFrom_exact (h : boundedFrom size numerator denominator rounds i output term = some v) :
    fromTerm numerator denominator i output term = v := by
  induction rounds generalizing i output term with
  | zero => cases h
  | succ rounds ih =>
    unfold boundedFrom at h
    split_ifs at h with hterm hfits
    · rw [hterm, fromTerm_zero, Option.some.inj h]
    · rw [fromTerm_of_ne_zero hterm, ih h]

theorem boundedFrom_mono (hnumerator : numerator' ≤ numerator) (houtput : output' ≤ output) (hterm : term' ≤ term)
    (h : (boundedFrom size numerator denominator rounds i output term).isSome) :
    (boundedFrom size numerator' denominator rounds i output' term').isSome := by
  induction rounds generalizing i output term output' term' with
  | zero => cases h
  | succ rounds ih =>
    unfold boundedFrom at h ⊢
    split_ifs at h with hzero hfits
    · rw [if_pos (by omega)]
      rfl
    · split_ifs with hzero' hfits'
      · rfl
      · exact ih (Nat.add_le_add houtput hterm) (Nat.div_le_div_right (Nat.mul_le_mul hterm hnumerator)) h
      · have hproduct := Nat.mul_le_mul hterm hnumerator
        exact absurd ⟨by omega, by omega, hfits.2.2.1, hfits.2.2.2⟩ hfits'
    · cases h

theorem fromTerm_mono (hnumerator : numerator' ≤ numerator) (houtput : output' ≤ output) (hterm : term' ≤ term) :
    fromTerm numerator' denominator i output' term' ≤ fromTerm numerator denominator i output term := by
  fun_induction fromTerm numerator denominator i output term generalizing output' term' with
  | case1 i output =>
    obtain rfl : term' = 0 := by omega
    rw [fromTerm_zero]
    exact Nat.div_le_div_right houtput
  | case2 i output term hzero ih =>
    rcases Nat.eq_zero_or_pos term' with rfl | hpos
    · have hsmaller : fromTerm numerator' denominator (i + 1) output' 0 ≤ _ := ih (by omega) (Nat.zero_le _)
      rwa [fromTerm_zero] at hsmaller ⊢
    · rw [fromTerm_of_ne_zero (by omega : term' ≠ 0)]
      exact ih (Nat.add_le_add houtput hterm) (Nat.div_le_div_right (Nat.mul_le_mul hterm hnumerator))

end EthereumRust.FakeExponential
