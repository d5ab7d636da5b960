import Mathlib.Data.Nat.Digits.Lemmas

/-! # Byte strings as big-endian numbers

The shortest form, which does not start with a zero byte, and the form of a fixed width. -/

namespace EthereumRust
open List Nat

abbrev ByteString := List UInt8

/-- The number a byte string stands for, most significant byte first. -/
def beNat (b : ByteString) : Nat := Nat.ofDigits 256 (b.reverse.map UInt8.toNat)

/-- The shortest byte string of a number. -/
def beMin (k : Nat) : ByteString := (Nat.digits 256 k).reverse.map UInt8.ofNat

/-- The `w` low bytes of a number. -/
def beBytes : Nat → Nat → ByteString
  | 0, _ => []
  | w + 1, k => UInt8.ofNat (k / 256 ^ w) :: beBytes w k

@[simp] theorem length_beBytes (w k : Nat) : (beBytes w k).length = w := by
  induction w with
  | zero => rfl
  | succ w ih => simp [beBytes, ih]

@[simp] theorem beNat_nil : beNat [] = 0 := rfl

theorem beNat_cons (x : UInt8) (b : ByteString) :
    beNat (x :: b) = x.toNat * 256 ^ b.length + beNat b := by
  simp only [beNat, reverse_cons, map_append, ofDigits_append, length_map,
    length_reverse, map_cons, map_nil, ofDigits_singleton]
  ring

variable (b : ByteString)

theorem beNat_lt : beNat b < 256 ^ b.length := by
  have h := ofDigits_lt_base_pow_length (b := 256) (l := b.reverse.map UInt8.toNat)
    (by norm_num) (fun x hx => by
      obtain ⟨y, -, rfl⟩ := mem_map.mp hx
      exact UInt8.toNat_lt y)
  simpa [beNat] using h

theorem toNat_map_ofNat {ds : List Nat} (h : ∀ d ∈ ds, d < 256) :
    (ds.map UInt8.ofNat).map UInt8.toNat = ds := by
  rw [map_map]
  conv_rhs => rw [← map_id ds]
  apply map_congr_left
  intro d hd
  have := h d hd
  simp only [Function.comp, UInt8.toNat_ofNat', id]
  omega

@[simp] theorem beNat_beMin (k : Nat) : beNat (beMin k) = k := by
  have h : ((beMin k).reverse).map UInt8.toNat = Nat.digits 256 k := by
    rw [beMin, ← map_reverse, reverse_reverse]
    exact toNat_map_ofNat fun d hd => digits_lt_base (by norm_num) hd
  rw [beNat, h, ofDigits_digits]

theorem beMin_injective (h : beMin k = beMin l) : k = l := by
  rw [← beNat_beMin k, h, beNat_beMin]

@[simp] theorem beMin_zero : beMin 0 = [] := rfl

/-- A byte string that does not start with zero is the shortest of its number. -/
theorem beMin_beNat {b : ByteString} (h : b.head? ≠ some 0) : beMin (beNat b) = b := by
  have hdig : Nat.digits 256 (beNat b) = b.reverse.map UInt8.toNat := by
    apply digits_ofDigits 256 (by norm_num)
    · intro d hd
      obtain ⟨y, -, rfl⟩ := mem_map.mp hd
      exact UInt8.toNat_lt y
    · intro hne hlast
      cases b with
      | nil => exact hne rfl
      | cons x b =>
        apply h
        have hx : x.toNat = 0 := by simpa using hlast
        rw [List.head?_cons, UInt8.toNat_inj.mp (hx.trans UInt8.toNat_zero.symm)]
  rw [beMin, hdig, ← map_reverse, reverse_reverse, map_map]
  conv_rhs => rw [← map_id b]
  apply map_congr_left
  intro x _
  simp

theorem head?_beMin (k : Nat) : (beMin k).head? ≠ some 0 := by
  by_cases hk : k = 0
  · simp [hk]
  · have hne : Nat.digits 256 k ≠ [] := digits_ne_nil_iff_ne_zero.mpr hk
    have hlast := getLast_digit_ne_zero 256 hk
    have hlt := digits_lt_base (b := 256) (by norm_num) (getLast_mem hne)
    rw [beMin, List.head?_map, List.head?_reverse, List.getLast?_eq_getLast_of_ne_nil hne]
    intro h
    have h0 : UInt8.ofNat ((Nat.digits 256 k).getLast hne) = 0 := by simpa using h
    have := congrArg UInt8.toNat h0
    rw [UInt8.toNat_ofNat', UInt8.toNat_zero] at this
    omega

theorem length_beMin_le : (beMin k).length ≤ w ↔ k < 256 ^ w := by
  rw [beMin, length_map, length_reverse, digits_length_le_iff (by norm_num)]

theorem length_beMin_pos (h : k ≠ 0) : 0 < (beMin k).length := by
  rw [beMin, length_map, length_reverse]
  exact length_pos_iff.mpr (digits_ne_nil_iff_ne_zero.mpr h)

theorem beNat_beBytes (w k : Nat) : beNat (beBytes w k) = k % 256 ^ w := by
  induction w with
  | zero => simp [beBytes, mod_one]
  | succ w ih =>
    rw [beBytes, beNat_cons, ih, length_beBytes, UInt8.toNat_ofNat', pow_succ 256 w, mod_mul]
    ring

theorem beNat_dropWhile : beNat (b.dropWhile (· == 0)) = beNat b := by
  induction b with
  | nil => rfl
  | cons x b ih =>
    by_cases hx : x = 0
    · subst hx
      simp [beNat_cons, ih]
    · rw [dropWhile_cons_of_neg (by simpa using hx)]

theorem head?_dropWhile : (b.dropWhile (· == 0)).head? ≠ some 0 := by
  induction b with
  | nil => simp
  | cons x b ih =>
    by_cases hx : x = 0
    · subst hx
      simpa using ih
    · rw [dropWhile_cons_of_neg (by simpa using hx)]
      simpa using hx

theorem dropWhile_beBytes (h : k < 256 ^ w) :
    (beBytes w k).dropWhile (· == 0) = beMin k := by
  rw [← beMin_beNat (head?_dropWhile _), beNat_dropWhile, beNat_beBytes, mod_eq_of_lt h]

theorem drop_beBytes (v : Nat) (h : k ≤ w) : (beBytes w v).drop (w - k) = beBytes k v := by
  induction w with
  | zero => rw [le_zero.mp h]; rfl
  | succ w ih =>
    by_cases hk : k = w + 1
    · subst hk; simp
    · rw [show w + 1 - k = (w - k) + 1 by omega, beBytes, drop_succ_cons, ih (by omega)]

theorem beBytes_beNat : beBytes b.length (beNat b) = b := by
  have hlow : ∀ (w k l : Nat), k % 256 ^ w = l % 256 ^ w → beBytes w k = beBytes w l := by
    intro w
    induction w with
    | zero => intros; rfl
    | succ w ih =>
      intro k l hkl
      have hd : k % 256 ^ w = l % 256 ^ w := by
        have := congrArg (· % 256 ^ w) hkl
        simpa [pow_succ, mod_mul_right_mod] using this
      have hq : k / 256 ^ w % 256 = l / 256 ^ w % 256 := by
        rw [← mod_mul_right_div_self, ← mod_mul_right_div_self, ← pow_succ, hkl]
      rw [beBytes, ih k l hd]
      congr 1
      apply UInt8.toNat_inj.mp
      simpa [UInt8.toNat_ofNat] using hq
  induction b with
  | nil => rfl
  | cons x b ih =>
    have hlt := beNat_lt b
    rw [length_cons, beBytes, beNat_cons]
    congr 1
    · rw [mul_comm, mul_add_div (by positivity), div_eq_of_lt hlt]
      simp
    · conv_rhs => rw [← ih]
      apply hlow
      simp

end EthereumRust
