import Mathlib.Data.List.AList
import Mathlib.Tactic.Ring

/-! # Half-bytes

A byte string as the list of its half-bytes, and the hex-prefix coding of such a list. -/

namespace EthereumRust

abbrev Nibble := Fin 16

namespace Nibble

theorem high_bound (b : UInt8) : (b >>> 4).toNat < 16 := by
  have hb := b.toNat_lt
  simp
  omega

theorem low_toNat (b : UInt8) : (b &&& 0x0F).toNat = b.toNat % 16 := by
  exact Nat.and_two_pow_sub_one_eq_mod b.toNat 4

def high (b : UInt8) : Nibble := ⟨(b >>> 4).toNat, high_bound b⟩

def low (b : UInt8) : Nibble :=
  ⟨(b &&& 0x0F).toNat, by rw [low_toNat]; exact Nat.mod_lt _ (by decide)⟩

def toByte (x : Nibble) : UInt8 := UInt8.ofNat x.val

@[simp] theorem val_low (b : UInt8) : (low b).val = b.toNat % 16 := low_toNat b

@[simp] theorem val_high (b : UInt8) : (high b).val = b.toNat / 16 := by
  change (b >>> 4).toNat = _
  rw [UInt8.toNat_shiftRight, Nat.shiftRight_eq_div_pow]
  simp

@[simp] theorem toNat_toByte (x : Nibble) : (toByte x).toNat = x.val := by
  simp only [toByte, UInt8.toNat_ofNat']
  omega

theorem byte_ext (hh : high a = high b) (hl : low a = low b) : a = b := by
  have h1 := congrArg Fin.val hh
  have h2 := congrArg Fin.val hl
  simp only [val_high, val_low] at h1 h2
  apply UInt8.toNat_inj.mp
  omega

theorem low_mask_iff (a b : UInt8) : a &&& 0x0F = b &&& 0x0F ↔ low a = low b := by
  rw [← UInt8.toNat_inj, Fin.ext_iff]
  rfl

theorem high_toNat (b : UInt8) : (b &&& 0xF0).toNat = 16 * (b.toNat / 16) := by
  have hb : ∀ n : Fin 256, (UInt8.ofNat n.val &&& 0xF0).toNat = 16 * (n.val / 16) := by
    decide +kernel
  have h := hb ⟨b.toNat, b.toNat_lt⟩
  simpa using h

theorem high_mask_iff (a b : UInt8) : a &&& 0xF0 = b &&& 0xF0 ↔ high a = high b := by
  rw [← UInt8.toNat_inj, Fin.ext_iff, high_toNat, high_toNat, val_high, val_high]
  omega

def join (x y : Nibble) : UInt8 := (toByte x <<< 4) ||| toByte y

theorem toNat_join (x y : Nibble) : (join x y).toNat = 16 * x.val + y.val := by
  have h : ∀ x y : Fin 16, (join x y).toNat = 16 * x.val + y.val := by decide +kernel
  exact h x y

@[simp] theorem high_join (x y : Nibble) : high (join x y) = x := by
  apply Fin.ext
  rw [val_high, toNat_join]
  omega

@[simp] theorem low_join (x y : Nibble) : low (join x y) = y := by
  apply Fin.ext
  rw [val_low, toNat_join]
  omega

end Nibble

open Nibble List

def nibbles : List UInt8 → List Nibble
  | [] => []
  | b :: bs => high b :: low b :: nibbles bs

@[simp] theorem nibbles_nil : nibbles [] = [] := rfl

@[simp] theorem nibbles_cons (b : UInt8) (bs : List UInt8) :
    nibbles (b :: bs) = high b :: low b :: nibbles bs := rfl

@[simp] theorem nibbles_append (a b : List UInt8) : nibbles (a ++ b) = nibbles a ++ nibbles b := by
  induction a with
  | nil => rfl
  | cons x a ih => simp [ih]

@[simp] theorem length_nibbles (d : List UInt8) : (nibbles d).length = 2 * d.length := by
  induction d with
  | nil => rfl
  | cons b d ih => simp [ih]; omega

theorem nibbles_injective (h : nibbles a = nibbles b) : a = b := by
  induction a generalizing b with
  | nil =>
    cases b with
    | nil => rfl
    | cons y b => simp at h
  | cons x a ih =>
    cases b with
    | nil => simp at h
    | cons y b =>
      simp only [nibbles_cons, List.cons.injEq] at h
      rw [byte_ext h.1 h.2.1, ih h.2.2]

theorem drop_nibbles (d : List UInt8) (k : Nat) : (nibbles d).drop (2 * k) = nibbles (d.drop k) := by
  induction k generalizing d with
  | zero => simp
  | succ k ih =>
    cases d with
    | nil => simp
    | cons b d => rw [show 2 * (k + 1) = 2 * k + 1 + 1 by ring]; simpa using ih d

theorem take_nibbles (d : List UInt8) (k : Nat) : (nibbles d).take (2 * k) = nibbles (d.take k) := by
  induction k generalizing d with
  | zero => simp
  | succ k ih =>
    cases d with
    | nil => simp
    | cons b d => rw [show 2 * (k + 1) = 2 * k + 1 + 1 by ring]; simpa using ih d

theorem isPrefix_of_nibbles (h : nibbles a <+: nibbles b) : a <+: b := by
  have htake := prefix_iff_eq_take.mp h
  rw [length_nibbles, take_nibbles] at htake
  exact prefix_iff_eq_take.mpr (nibbles_injective htake)

theorem getElem?_nibbles (d : List UInt8) (k : Nat) :
    (nibbles d)[k]? = (d[k / 2]?).map (if k % 2 = 0 then high else low) := by
  induction d generalizing k with
  | nil => simp
  | cons b d ih =>
    match k with
    | 0 => simp
    | 1 => simp
    | k + 2 =>
      have h := ih k
      simp only [nibbles_cons, List.getElem?_cons_succ]
      rw [h]
      simp

/-! ## Shared prefixes -/

def lcp {α : Type} [DecidableEq α] : List α → List α → Nat
  | x :: xs, y :: ys => if x = y then lcp xs ys + 1 else 0
  | _, _ => 0

section

variable {α : Type} [DecidableEq α]

@[simp] theorem lcp_nil_left (ys : List α) : lcp [] ys = 0 := by cases ys <;> rfl
@[simp] theorem lcp_nil_right (xs : List α) : lcp xs [] = 0 := by cases xs <;> rfl

theorem lcp_cons (x y : α) (xs ys : List α) :
    lcp (x :: xs) (y :: ys) = if x = y then lcp xs ys + 1 else 0 := rfl

@[simp] theorem lcp_cons_self (x : α) (xs ys : List α) :
    lcp (x :: xs) (x :: ys) = lcp xs ys + 1 := by simp [lcp_cons]

theorem lcp_cons_ne {x y : α} (h : x ≠ y) (xs ys : List α) : lcp (x :: xs) (y :: ys) = 0 := by
  simp [lcp_cons, h]

theorem lcp_append (zs xs ys : List α) : lcp (zs ++ xs) (zs ++ ys) = zs.length + lcp xs ys := by
  induction zs with
  | nil => simp
  | cons z zs ih => simp [ih]; omega

theorem lcp_le_left (xs ys : List α) : lcp xs ys ≤ xs.length := by
  induction xs generalizing ys with
  | nil => simp
  | cons x xs ih =>
    cases ys with
    | nil => simp
    | cons y ys =>
      rw [lcp_cons]
      split
      · have := ih ys; simpa using this
      · simp

theorem lcp_comm (xs ys : List α) : lcp xs ys = lcp ys xs := by
  induction xs generalizing ys with
  | nil => simp
  | cons x xs ih =>
    cases ys with
    | nil => simp
    | cons y ys =>
      rw [lcp_cons, lcp_cons, ih]
      by_cases h : x = y
      · simp [h]
      · simp [h, Ne.symm h]

theorem lcp_le_right (xs ys : List α) : lcp xs ys ≤ ys.length := by
  rw [lcp_comm]; exact lcp_le_left ys xs

theorem take_lcp (xs ys : List α) : xs.take (lcp xs ys) = ys.take (lcp xs ys) := by
  induction xs generalizing ys with
  | nil => simp
  | cons x xs ih =>
    cases ys with
    | nil => simp
    | cons y ys =>
      rw [lcp_cons]
      split
      · rename_i h; simp [h, ih]
      · simp

theorem drop_lcp_ne {xs ys : List α} {x y : α} {as bs : List α}
    (hx : xs.drop (lcp xs ys) = x :: as) (hy : ys.drop (lcp xs ys) = y :: bs) : x ≠ y := by
  induction xs generalizing ys with
  | nil => simp at hx
  | cons a xs ih =>
    cases ys with
    | nil => simp at hy
    | cons b ys =>
      rw [lcp_cons] at hx hy
      split at hx
      · rename_i hab
        rw [if_pos hab] at hy
        exact ih (by simpa using hx) (by simpa using hy)
      · rename_i hab
        rw [if_neg hab] at hy
        simp only [drop_zero, List.cons.injEq] at hx hy
        rw [← hx.1, ← hy.1]
        exact hab

end

/-! ## Hex-prefix coding -/

/-- Half-bytes packed in pairs; an odd one at the end is dropped. -/
def packPairs : List Nibble → List UInt8
  | x :: y :: rest => join x y :: packPairs rest
  | _ => []

@[simp] theorem nibbles_packPairs (xs : List Nibble) (h : xs.length % 2 = 0) :
    nibbles (packPairs xs) = xs := by
  induction xs using packPairs.induct with
  | case1 x y rest ih =>
    simp only [length_cons] at h
    simp [packPairs, ih (by omega)]
  | case2 xs hxs =>
    match xs with
    | [] => rfl
    | [x] => simp at h
    | x :: y :: rest => exact absurd rfl (hxs x y rest)

theorem length_packPairs (xs : List Nibble) : (packPairs xs).length = xs.length / 2 := by
  induction xs using packPairs.induct with
  | case1 x y rest ih => simp [packPairs, ih]; omega
  | case2 xs hxs =>
    match xs with
    | [] => rfl
    | [x] => simp [packPairs]
    | x :: y :: rest => exact absurd rfl (hxs x y rest)

def hexFlag (terminator : Bool) : Nibble := if terminator then 2 else 0

/-- The bytes of a path with its terminator flag: the first half-byte holds the
flag and the parity of the length. -/
def hexPrefix (xs : List Nibble) (terminator : Bool) : List UInt8 :=
  if xs.length % 2 = 0 then join (hexFlag terminator) 0 :: packPairs xs
  else join (hexFlag terminator + 1) (xs.headD 0) :: packPairs xs.tail

theorem length_hexPrefix (xs : List Nibble) (t : Bool) :
    (hexPrefix xs t).length = xs.length / 2 + 1 := by
  unfold hexPrefix
  split
  · simp [length_packPairs]
  · simp only [length_cons, length_packPairs, length_tail]
    omega

theorem hexPrefix_injective
    (h : hexPrefix xs t = hexPrefix ys u) : xs = ys ∧ t = u := by
  have hflag : ∀ {x x' y y' : Nibble} {as bs : List UInt8},
      join x y :: as = join x' y' :: bs → x = x' ∧ y = y' ∧ as = bs := by
    intro x x' y y' as bs he
    have hb := (List.cons.inj he).1
    exact ⟨by rw [← high_join x y, hb, high_join], by rw [← low_join x y, hb, low_join],
      (List.cons.inj he).2⟩
  unfold hexPrefix at h
  -- the four combinations of parities; the flag half-byte tells them apart
  split at h <;> split at h
  · rename_i hx hy
    obtain ⟨hf, -, hp⟩ := hflag h
    refine ⟨?_, by revert hf; cases t <;> cases u <;> decide⟩
    rw [← nibbles_packPairs xs hx, hp, nibbles_packPairs ys hy]
  · obtain ⟨hf, -, -⟩ := hflag h
    exfalso; revert hf; cases t <;> cases u <;> decide
  · obtain ⟨hf, -, -⟩ := hflag h
    exfalso; revert hf; cases t <;> cases u <;> decide
  · rename_i hx hy
    obtain ⟨hf, hd, hp⟩ := hflag h
    refine ⟨?_, by revert hf; cases t <;> cases u <;> decide⟩
    match xs, ys with
    | [], _ => simp at hx
    | _ :: _, [] => simp at hy
    | x :: xs, y :: ys =>
      simp only [length_cons] at hx hy
      simp only [headD_cons] at hd
      simp only [tail_cons] at hp
      rw [hd, ← nibbles_packPairs xs (by omega), hp, nibbles_packPairs ys (by omega)]

/-- The path and the terminator flag that the bytes hold. -/
def readHexPrefix (b : List UInt8) : Option (List Nibble × Bool) :=
  match nibbles b with
  | flag :: x :: p =>
    match flag.val with
    | 0 => some (p, false)
    | 1 => some (x :: p, false)
    | 2 => some (p, true)
    | 3 => some (x :: p, true)
    | _ => none
  | _ => none

theorem readHexPrefix_hexPrefix (p : List Nibble) (t : Bool) :
    readHexPrefix (hexPrefix p t) = some (p, t) := by
  unfold hexPrefix
  split
  · rename_i h
    rw [readHexPrefix, nibbles_cons, nibbles_packPairs p h]
    cases t <;> rfl
  · rename_i h
    cases p with
    | nil => simp at h
    | cons x p =>
      rw [length_cons] at h
      rw [readHexPrefix, nibbles_cons, high_join, low_join, tail_cons,
        nibbles_packPairs p (by omega)]
      cases t <;> rfl

end EthereumRust
