import EthereumRust.Trie.NibbleView

/-! # Paths as lists

Two functions go wrong at an edge: the length check of `skip_prefix` takes in the bytes
already walked, and `count_prefix_vec` does not know the second form of an empty vector. -/

namespace EthereumRust.Mpt
open Nibble Outcome NibbleVec

variable {ε : Type}

namespace NibbleSlice

variable {s t : NibbleSlice} {v w : NibbleVec} {p q : List Nibble} {pos : Nat}

theorem iter_of_data_nil (hd : v.data = []) : v.iter = [] := by
  rw [NibbleVec.iter, hd]
  rfl

theorem not_iter_prefix (halign : (s.offset % 2 != 0) = v.firstIsHalf) (hlen : s.data.length < v.data.length)
    (hne : v.iter ≠ []) : ¬ v.iter <+: s.rest := by
  intro hpre
  have hd : v.data ≠ [] := fun hd => hne (iter_of_data_nil hd)
  have hsize := (holds_iter hd).size
  have hle := hpre.length_le
  have hpos := List.length_pos_iff.mpr hne
  have hl := Bool.toNat_le v.lastIsHalf
  rw [← halign, toNat_odd] at hsize
  rw [rest_length] at hle
  omega

theorem skipPrefix_inside (halign : (s.offset % 2 != 0) = v.firstIsHalf)
    (hend : s.offset / 2 + v.data.length ≤ s.data.length) :
    (skipPrefix s v : Outcome ε (Bool × NibbleSlice)) =
      .ok (if v.iter <+: s.rest then (true, s.offsetAdd v.iter.length) else (false, s)) := by
  by_cases hne : v.iter = []
  · have hassert : ((s.offset % 2 != 0) == v.firstIsHalf) = true := by rw [halign]; simp
    have hempty : (v.data.isEmpty || (v.data.length == 1 && v.firstIsHalf && v.lastIsHalf)) = true := by
      by_cases hd : v.data = []
      · simp [hd]
      · have hv := holds_iter hd
        rw [hne] at hv
        obtain rfl | ⟨b, rfl⟩ := hv.nil_cases <;> rfl
    rw [hne, skipPrefix, hassert]
    rw [if_neg (by omega), Rust.slice_ok (by omega) hend, bind_ok, if_pos hempty]
    rfl
  · have hd : v.data ≠ [] := fun hd => hne (iter_of_data_nil hd)
    have hv := holds_iter hd
    have hsize := hv.size
    rw [← halign, toNat_odd] at hsize
    exact skipPrefix_spec hv hne halign (by rw [rest_length]; omega)

/-- `skip_prefix` strips a list from the front of what is left, except where its length
check, which takes in the bytes already walked, lets a vector pass that ends behind the data. -/
theorem skipPrefix_strips_iff (halign : (s.offset % 2 != 0) = v.firstIsHalf) :
    (skipPrefix s v : Outcome ε (Bool × NibbleSlice)) =
        .ok (if v.iter <+: s.rest then (true, s.offsetAdd v.iter.length) else (false, s)) ↔
      s.offset / 2 + v.data.length ≤ s.data.length ∨ (s.data.length < v.data.length ∧ v.iter ≠ []) := by
  by_cases hend : s.offset / 2 + v.data.length ≤ s.data.length
  · exact iff_of_true (skipPrefix_inside halign hend) (.inl hend)
  · by_cases hlen : s.data.length < v.data.length
    · rw [skipPrefix_short halign hlen]
      by_cases hne : v.iter = []
      · simp [hne, hend]
      · rw [if_neg ( not_iter_prefix halign hlen hne)]
        simp [hne, hlen]
    · rw [skipPrefix_stuck halign (by omega) (by omega)]
      simp [hend, hlen]

theorem skipPrefix_strips_half :
    (skipPrefix ⟨[0x12, 0x34], 1⟩ ⟨[0xF2, 0x3F], true, true⟩ : Outcome Empty (Bool × NibbleSlice)) =
      .ok (true, ⟨[0x12, 0x34], 3⟩) := by
  have h := (skipPrefix_strips_iff (ε := Empty) (s := ⟨[0x12, 0x34], 1⟩) (v := ⟨[0xF2, 0x3F], true, true⟩) rfl).mpr
    (.inl (by decide))
  rw [h]
  decide +kernel

/-- Nothing is left of the path, and the vector is as long as the path as a whole. -/
theorem skipPrefix_walked :
    (skipPrefix ⟨[0x12], 2⟩ ⟨[0x34], false, false⟩ : Outcome Empty (Bool × NibbleSlice)) =
      .error (.panic "range out of bounds for slice") := rfl

theorem countAligned_unused {b : UInt8} : (countAligned s ⟨[b], true, true⟩ : Outcome ε Nat) ≠ .ok n := by
  intro h
  obtain ⟨mine, -, h⟩ := bind_ok_inv h
  cases h

/-- `count_prefix_vec` compares the half that does not count of a vector without half-bytes. -/
theorem countPrefixVec_nil (hv : v.Holds []) (halign : (s.offset % 2 != 0) = v.firstIsHalf) :
    (countPrefixVec s v : Outcome ε Nat) = .ok 0 ↔ ∀ b, v.data = [b] → s.rest.head? ≠ some (low b) := by
  obtain rfl | ⟨b, rfl⟩ := hv.nil_cases
  · exact iff_of_true rfl nofun
  · have hassert : ((s.offset % 2 != 0) == true) = true := by rw [halign]; rfl
    rw [countPrefixVec, hassert]
    simp only [List.isEmpty_cons, Bool.false_eq_true, if_false, if_true, Rust.assert_true, bind_ok,
      Rust.index, List.getElem?_cons_zero, next_eq]
    cases s.rest.head? with
    | none => simp
    | some x =>
      simp only [Option.map_some]
      by_cases hx : x = low b
      · subst hx
        rw [if_pos (by rw [toByte_low]; simp)]
        refine iff_of_false (fun h => ?_) (by simp)
        obtain ⟨n, hn, -⟩ := bind_ok_inv h
        exact countAligned_unused hn
      · rw [if_neg (fun h => hx (toByte_injective (by rw [toByte_low]; simpa using h)))]
        simpa using hx

theorem countPrefixSlice_iff (hs : s.offset ≤ 2 * s.data.length) (ht : t.offset ≤ 2 * t.data.length) :
    (countPrefixSlice s t : Outcome ε Nat) = .ok (lcp s.rest t.rest) ↔ s.offset = t.offset := by
  refine ⟨fun h => ?_, fun h => countPrefixSlice_spec h hs (h ▸ ht)⟩
  obtain ⟨_, hassert, -⟩ := bind_ok_inv h
  by_contra hne
  rw [beq_false_of_ne hne] at hassert
  cases hassert

/-- Slices and vectors are lists of half-bytes, with one exception: a vector that has one byte
of which no half counts is an empty list, but `count_prefix_vec` looks at that byte. -/
theorem nibbles_as_lists (hs : s.offset ≤ 2 * s.data.length) (ht : t.offset ≤ 2 * t.data.length)
    (hv : v.At p pos) (hw : w.Holds q) :
    (∀ k ≤ s.rest.length, ∃ u, (s.splitToVec k : Outcome ε NibbleVec) = .ok u ∧ u.Holds (s.rest.take k) ∧
      u.firstIsHalf = (s.offset % 2 != 0) ∧ u.lastIsHalf = ((s.offset + k) % 2 != 0)) ∧
    ((s.offset % 2 != 0) = v.firstIsHalf → ((s.countPrefixVec v : Outcome ε Nat) = .ok (lcp s.rest p) ↔
      (p = [] → ∀ b, v.data = [b] → s.rest.head? ≠ some (low b)))) ∧
    ((s.countPrefixSlice t : Outcome ε Nat) = .ok (lcp s.rest t.rest) ↔ s.offset = t.offset) ∧
    (∀ l x r, p = l ++ x :: r → ∃ vl vr, (v.splitExtractAt l.length : Outcome ε _) = .ok (vl, x, vr) ∧
      vl.At l pos ∧ vr.At r (pos + l.length + 1)) ∧
    (∀ x, ∃ u, (v.prepend x : Outcome ε NibbleVec) = .ok u ∧ u.Holds (x :: p) ∧
      u.firstIsHalf = !v.firstIsHalf ∧ u.lastIsHalf = v.lastIsHalf) ∧
    (v.lastIsHalf = w.firstIsHalf → ∃ u, (v.extend w : Outcome ε NibbleVec) = .ok u ∧ u.Holds (p ++ q) ∧
      u.firstIsHalf = v.firstIsHalf ∧ u.lastIsHalf = w.lastIsHalf) ∧
    v.normalize.At p pos := by
  refine ⟨fun k hk => ?_, fun halign => ?_, countPrefixSlice_iff hs ht, ?_, fun x => prepend_spec hv.holds x,
    fun halign => extend_spec hv.holds hw halign, ?_⟩
  · rw [rest_length] at hk
    obtain ⟨u, hu, hholds, hfirst⟩ := splitToVec_spec (ε := ε) (s := s) (k := k) (by omega)
    have hlast := hholds.last hfirst
    rw [List.length_take, rest_length, Nat.min_eq_left hk] at hlast
    exact ⟨u, hu, hholds, hfirst, hlast⟩
  · by_cases hp : p = []
    · subst hp
      simpa using countPrefixVec_nil hv.holds halign
    · exact iff_of_true (countPrefixVec_spec hv.holds hp halign hs) fun h => absurd h hp
  · rintro l x r rfl
    obtain ⟨vl, vr, hrun, hl, hr, -⟩ := splitExtractAt_spec (ε := ε) hv.holds
    have hpar : v.firstIsHalf.toNat = pos % 2 := by rw [hv.first (by simp), toNat_odd]
    rw [hpar] at hl hr
    refine ⟨vl, vr, hrun, hl.holds.at fun h => ?_, hr.holds.at fun h => ?_⟩
    · rw [hl.first h, Nat.mod_mod]
    · rw [hr.first h, (by omega : (pos % 2 + l.length + 1) % 2 = (pos + l.length + 1) % 2)]
  · refine (normalize_holds hv.holds).at fun hp => ?_
    rw [normalize_of_ne hv.holds hp, hv.first hp]

theorem nibbles_as_lists_split : ∃ u, (splitToVec ⟨[0x12, 0x34], 1⟩ 2 : Outcome Empty NibbleVec) = .ok u ∧
    u.Holds [2, 3] ∧ u.firstIsHalf = true ∧ u.lastIsHalf = true :=
  (nibbles_as_lists (ε := Empty) (s := ⟨[0x12, 0x34], 1⟩) (t := ⟨[], 0⟩) (by decide) (by decide)
    (⟨⟨[1], [], rfl, rfl, rfl⟩, fun _ => rfl, fun _ => rfl⟩ : NibbleVec.At ⟨[0x12], true, false⟩ [2] 1)
    (w := ⟨[], false, false⟩) (q := []) ⟨[], [], rfl, rfl, rfl⟩).1 2 (by decide)

/-- No half-byte of the path taken at an odd offset, and the path compared with it. -/
theorem countPrefixVec_unused :
    (splitToVec ⟨[0x12], 1⟩ 0 : Outcome Empty NibbleVec) = .ok ⟨[0x12], true, true⟩ ∧
      NibbleVec.Holds ⟨[0x12], true, true⟩ [] ∧
      (countPrefixVec ⟨[0x12], 1⟩ ⟨[0x12], true, true⟩ : Outcome Empty Nat) =
        .error (.panic "range out of bounds for slice") ∧
      (countPrefixVec ⟨[0x12], 1⟩ ⟨[0x13], true, true⟩ : Outcome Empty Nat) = .ok 0 :=
  ⟨rfl, ⟨[1], [2], rfl, rfl, rfl⟩, rfl, rfl⟩

end NibbleSlice
end EthereumRust.Mpt
