import EthereumRust.Trie.Nibble

/-! # What the path functions compute

A slice stands for `rest`, a vector for the list it `Holds`. -/

namespace EthereumRust.Mpt
open Nibble List Outcome Rust

variable {ε : Type}

/-- The vector stands for `p`: at most one half-byte that does not count on either side. -/
def NibbleVec.Holds (v : NibbleVec) (p : List Nibble) : Prop :=
  ∃ g₁ g₂, nibbles v.data = g₁ ++ p ++ g₂ ∧
    g₁.length = v.firstIsHalf.toNat ∧ g₂.length = v.lastIsHalf.toNat

theorem NibbleVec.Holds.size {v : NibbleVec} (hv : v.Holds p) :
    2 * v.data.length = v.firstIsHalf.toNat + p.length + v.lastIsHalf.toNat := by
  obtain ⟨g₁, g₂, hd, h1, h2⟩ := hv
  have hlen := congrArg List.length hd
  simpa only [length_nibbles, length_append, h1, h2] using hlen

theorem toNat_odd (n : Nat) : (n % 2 != 0).toNat = n % 2 := by
  rcases Nat.mod_two_eq_zero_or_one n with h | h <;> simp [h]

/-- The vector stands for the half-bytes `p` from position `pos` on, and unless there are none
its flags say where they start and where they end. -/
structure NibbleVec.At (v : NibbleVec) (p : List Nibble) (pos : Nat) : Prop where
  holds : v.Holds p
  first : p ≠ [] → v.firstIsHalf = (pos % 2 != 0)
  last : p ≠ [] → v.lastIsHalf = ((pos + p.length) % 2 != 0)

theorem NibbleVec.Holds.last {v : NibbleVec} (hv : v.Holds p) (hfirst : v.firstIsHalf = (pos % 2 != 0)) :
    v.lastIsHalf = ((pos + p.length) % 2 != 0) := by
  have hs := hv.size
  rw [hfirst, toNat_odd] at hs
  cases hl : v.lastIsHalf <;> rw [hl] at hs <;>
    simp only [Bool.toNat_true, Bool.toNat_false] at hs
  · simp only [(by omega : (pos + p.length) % 2 = 0), bne_self_eq_false]
  · simp only [(by omega : (pos + p.length) % 2 = 1)]
    rfl

theorem NibbleVec.Holds.at {v : NibbleVec} (hv : v.Holds p) (hfirst : p ≠ [] → v.firstIsHalf = (pos % 2 != 0)) :
    v.At p pos :=
  ⟨hv, hfirst, fun hp => hv.last (hfirst hp)⟩

/-! ## Lists of half-bytes and the bytes they come from -/

theorem nibbles_eq_cons
    (h : nibbles d = x :: xs) :
    ∃ b bs, d = b :: bs ∧ high b = x ∧ low b :: nibbles bs = xs := by
  cases d with
  | nil => simp at h
  | cons b bs =>
    simp only [nibbles_cons, List.cons.injEq] at h
    exact ⟨b, bs, rfl, h.1, h.2⟩

theorem nibbles_eq_concat
    (h : nibbles d = xs ++ [x]) :
    ∃ bs b, d = bs ++ [b] ∧ low b = x ∧ nibbles bs ++ [high b] = xs := by
  rcases eq_nil_or_concat d with rfl | ⟨bs, b, rfl⟩
  · simp at h
  · refine ⟨bs, b, by simp, ?_⟩
    have h' : (nibbles bs ++ [high b]) ++ [low b] = xs ++ [x] := by simpa using h
    obtain ⟨h1, h2⟩ := append_inj' h' rfl
    exact ⟨by simpa using h2, h1⟩

/-! ## `NibbleSlice` -/

namespace NibbleSlice

variable {s : NibbleSlice} {v : NibbleVec}

theorem rest_length (s : NibbleSlice) : s.rest.length = 2 * s.data.length - s.offset := by
  simp [rest]

theorem rest_offsetAdd (s : NibbleSlice) (k : Nat) : (s.offsetAdd k).rest = s.rest.drop k := by
  simp [rest, offsetAdd]

theorem next_eq (s : NibbleSlice) : s.next = s.rest.head?.map (·, s.offsetAdd 1) := by
  have h := getElem?_nibbles s.data s.offset
  rw [rest, List.head?_drop, h]
  unfold next
  cases s.data[s.offset / 2]? with
  | none => rfl
  | some b =>
    by_cases ho : s.offset % 2 = 0
    · simp [ho]
    · simp [ho]

theorem next_cons (h : s.rest = x :: xs) :
    s.next = some (x, s.offsetAdd 1) := by
  simp [next_eq, h]

theorem next_nil (h : s.rest = []) : s.next = none := by
  simp [next_eq, h]

theorem rest_even (h : s.offset % 2 = 0) :
    s.rest = nibbles (s.data.drop (s.offset / 2)) := by
  conv_lhs => rw [rest, show s.offset = 2 * (s.offset / 2) by omega, drop_nibbles]

theorem rest_odd (h : s.offset % 2 = 1)
    (hd : s.data.drop (s.offset / 2) = b :: bs) : s.rest = low b :: nibbles bs := by
  have he : s.offset = 2 * (s.offset / 2) + 1 := by omega
  rw [rest, he, ← drop_drop, drop_nibbles, hd]
  rfl

theorem drop_succ_of_cons (h : s.offset % 2 = 1)
    (hd : s.data.drop (s.offset / 2) = b :: bs) : s.data.drop ((s.offset + 1) / 2) = bs := by
  rw [show (s.offset + 1) / 2 = s.offset / 2 + 1 by omega, ← drop_drop, hd]
  rfl

theorem exists_drop_odd {d : List UInt8} (h : k % 2 = 1) (hk : k ≤ 2 * d.length) :
    ∃ b bs, d.drop (k / 2) = b :: bs := by
  cases hd : d.drop (k / 2) with
  | nil =>
    have := congrArg List.length hd
    simp only [length_drop, length_nil] at this
    omega
  | cons b bs => exact ⟨b, bs, rfl⟩

theorem cmpRest_spec {other : List UInt8} (hs : s.offset ≤ 2 * s.data.length)
    (ho : s.offset ≤ 2 * other.length) :
    (cmpRest s other : Outcome ε Bool) = .ok (decide (s.rest = (nibbles other).drop s.offset)) := by
  have hr : (nibbles other).drop s.offset = (NibbleSlice.mk other s.offset).rest := rfl
  rw [cmpRest, sliceFrom_ok (by omega), sliceFrom_ok (by omega), hr]
  simp only [bind_ok]
  by_cases h : s.offset % 2 = 0
  · rw [rest_even h, rest_even (s := ⟨other, s.offset⟩) h]
    simp only [h, bne_self_eq_false, Bool.false_eq_true, if_false, pure_eq, Except.ok.injEq]
    exact Bool.eq_iff_iff.mpr (by simpa using ⟨congrArg nibbles, nibbles_injective⟩)
  · have h1 : s.offset % 2 = 1 := by omega
    obtain ⟨a, as, ha⟩ := exists_drop_odd h1 hs
    obtain ⟨b, bs, hb⟩ := exists_drop_odd h1 ho
    rw [rest_odd h1 ha, rest_odd (s := ⟨other, s.offset⟩) h1 hb, ha, hb]
    simp only [h1, Rust.index, List.getElem?_cons_zero, bind_ok]
    have hm : (b &&& 0x0F = a &&& 0x0F) ↔ low a = low b := by rw [low_mask_iff]; exact eq_comm
    by_cases hl : low a = low b
    · have := hm.mpr hl
      simp only [this, hl]
      simp only [bne_self_eq_false]
      simp only [drop_succ_cons, drop_zero, List.cons.injEq, true_and]
      rw [Bool.eq_iff_iff.mpr (show (as == bs) = true ↔ decide (nibbles as = nibbles bs) = true by
        simpa using ⟨congrArg nibbles, nibbles_injective⟩)]
      rfl
    · have hne : b &&& 0x0F ≠ a &&& 0x0F := fun he => hl (hm.mp he)
      simp [hl, bne_iff_ne.mpr hne]

theorem countBytes_fst (a b : List UInt8) : (countBytes a b).1 = lcp (nibbles a) (nibbles b) := by
  induction a, b using countBytes.induct with
  | case1 a as bs ih => simp [countBytes, ih]
  | case2 a as b bs hne hm =>
    have hh := (high_mask_iff a b).mp hm
    have hl : low a ≠ low b := fun hl => hne (byte_ext hh hl)
    simp [countBytes, hne, hm, hh, lcp_cons_ne hl]
  | case3 a as b bs hne hm =>
    have hh : high a ≠ high b := fun hh => hm ((high_mask_iff a b).mpr hh)
    simp [countBytes, hne, hm, lcp_cons_ne hh]
  | case4 a b h =>
    cases a with
    | nil => simp [countBytes]
    | cons x a =>
      cases b with
      | nil => simp [countBytes]
      | cons y b => exact (h x a y b rfl rfl).elim

theorem countBytes_snd (a b : List UInt8) :
    (countBytes a b).2 = true ↔ a = b.take a.length ∨ b = a.take b.length := by
  induction a, b using countBytes.induct with
  | case1 a as bs ih => simp [countBytes, ih]
  | case2 a as b bs hne hm => simp [countBytes, hne, hm, Ne.symm hne]
  | case3 a as b bs hne hm => simp [countBytes, hne, hm, Ne.symm hne]
  | case4 a b h =>
    cases a with
    | nil => simp [countBytes]
    | cons x a =>
      cases b with
      | nil => simp [countBytes]
      | cons y b => exact (h x a y b rfl rfl).elim

theorem countPrefixSlice_spec {t : NibbleSlice} (ho : s.offset = t.offset)
    (hs : s.offset ≤ 2 * s.data.length) (ht : s.offset ≤ 2 * t.data.length) :
    (countPrefixSlice s t : Outcome ε Nat) = .ok (lcp s.rest t.rest) := by
  have hassert : (s.offset == t.offset) = true := by simpa using ho
  rw [countPrefixSlice, hassert]
  rw [sliceFrom_ok (by omega), sliceFrom_ok (by omega)]
  by_cases h : s.offset % 2 = 0
  · have hcut : (s.offset + 1) / 2 = s.offset / 2 := by omega
    rw [rest_even h, rest_even (s := t) (ho ▸ h), hcut, ← ho]
    simp [h, countBytes_fst]
  · have h1 : s.offset % 2 = 1 := by omega
    obtain ⟨a, as, ha⟩ := exists_drop_odd h1 hs
    obtain ⟨b, bs, hb⟩ := exists_drop_odd h1 ht
    have hia : s.data[s.offset / 2]? = some a := by rw [← List.head?_drop, ha]; rfl
    have hib : t.data[s.offset / 2]? = some b := by rw [← List.head?_drop, hb]; rfl
    have hta : s.data.drop ((s.offset + 1) / 2) = as := drop_succ_of_cons h1 ha
    have htb : t.data.drop ((s.offset + 1) / 2) = bs := by
      rw [ho] at hb h1 ⊢; exact drop_succ_of_cons h1 hb
    rw [rest_odd h1 ha, rest_odd (s := t) (ho ▸ h1) (ho ▸ hb), index_ok hia,
      index_ok hib, hta, htb]
    simp only [h1]
    by_cases hl : low a = low b
    · have := (low_mask_iff a b).mpr hl
      simp [this, hl, countBytes_fst]
    · have hne : ¬ a &&& 0x0F = b &&& 0x0F := fun he => hl ((low_mask_iff a b).mp he)
      simp [hne, lcp_cons_ne hl]

/-! ### Comparison with a vector -/

theorem sameTail_spec {b} {l : Bool} {h}
    (ha : nibbles a = p ++ g) (hb : nibbles b = q ++ h) (hg : g.length = l.toNat)
    (hh : h.length = l.toNat) (hpq : p.length = q.length) (hp : p ≠ [] ∨ l = false) :
    (sameTail l a b : Outcome ε Bool) = .ok (decide (p = q)) := by
  cases l with
  | false =>
    have hg0 : g = [] := length_eq_zero_iff.mp hg
    have hh0 : h = [] := length_eq_zero_iff.mp hh
    subst hg0; subst hh0
    simp only [append_nil] at ha hb
    simp only [sameTail, Bool.false_eq_true, if_false, pure_eq, Except.ok.injEq]
    rw [← ha, ← hb]
    apply Bool.eq_iff_iff.mpr
    simp only [beq_iff_eq, decide_eq_true_eq]
    exact ⟨fun he => by rw [he], fun he => (nibbles_injective he).symm⟩
  | true =>
    obtain ⟨z, rfl⟩ := length_eq_one_iff.mp hg
    obtain ⟨w, rfl⟩ := length_eq_one_iff.mp hh
    obtain ⟨as, x, rfl, hx, hpa⟩ := nibbles_eq_concat ha
    obtain ⟨bs, y, rfl, hy, hqb⟩ := nibbles_eq_concat hb
    have hlen : as.length = bs.length := by
      have := congrArg List.length hpa
      have := congrArg List.length hqb
      simp only [length_append, length_nibbles, length_singleton] at *
      omega
    simp only [sameTail, if_true]
    rw [sub_ok (by simp), bind_ok]
    have hi : (bs ++ [y]).length - 1 = bs.length := by simp
    have hxi : (as ++ [x])[bs.length]? = some x := by simp [← hlen]
    have hyi : (bs ++ [y])[bs.length]? = some y := by simp
    rw [hi, index_ok hxi, bind_ok, index_ok hyi, bind_ok]
    have htake : (as ++ [x]).take bs.length = as := by rw [← hlen]; simp
    rw [htake, take_left]
    rw [← hpa, ← hqb]
    by_cases hm : high x = high y
    · have := (high_mask_iff x y).mpr hm
      simp only [this, hm, bne_self_eq_false, Bool.false_eq_true, if_false, pure_eq,
        Except.ok.injEq]
      apply Bool.eq_iff_iff.mpr
      simp only [beq_iff_eq, decide_eq_true_eq, append_left_inj]
      exact ⟨fun he => by rw [he], fun he => (nibbles_injective he).symm⟩
    · have hne : x &&& 0xF0 ≠ y &&& 0xF0 := fun he => hm ((high_mask_iff x y).mp he)
      have hlist : nibbles as ++ [high x] ≠ nibbles bs ++ [high y] := by
        intro he
        have := (append_inj' he rfl).2
        exact hm (by simpa using this)
      simp [bne_iff_ne.mpr hne, hlist]

theorem sameBytes_spec {b} {f l : Bool} {g₁ g₂ h₁ h₂}
    (ha : nibbles a = g₁ ++ p ++ g₂) (hb : nibbles b = h₁ ++ q ++ h₂)
    (hg₁ : g₁.length = f.toNat) (hh₁ : h₁.length = f.toNat)
    (hg₂ : g₂.length = l.toNat) (hh₂ : h₂.length = l.toNat)
    (hpq : p.length = q.length) (hp : p ≠ []) :
    (sameBytes f l a b : Outcome ε Bool) = .ok (decide (p = q)) := by
  cases f with
  | false =>
    have hg0 : g₁ = [] := length_eq_zero_iff.mp hg₁
    have hh0 : h₁ = [] := length_eq_zero_iff.mp hh₁
    subst hg0; subst hh0
    exact sameTail_spec ha hb hg₂ hh₂ hpq (.inl hp)
  | true =>
    obtain ⟨z, rfl⟩ := length_eq_one_iff.mp hg₁
    obtain ⟨w, rfl⟩ := length_eq_one_iff.mp hh₁
    obtain ⟨x, p, rfl⟩ := exists_cons_of_ne_nil hp
    obtain ⟨y, q, rfl⟩ : ∃ y q', q = y :: q' := by
      cases q with
      | nil => simp at hpq
      | cons y q' => exact ⟨y, q', rfl⟩
    obtain ⟨c, as, rfl, -, hc⟩ := nibbles_eq_cons ha
    obtain ⟨d, bs, rfl, -, hd⟩ := nibbles_eq_cons hb
    obtain ⟨hcx, has⟩ := List.cons.inj hc
    obtain ⟨hdy, hbs⟩ := List.cons.inj hd
    simp only [sameBytes, Rust.index, List.getElem?_cons_zero, bind_ok,
      drop_succ_cons, drop_zero]
    by_cases hm : x = y
    · have := (low_mask_iff c d).mpr (by rw [hcx, hdy, hm])
      simp only [this]
      have hside : p ≠ [] ∨ l = false := by
        cases l with
        | false => exact .inr rfl
        | true =>
          left
          rintro rfl
          have hlen : (nibbles _).length = g₂.length := congrArg List.length has
          rw [length_nibbles, hg₂, Bool.toNat_true] at hlen
          omega
      rw [sameTail_spec has hbs hg₂ hh₂ (by simpa using hpq) hside]
      simp [hm]
    · have hne : c &&& 0x0F ≠ d &&& 0x0F := fun he => hm (by rw [← hcx, ← hdy, (low_mask_iff c d).mp he])
      simp [bne_iff_ne.mpr hne, hm]

theorem window_split (s : NibbleSlice) (hf : f = s.offset % 2) (hm : 2 * m = f + k + l)
    (hle : s.offset / 2 + m ≤ s.data.length) :
    ∃ h₁ h₂, nibbles ((s.data.take (s.offset / 2 + m)).drop (s.offset / 2)) =
        h₁ ++ s.rest.take k ++ h₂ ∧ h₁.length = f ∧ h₂.length = l := by
  have hw : nibbles ((s.data.take (s.offset / 2 + m)).drop (s.offset / 2)) =
      ((nibbles s.data).drop (2 * (s.offset / 2))).take (2 * m) := by
    rw [drop_take, show s.offset / 2 + m - s.offset / 2 = m by omega, drop_nibbles, take_nibbles]
  have hr : s.rest = ((nibbles s.data).drop (2 * (s.offset / 2))).drop f := by
    rw [rest, drop_drop, show 2 * (s.offset / 2) + f = s.offset by omega]
  refine ⟨((nibbles s.data).drop (2 * (s.offset / 2))).take f, (s.rest.drop k).take l, ?_, ?_, ?_⟩
  · rw [hw, hm, hr]
    rw [take_add, take_add]
    simp [Nat.add_assoc]
  · simp only [length_take, length_drop, length_nibbles]
    omega
  · simp only [length_take, length_drop, rest_length]
    omega

/-- `skip_prefix` walks past a vector the path starts with, and else stays. -/
theorem skipPrefix_spec (hv : v.Holds p)
    (hp : p ≠ []) (hoff : (s.offset % 2 != 0) = v.firstIsHalf) (hlen : p.length ≤ s.rest.length) :
    (skipPrefix s v : Outcome ε (Bool × NibbleSlice)) =
      .ok (if p <+: s.rest then (true, s.offsetAdd p.length) else (false, s)) := by
  have hpos := length_pos_iff.mpr hp
  have hsize := hv.size
  have hf := toNat_odd s.offset
  rw [hoff] at hf
  have hle : s.offset / 2 + v.data.length ≤ s.data.length := by
    have := Bool.toNat_le v.lastIsHalf
    rw [rest_length] at hlen
    omega
  obtain ⟨h₁, h₂, hw, hw1, hw2⟩ := window_split s hf hsize hle
  obtain ⟨g₁, g₂, hd, hg1, hg2⟩ := hv
  have hassert : ((s.offset % 2 != 0) == v.firstIsHalf) = true := by rw [hoff]; simp
  rw [skipPrefix, hassert]
  simp only [assert_true, bind_ok]
  rw [if_neg (by omega), slice_ok (by omega) hle, bind_ok]
  have hnonempty : (v.data.isEmpty || (v.data.length == 1 && v.firstIsHalf && v.lastIsHalf)) = false := by
    have hne : v.data ≠ [] := by rintro he; simp [he] at hsize; omega
    rw [Bool.or_eq_false_iff]
    refine ⟨by simpa using hne, ?_⟩
    by_contra hc
    simp only [Bool.not_eq_false, Bool.and_eq_true, beq_iff_eq] at hc
    obtain ⟨⟨hl1, hf1⟩, hl2⟩ := hc
    simp only [hl1, hf1, hl2, Bool.toNat_true] at hsize
    omega
  rw [hnonempty]
  simp only [Bool.false_eq_true, if_false]
  have hplen : p.length = (s.rest.take p.length).length := by simp; omega
  rw [sameBytes_spec hd hw hg1 hw1 hg2 hw2 hplen hp, bind_ok]
  have hiff : p = s.rest.take p.length ↔ p <+: s.rest := prefix_iff_eq_take.symm
  by_cases h : p <+: s.rest
  · rw [if_pos h, decide_eq_true (hiff.mpr h)]
    simp only [if_true, pure_eq, Except.ok.injEq, Prod.mk.injEq, true_and]
    congr 1
    omega
  · rw [if_neg h, decide_eq_false (fun he => h (hiff.mp he))]
    simp

theorem Holds.bytes (hv : v.Holds p) (hoff : v.firstIsHalf = (off % 2 != 0)) :
    v.data.length = (off + p.length + 1) / 2 - off / 2 := by
  have hlen := hv.size
  have hl := Bool.toNat_le v.lastIsHalf
  rw [hoff, toNat_odd] at hlen
  omega

/-- The length check of `skip_prefix` looks at the whole path, not at what is left of it. -/
theorem skipPrefix_short
    (hoff : (s.offset % 2 != 0) = v.firstIsHalf) (hlen : s.data.length < v.data.length) :
    (skipPrefix s v : Outcome ε (Bool × NibbleSlice)) = .ok (false, s) := by
  have hassert : ((s.offset % 2 != 0) == v.firstIsHalf) = true := by rw [hoff]; simp
  rw [skipPrefix, hassert]
  rw [if_pos hlen]
  rfl

theorem skipPrefix_stuck
    (hoff : (s.offset % 2 != 0) = v.firstIsHalf) (hlen : v.data.length ≤ s.data.length)
    (hend : s.data.length < s.offset / 2 + v.data.length) :
    (skipPrefix s v : Outcome ε (Bool × NibbleSlice)) =
      .error (.panic "range out of bounds for slice") := by
  have hassert : ((s.offset % 2 != 0) == v.firstIsHalf) = true := by rw [hoff]; simp
  rw [skipPrefix, hassert]
  rw [if_neg (by omega), Rust.slice, if_neg (by omega)]
  rfl

theorem toByte_high (b : UInt8) : (high b).toByte = b >>> 4 := by
  apply UInt8.toNat_inj.mp
  rw [toNat_toByte]
  rfl

theorem toByte_low (b : UInt8) : (low b).toByte = b &&& 0x0F := by
  apply UInt8.toNat_inj.mp
  rw [toNat_toByte]
  rfl

theorem toByte_injective {x y : Nibble} (h : x.toByte = y.toByte) : x = y := by
  have := congrArg UInt8.toNat h
  rw [toNat_toByte, toNat_toByte] at this
  exact Fin.ext this

theorem lcp_append_of_lt {a b} (c : List Nibble) (h : lcp a b < b.length) :
    lcp a (b ++ c) = lcp a b := by
  induction a generalizing b with
  | nil => simp
  | cons x a ih =>
    cases b with
    | nil => simp at h
    | cons y b =>
      rw [cons_append, lcp_cons, lcp_cons]
      split
      · rename_i hxy
        rw [lcp_cons, if_pos hxy, length_cons] at h
        rw [ih (by omega)]
      · rfl

theorem countAligned_spec
    (he : s.offset % 2 = 0) (hs : s.offset ≤ 2 * s.data.length)
    (hv : nibbles (v.data.drop v.firstIsHalf.toNat) = p ++ g) (hg : g.length = v.lastIsHalf.toNat)
    (hd : v.data ≠ []) (hp : p ≠ [] ∨ v.lastIsHalf = false) :
    (countAligned s v : Outcome ε Nat) = .ok (lcp s.rest p) := by
  have hcut : (s.offset + 1) / 2 = s.offset / 2 := by omega
  have hpos := length_pos_iff.mpr hd
  have hlast : v.lastIsHalf.toNat ≤ 1 := by cases v.lastIsHalf <;> simp
  have hfirst : v.firstIsHalf.toNat ≤ 1 := by cases v.firstIsHalf <;> simp
  rw [countAligned, hcut, sliceFrom_ok (by omega), bind_ok, sub_ok (by omega),
    bind_ok]
  have hlen := congrArg List.length hv
  simp only [length_nibbles, length_drop, length_append, hg] at hlen
  have hle : v.firstIsHalf.toNat ≤ v.data.length - v.lastIsHalf.toNat := by
    rcases hp with hp | hp
    · have := length_pos_iff.mpr hp
      omega
    · rw [hp]; simp; omega
  rw [slice_ok hle (by omega), bind_ok]
  have hrest := rest_even he
  rw [hrest]
  generalize s.data.drop (s.offset / 2) = mine at *
  cases hl : v.lastIsHalf with
  | false =>
    rw [hl] at hg
    have hg0 : g = [] := length_eq_zero_iff.mp hg
    subst hg0
    rw [append_nil] at hv
    simp only [Bool.toNat_false, Nat.sub_zero, take_length, Bool.and_false, Bool.false_and,
      Bool.false_eq_true, if_false, pure_eq, countBytes_fst, hv]
  | true =>
    rw [hl] at hg
    obtain ⟨z, rfl⟩ := length_eq_one_iff.mp hg
    obtain ⟨bs, b, hbs, -, hpb⟩ := nibbles_eq_concat hv
    have hth : (v.data.take (v.data.length - 1)).drop v.firstIsHalf.toNat = bs := by
      rw [drop_take, hbs]
      have := congrArg List.length hbs
      simp only [length_drop, length_append, length_singleton] at this
      rw [show v.data.length - 1 - v.firstIsHalf.toNat = bs.length by omega, take_left]
    have hgl : v.data.getLast? = some b := by
      have : v.data = v.data.take v.firstIsHalf.toNat ++ (bs ++ [b]) := by
        rw [← hbs, take_append_drop]
      rw [this]; simp
    simp only [Bool.toNat_true, hth, hgl, Bool.and_true, Option.map_some, ← hpb, countBytes_fst]
    -- the half after the whole bytes is read only if no byte differed
    by_cases hall : (countBytes mine bs).2 = true
    · rw [hall, Bool.true_and, next_eq, rest_offsetAdd, hrest]
      rcases (countBytes_snd mine bs).mp hall with hpre | hpre
      · obtain ⟨t, ht⟩ : mine <+: bs := prefix_iff_eq_take.mpr hpre
        subst ht
        have hk : lcp (nibbles mine) (nibbles (mine ++ t)) = (nibbles mine).length := by
          rw [nibbles_append]
          simpa using lcp_append (nibbles mine) [] (nibbles t)
        have hk' : lcp (nibbles mine) (nibbles (mine ++ t) ++ [high b]) = (nibbles mine).length := by
          rw [nibbles_append, append_assoc]
          simpa using lcp_append (nibbles mine) [] (nibbles t ++ [high b])
        rw [hk, hk']
        simp
      · obtain ⟨t, ht⟩ : bs <+: mine := prefix_iff_eq_take.mpr hpre
        subst ht
        have hk : lcp (nibbles (bs ++ t)) (nibbles bs) = (nibbles bs).length := by
          rw [nibbles_append]
          simpa using lcp_append (nibbles bs) (nibbles t) []
        rw [hk, nibbles_append, lcp_append, drop_left]
        cases t with
        | nil => simp
        | cons c t =>
          by_cases hcb : high c = high b
          · simp [hcb, toByte_high]
          · have hne : c >>> 4 ≠ b >>> 4 := fun he => hcb (toByte_injective (by
              rw [toByte_high, toByte_high, he]))
            simp [lcp_cons_ne hcb, toByte_high, hne]
    · have hfalse : (countBytes mine bs).2 = false := by simpa using hall
      have hlt : lcp (nibbles mine) (nibbles bs) < (nibbles bs).length := by
        refine Nat.lt_of_le_of_ne (lcp_le_right _ _) (fun hk => hall ?_)
        refine (countBytes_snd mine bs).mpr (.inr (nibbles_injective ?_))
        have := take_lcp (nibbles mine) (nibbles bs)
        rw [hk, take_length, length_nibbles, take_nibbles] at this
        exact this.symm
      rw [hfalse, lcp_append_of_lt [high b] hlt]
      simp

/-- `count_prefix_vec` counts the half-bytes the path and the vector share. -/
theorem countPrefixVec_spec (hv : v.Holds p)
    (hp : p ≠ []) (hoff : (s.offset % 2 != 0) = v.firstIsHalf)
    (hs : s.offset ≤ 2 * s.data.length) :
    (countPrefixVec s v : Outcome ε Nat) = .ok (lcp s.rest p) := by
  obtain ⟨g₁, g₂, hd, h1, h2⟩ := hv
  have hne : v.data ≠ [] := by
    rintro he
    rw [he] at hd
    have := congrArg List.length hd
    have := length_pos_iff.mpr hp
    simp at *
    omega
  have hassert : ((s.offset % 2 != 0) == v.firstIsHalf) = true := by rw [hoff]; simp
  have hempty : v.data.isEmpty = false := by simpa using hne
  rw [countPrefixVec, hempty, hassert]
  simp only [Bool.false_eq_true, if_false, assert_true, bind_ok]
  cases hf : v.firstIsHalf with
  | false =>
    rw [hf] at h1 hoff
    have hg0 : g₁ = [] := length_eq_zero_iff.mp h1
    subst hg0
    exact countAligned_spec (by simpa using hoff) hs (by simpa [hf] using hd) h2 hne (.inl hp)
  | true =>
    rw [hf] at h1 hoff
    have hodd : s.offset % 2 = 1 := by
      have : s.offset % 2 ≠ 0 := by simpa using hoff
      omega
    obtain ⟨z, rfl⟩ := length_eq_one_iff.mp h1
    obtain ⟨x, p, rfl⟩ := exists_cons_of_ne_nil hp
    obtain ⟨b, bs, hdata, -, hb⟩ := nibbles_eq_cons hd
    obtain ⟨hbx, hbs⟩ := List.cons.inj hb
    obtain ⟨a, as, ha⟩ := exists_drop_odd hodd hs
    have hrest := rest_odd hodd ha
    simp only [if_true, hdata, Rust.index, List.getElem?_cons_zero, bind_ok,
      next_cons hrest]
    rw [hrest]
    by_cases hax : low a = x
    · have hb' : low a = low b := by rw [hax, hbx]
      rw [if_pos (by rw [hb', toByte_low]; simp)]
      have hside : p ≠ [] ∨ v.lastIsHalf = false := by
        cases hl : v.lastIsHalf with
        | false => exact .inr rfl
        | true =>
          left
          rintro rfl
          have hlen : (nibbles _).length = g₂.length := congrArg List.length hbs
          rw [length_nibbles, h2, hl, Bool.toNat_true] at hlen
          omega
      have hspec := countAligned_spec (ε := ε) (s := s.offsetAdd 1) (v := v) (p := p) (g := g₂)
        (by simp only [offsetAdd]; omega) (by
          have := congrArg List.length ha
          simp only [length_drop, length_cons] at this
          simp only [offsetAdd]
          omega)
        (by simpa [hdata, hf] using hbs) h2 hne hside
      rw [hspec, rest_offsetAdd, hrest]
      simp [hax]
    · have hne' : (low a).toByte ≠ b &&& 0x0F := by
        rw [← toByte_low]
        exact fun he => hax (by rw [toByte_injective he, hbx])
      rw [if_neg (by simpa using hne'), lcp_cons_ne hax]
      rfl

theorem splitToVec_spec (h : s.offset + k ≤ 2 * s.data.length) :
    ∃ v, (splitToVec s k : Outcome ε NibbleVec) = .ok v ∧ v.Holds (s.rest.take k) ∧
      v.firstIsHalf = (s.offset % 2 != 0) := by
  refine ⟨⟨(s.data.take ((s.offset + k + 1) / 2)).drop (s.offset / 2), s.offset % 2 != 0,
    (s.offset + k) % 2 != 0⟩, ?_, ?_, rfl⟩
  · rw [splitToVec, slice_ok (by omega) (by omega)]
    rfl
  · obtain ⟨h₁, h₂, hw, hw1, hw2⟩ := window_split s (f := s.offset % 2) (l := (s.offset + k) % 2)
      (m := (s.offset + k + 1) / 2 - s.offset / 2) (k := k) rfl (by omega) (by omega)
    rw [show s.offset / 2 + ((s.offset + k + 1) / 2 - s.offset / 2) = (s.offset + k + 1) / 2 by
      omega] at hw
    exact ⟨h₁, h₂, hw, by rw [hw1, toNat_odd], by rw [hw2, toNat_odd]⟩

end NibbleSlice

/-! ## `NibbleVec` -/

namespace NibbleVec
open NibbleSlice

variable {v : NibbleVec}

theorem Holds.len (hv : v.Holds p) :
    (v.len : Outcome ε Nat) = .ok p.length := by
  have hs := hv.size
  rw [NibbleVec.len, sub_ok (by omega), bind_ok, sub_ok (by omega)]
  congr 1
  omega

theorem Holds.isEmpty (hv : v.Holds p) (hp : p ≠ []) :
    v.isEmpty = false := by
  have hs := hv.size
  have hpos := length_pos_iff.mpr hp
  have : v.data ≠ [] := by rintro he; rw [he] at hs; simp at hs; omega
  simpa [NibbleVec.isEmpty] using this

theorem fromSingle_holds (x : Nibble) (b : Bool) : (fromSingle x b).Holds [x] := by
  cases b with
  | true =>
    refine ⟨[high x.toByte], [], ?_, rfl, rfl⟩
    have : low x.toByte = x := by
      apply Fin.ext
      have := x.isLt
      rw [val_low, toNat_toByte]
      omega
    simp [fromSingle, this]
  | false =>
    have hx : ∀ x : Nibble, high (x.toByte <<< 4) = x := by decide +kernel
    exact ⟨[], [low (x.toByte <<< 4)], by simp [fromSingle, hx], rfl, rfl⟩

theorem Holds.nil_cases (hv : v.Holds []) : v = ⟨[], false, false⟩ ∨ ∃ b, v = ⟨[b], true, true⟩ := by
  have hs := hv.size
  obtain ⟨data, first, last⟩ := v
  cases first <;> cases last <;> simp only [Bool.toNat_true, Bool.toNat_false, length_nil] at hs
  case true.true =>
    obtain ⟨b, rfl⟩ := length_eq_one_iff.mp (by omega : data.length = 1)
    exact .inr ⟨b, rfl⟩
  case false.false => exact .inl (by rw [length_eq_zero_iff.mp (by omega : data.length = 0)])
  all_goals omega

theorem normalize_nil (hv : v.Holds []) : v.normalize = ⟨[], false, false⟩ := by
  obtain rfl | ⟨b, rfl⟩ := hv.nil_cases <;> rfl

theorem normalize_of_ne (hv : v.Holds p) (hp : p ≠ []) : v.normalize = v := by
  have hs := hv.size
  have hpos := length_pos_iff.mpr hp
  have hne : v.data.isEmpty = false := by simpa [NibbleVec.isEmpty] using hv.isEmpty hp
  unfold normalize
  rw [if_neg]
  simp only [hne, Bool.false_or, Bool.and_eq_true, beq_iff_eq]
  rintro ⟨⟨h1, h2⟩, h3⟩
  simp only [h1, h2, h3, Bool.toNat_true] at hs
  omega

theorem normalize_holds (hv : v.Holds p) : v.normalize.Holds p := by
  by_cases hp : p = []
  · subst hp
    rw [normalize_nil hv]
    exact ⟨[], [], rfl, rfl, rfl⟩
  · rwa [normalize_of_ne hv hp]

theorem normalize_at (hv : v.Holds p) (hfirst : v.firstIsHalf = (pos % 2 != 0)) : v.normalize.At p pos :=
  (normalize_holds hv).at fun hp => by rw [normalize_of_ne hv hp, hfirst]

theorem normalize_isEmpty (hv : v.Holds p) : v.normalize.isEmpty = p.isEmpty := by
  cases p with
  | nil => rw [normalize_nil hv]; rfl
  | cons x p => rw [normalize_of_ne hv nofun, hv.isEmpty nofun]; rfl

/-- `split_extract_at` splits around one half-byte. -/
theorem splitExtractAt_spec (hv : v.Holds (l ++ x :: r)) :
    ∃ vl vr, (splitExtractAt v l.length : Outcome ε _) = .ok (vl, x, vr) ∧
      vl.At l v.firstIsHalf.toNat ∧ vr.At r (v.firstIsHalf.toNat + l.length + 1) ∧
      vl.isEmpty = l.isEmpty ∧ vr.isEmpty = r.isEmpty := by
  have hs := hv.size
  obtain ⟨g₁, g₂, hd, h1, h2⟩ := hv
  simp only [length_append, length_cons] at hs
  set pos := l.length + v.firstIsHalf.toNat with hpos
  have hcut : (l.length + 1 + v.firstIsHalf.toNat) / 2 = (pos + 1) / 2 := by omega
  -- the byte that holds `x`
  have hx : (nibbles v.data)[pos]? = some x := by
    rw [hd, show pos = (g₁ ++ l).length by simp [h1, hpos, Nat.add_comm],
      show g₁ ++ (l ++ x :: r) ++ g₂ = (g₁ ++ l) ++ x :: (r ++ g₂) by simp]
    simp
  rw [getElem?_nibbles] at hx
  obtain ⟨b, hb, hbx⟩ : ∃ b, v.data[pos / 2]? = some b ∧ (if pos % 2 = 0 then high else low) b = x := by
    cases hb : v.data[pos / 2]? with
    | none => simp [hb] at hx
    | some b => exact ⟨b, rfl, by simpa [hb] using hx⟩
  set left : NibbleVec := ⟨v.data.take ((pos + 1) / 2), v.firstIsHalf, pos % 2 != 0⟩ with hleft
  set right : NibbleVec := ⟨v.data.drop ((pos + 1) / 2), pos % 2 == 0, v.lastIsHalf⟩ with hright
  have hrun : (splitExtractAt v l.length : Outcome ε _) = .ok (left.normalize, x, right.normalize) := by
    have hdrop : (if (pos + 1) / 2 ≥ v.data.length then [] else v.data.drop ((pos + 1) / 2)) =
        v.data.drop ((pos + 1) / 2) := by
      split
      · rw [drop_of_length_le (by omega)]
      · rfl
    have hassert : decide ((pos + v.lastIsHalf.toNat) / 2 < v.data.length) = true := by
      apply decide_eq_true; omega
    rw [splitExtractAt, hcut, slice_ok (Nat.zero_le _) (by omega)]
    simp only [bind_ok, ← hpos, hassert, assert_true, index_ok hb, hdrop,
      drop_zero, pure_eq]
    have hval : (if (pos % 2 != 0) = true then low b else high b) = x := by
      rcases Nat.mod_two_eq_zero_or_one pos with h | h <;> simpa [h] using hbx
    rw [hval]
  have hnl : nibbles (v.data.take ((pos + 1) / 2)) = (nibbles v.data).take (2 * ((pos + 1) / 2)) :=
    (take_nibbles _ _).symm
  have hnr : nibbles (v.data.drop ((pos + 1) / 2)) = (nibbles v.data).drop (2 * ((pos + 1) / 2)) :=
    (drop_nibbles _ _).symm
  -- an even position: the byte of `x` goes right; an odd one: it stays left
  have hholds : left.Holds l ∧ right.Holds r := by
    have hgl : (g₁ ++ l).length = pos := by simp [h1, hpos, Nat.add_comm]
    by_cases he : pos % 2 = 0
    · have h2c : 2 * ((pos + 1) / 2) = pos := by omega
      rw [h2c, hd, show g₁ ++ (l ++ x :: r) ++ g₂ = (g₁ ++ l) ++ ([x] ++ r ++ g₂) by simp] at hnl hnr
      rw [← hgl, take_left] at hnl
      rw [← hgl, drop_left] at hnr
      rw [hgl] at hnl hnr
      exact ⟨⟨g₁, [], by rw [hleft, hnl]; simp, h1, by simp [hleft, he]⟩,
        ⟨[x], g₂, by rw [hright, hnr], by simp [hright, he], h2⟩⟩
    · have he1 : pos % 2 = 1 := by omega
      have h2c : 2 * ((pos + 1) / 2) = pos + 1 := by omega
      have hgx : (g₁ ++ l ++ [x]).length = pos + 1 := by rw [length_append, hgl]; rfl
      rw [h2c, hd, show g₁ ++ (l ++ x :: r) ++ g₂ = (g₁ ++ l ++ [x]) ++ (r ++ g₂) by simp] at hnl hnr
      rw [← hgx, take_left] at hnl
      rw [← hgx, drop_left] at hnr
      rw [hgx, ← h2c, show 2 * ((pos + 1) / 2) / 2 = (pos + 1) / 2 by omega] at hnl hnr
      exact ⟨⟨g₁, [x], by rw [hleft, hnl], h1, by simp [hleft, he1]⟩,
        ⟨[], g₂, by rw [hright, hnr]; simp, by simp [hright, he1], h2⟩⟩
  obtain ⟨hl, hr⟩ := hholds
  refine ⟨left.normalize, right.normalize, hrun, normalize_at hl ?_, normalize_at hr ?_,
    normalize_isEmpty hl, normalize_isEmpty hr⟩
  · change v.firstIsHalf = _
    cases v.firstIsHalf <;> rfl
  · change (pos % 2 == 0) = _
    rw [show v.firstIsHalf.toNat + l.length + 1 = pos + 1 by omega]
    rcases Nat.mod_two_eq_zero_or_one pos with h | h <;> simp [h, Nat.add_mod]

theorem prepend_spec (hv : v.Holds p) (x : Nibble) :
    ∃ w, (prepend v x : Outcome ε NibbleVec) = .ok w ∧ w.Holds (x :: p) ∧
      w.firstIsHalf = !v.firstIsHalf ∧ w.lastIsHalf = v.lastIsHalf := by
  obtain ⟨g₁, g₂, hd, h1, h2⟩ := hv
  cases hf : v.firstIsHalf with
  | true =>
    rw [hf] at h1
    obtain ⟨z, rfl⟩ := length_eq_one_iff.mp h1
    obtain ⟨b, bs, hdata, -, hb⟩ := nibbles_eq_cons hd
    have hjoin : (b &&& (0x0F : UInt8)) ||| (x.toByte <<< 4) = x.join (low b) := by
      rw [Nibble.join, toByte_low, UInt8.or_comm]
    refine ⟨⟨join x (low b) :: bs, false, v.lastIsHalf⟩, ?_, ⟨[], g₂, ?_, rfl, h2⟩, rfl, rfl⟩
    · simp [prepend, hf, hdata, hjoin]
    · simpa using hb
  | false =>
    rw [hf] at h1
    have hg0 : g₁ = [] := length_eq_zero_iff.mp h1
    subst hg0
    refine ⟨⟨x.toByte :: v.data, true, v.lastIsHalf⟩, by simp [prepend, hf],
      ⟨[high x.toByte], g₂, ?_, rfl, h2⟩, rfl, rfl⟩
    have : low x.toByte = x := by
      apply Fin.ext
      have := x.isLt
      rw [val_low, toNat_toByte]
      omega
    simpa [this] using hd

theorem extend_spec {w : NibbleVec} (hv : v.Holds p) (hw : w.Holds q)
    (halign : v.lastIsHalf = w.firstIsHalf) :
    ∃ u, (extend v w : Outcome ε NibbleVec) = .ok u ∧ u.Holds (p ++ q) ∧
      u.firstIsHalf = v.firstIsHalf ∧ u.lastIsHalf = w.lastIsHalf := by
  obtain ⟨g₁, g₂, hd, h1, h2⟩ := hv
  obtain ⟨k₁, k₂, he, e1, e2⟩ := hw
  have hassert : (v.lastIsHalf == w.firstIsHalf) = true := by simpa using halign
  rw [extend, hassert]
  cases hf : w.firstIsHalf with
  | false =>
    have hl : v.lastIsHalf = false := by rw [halign, hf]
    rw [hl] at h2
    rw [hf] at e1
    have hg0 : g₂ = [] := length_eq_zero_iff.mp h2
    have hk0 : k₁ = [] := length_eq_zero_iff.mp e1
    subst hg0; subst hk0
    refine ⟨⟨v.data ++ w.data, v.firstIsHalf, w.lastIsHalf⟩, by simp [fillLast, hl],
      ⟨g₁, k₂, ?_, h1, e2⟩, rfl, rfl⟩
    simp [hd, he]
  | true =>
    have hl : v.lastIsHalf = true := by rw [halign, hf]
    rw [hl] at h2
    rw [hf] at e1
    obtain ⟨z, rfl⟩ := length_eq_one_iff.mp h2
    obtain ⟨y, rfl⟩ := length_eq_one_iff.mp e1
    obtain ⟨bs, b, hvd, -, hb⟩ := nibbles_eq_concat hd
    obtain ⟨o, os, hwd, -, ho⟩ := nibbles_eq_cons he
    have hmix : (b &&& 0xF0) ||| (o &&& 0x0F) = join (high b) (low o) := by
      rw [join, toByte_low]
      congr 1
      apply UInt8.toNat_inj.mp
      have hs : ∀ x : Nibble, (x.toByte <<< 4).toNat = 16 * x.val := by decide +kernel
      rw [high_toNat, hs, val_high]
    refine ⟨⟨(bs ++ [join (high b) (low o)]) ++ os, v.firstIsHalf, w.lastIsHalf⟩, ?_,
      ⟨g₁, k₂, ?_, h1, e2⟩, rfl, rfl⟩
    · rw [fillLast, hl, hvd, hwd]
      simp [hmix, Rust.sliceFrom]
    · have ho' : low o :: nibbles os = q ++ k₂ := by simpa using ho
      have : nibbles (bs ++ [join (high b) (low o)] ++ os) =
          (nibbles bs ++ [high b]) ++ (low o :: nibbles os) := by simp
      rw [this, hb, ho']
      simp

theorem iter_next (hle : v.lastIsHalf.toNat ≤ 2 * v.data.length) :
    (NibbleVecIter.mk v pos).next =
      (((nibbles v.data).take (2 * v.data.length - v.lastIsHalf.toNat))[pos]?).map
        (·, ⟨v, pos + 1⟩) := by
  unfold NibbleVecIter.next
  rw [List.getElem?_take]
  by_cases hin : pos < 2 * v.data.length - v.lastIsHalf.toNat
  · rw [if_pos hin, getElem?_nibbles]
    obtain ⟨b, hb⟩ : ∃ b, v.data[pos / 2]? = some b := by
      rw [List.getElem?_eq_getElem (by omega)]; exact ⟨_, rfl⟩
    have hcond : (pos / 2 + 1 == v.data.length && pos % 2 == 1 && v.lastIsHalf) = false := by
      cases hl : v.lastIsHalf with
      | false => simp
      | true =>
        rw [hl] at hin
        simp only [Bool.toNat_true] at hin
        rw [Bool.and_true, Bool.and_eq_false_iff]
        by_cases hp : pos % 2 = 1
        · left; simp; omega
        · right; simpa using hp
    simp only [hb, hcond]
    by_cases he : pos % 2 = 0 <;> simp [he]
  · rw [if_neg hin]
    cases hb : v.data[pos / 2]? with
    | none => rfl
    | some b =>
      have hlt : pos / 2 < v.data.length := by
        by_contra hc
        rw [List.getElem?_eq_none (by omega)] at hb
        cases hb
      have hl : v.lastIsHalf = true := by
        cases hl : v.lastIsHalf with
        | true => rfl
        | false => rw [hl] at hin; simp at hin; omega
      rw [hl, Bool.toNat_true] at hin
      have hcond : (pos / 2 + 1 == v.data.length && pos % 2 == 1 && v.lastIsHalf) = true := by
        simp only [hl, Bool.and_true, Bool.and_eq_true, beq_iff_eq]
        omega
      simp [hcond]

theorem collect_eq (hle : v.lastIsHalf.toNat ≤ 2 * v.data.length) (fuel pos : Nat)
    (hfuel : 2 * v.data.length ≤ fuel + pos) :
    (NibbleVecIter.mk v pos).collect fuel =
      ((nibbles v.data).take (2 * v.data.length - v.lastIsHalf.toNat)).drop pos := by
  induction fuel generalizing pos with
  | zero =>
    rw [drop_of_length_le (by simp; omega)]
    rfl
  | succ fuel ih =>
    rw [NibbleVecIter.collect, iter_next hle]
    cases hx : ((nibbles v.data).take (2 * v.data.length - v.lastIsHalf.toNat))[pos]? with
    | none =>
      rw [List.getElem?_eq_none_iff] at hx
      rw [drop_of_length_le hx]
      rfl
    | some x =>
      simp only [Option.map_some]
      rw [ih (pos + 1) (by omega)]
      obtain ⟨hlt, hget⟩ := List.getElem?_eq_some_iff.mp hx
      rw [drop_eq_getElem_cons hlt, hget]

theorem Holds.iter (hv : v.Holds p) : v.iter = p := by
  have hs := hv.size
  obtain ⟨g₁, g₂, hd, h1, h2⟩ := hv
  rw [NibbleVec.iter, collect_eq (by omega) _ _ (by omega), hd,
    show 2 * v.data.length - v.lastIsHalf.toNat = (g₁ ++ p).length by simp [h1]; omega,
    take_left, ← h1, drop_left]

theorem holds_iter (hd : v.data ≠ []) : v.Holds v.iter := by
  have hpos := length_pos_iff.mpr hd
  have h1 := Bool.toNat_le v.firstIsHalf
  have h2 := Bool.toNat_le v.lastIsHalf
  rw [NibbleVec.iter, collect_eq (by omega) _ _ (by omega)]
  refine ⟨(nibbles v.data).take v.firstIsHalf.toNat,
    (nibbles v.data).drop (2 * v.data.length - v.lastIsHalf.toNat), ?_, ?_, ?_⟩
  · have htake : (nibbles v.data).take v.firstIsHalf.toNat =
        ((nibbles v.data).take (2 * v.data.length - v.lastIsHalf.toNat)).take v.firstIsHalf.toNat := by
      rw [take_take, Nat.min_eq_left (by omega)]
    rw [htake, take_append_drop, take_append_drop]
  · rw [length_take, length_nibbles]
    omega
  · rw [length_drop, length_nibbles]
    omega

end NibbleVec

end EthereumRust.Mpt
