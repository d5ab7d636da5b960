import EthereumRust.Lib.Selection
import Mathlib.Tactic.Common

/-! # Items that take the first larger place

A new item takes the place of the first kept one with a larger key, which need not have the
largest. If all items but few have one key or larger ones, in order, the smallest are kept
exactly if those few come in order too, once there is no more room. -/

namespace EthereumRust.FirstFit

open List

variable {α β : Type} [LinearOrder β] (key : α → β) (k : Nat)

def replaceFirst (a : α) : List α → List α
  | [] => []
  | b :: kept => if key a < key b then a :: kept else b :: replaceFirst a kept

def keep (kept : List α) (a : α) : List α := if kept.length < k then kept ++ [a] else replaceFirst key a kept

variable {key k} {kept items : List α}

theorem replaceFirst_cases (key : α → β) (a : α) (kept : List α) :
    (replaceFirst key a kept = kept ∧ ∀ b ∈ kept, key b ≤ key a) ∨
    ∃ b rest, key a < key b ∧ (kept : Multiset α) = b ::ₘ rest ∧
      (replaceFirst key a kept : Multiset α) = a ::ₘ rest := by
  induction kept with
  | nil => exact .inl ⟨rfl, by simp⟩
  | cons first kept ih =>
    by_cases hlt : key a < key first
    · exact .inr ⟨first, kept, hlt, rfl, by rw [replaceFirst, if_pos hlt]; rfl⟩
    · rw [replaceFirst, if_neg hlt]
      rcases ih with ⟨heq, hle⟩ | ⟨b, rest, hb, hkept, heq⟩
      · exact .inl ⟨by rw [heq], forall_mem_cons.mpr ⟨not_lt.mp hlt, hle⟩⟩
      · refine .inr ⟨b, first ::ₘ rest, hb, ?_, ?_⟩
        · rw [← Multiset.cons_coe, hkept, Multiset.cons_swap]
        · rw [← Multiset.cons_coe, heq, Multiset.cons_swap]

theorem replaceFirst_append (h : ∀ b ∈ done, key b ≤ key a) (kept : List α) :
    replaceFirst key a (done ++ kept) = done ++ replaceFirst key a kept := by
  induction done with
  | nil => rfl
  | cons first done ih =>
    obtain ⟨hfirst, hdone⟩ := forall_mem_cons.mp h
    rw [cons_append, replaceFirst, if_neg (not_lt.mpr hfirst), ih hdone, cons_append]

theorem replaceFirst_append_left (h : ¬ ∀ b ∈ done, key b ≤ key a) (kept : List α) :
    replaceFirst key a (done ++ kept) = replaceFirst key a done ++ kept := by
  induction done with
  | nil => exact absurd (by simp) h
  | cons first done ih =>
    rw [cons_append, replaceFirst, replaceFirst]
    split_ifs with hlt
    · rfl
    · rw [ih fun hle => h (forall_mem_cons.mpr ⟨not_lt.mp hlt, hle⟩), cons_append]

theorem length_replaceFirst (key : α → β) (a : α) (kept : List α) : (replaceFirst key a kept).length = kept.length := by
  induction kept with
  | nil => rfl
  | cons first kept ih =>
    rw [replaceFirst]
    split_ifs
    · rfl
    · rw [length_cons, ih, length_cons]

theorem keep_full (key : α → β) (hfull : kept.length = k) (a : α) :
    keep key k kept a = replaceFirst key a kept ∧ (replaceFirst key a kept).length = k :=
  ⟨if_neg hfull.not_lt, (length_replaceFirst key a kept).trans hfull⟩

/-- What is kept are items, as many as there is room for. -/
theorem foldl_keep (key : α → β) (items : List α) (h : kept.length ≤ k) :
    (∃ left : Multiset α, (kept + items : Multiset α) = items.foldl (keep key k) kept + left) ∧
      (items.foldl (keep key k) kept).length = min k (kept.length + items.length) := by
  induction items generalizing kept with
  | nil => exact ⟨⟨0, rfl⟩, (min_eq_right h).symm⟩
  | cons a items ih =>
    rw [foldl_cons, length_cons]
    rcases h.lt_or_eq with hroom | hfull
    · have hkeep : keep key k kept a = kept ++ [a] := if_pos hroom
      obtain ⟨⟨left, hsplit⟩, hlength⟩ := @ih (kept ++ [a]) (by rw [length_append]; exact hroom)
      rw [hkeep]
      refine ⟨⟨left, ?_⟩, ?_⟩
      · rw [← hsplit, ← Multiset.coe_add, Multiset.coe_singleton, ← Multiset.cons_coe, ← Multiset.singleton_add,
          Multiset.add_assoc]
      · rw [hlength, length_append, length_singleton, Nat.add_assoc, Nat.add_comm 1]
    · obtain ⟨hkeep, hkept⟩ := keep_full key hfull a
      obtain ⟨⟨left, hsplit⟩, hlength⟩ := ih hkept.le
      rw [hkeep]
      refine ⟨?_, by rw [hlength, hkept, hfull]; omega⟩
      rcases replaceFirst_cases key a kept with ⟨heq, -⟩ | ⟨b, rest, -, hkept, heq⟩
      · rw [heq] at hsplit ⊢
        exact ⟨a ::ₘ left, by rw [← Multiset.cons_coe, Multiset.add_cons, hsplit, Multiset.add_cons]⟩
      · refine ⟨b ::ₘ left, ?_⟩
        rw [heq, Multiset.cons_add] at hsplit
        rw [hkept, ← Multiset.cons_coe, Multiset.cons_add, Multiset.add_cons, hsplit, Multiset.add_cons]

theorem foldl_room (key : α → β) (h : kept.length + items.length ≤ k) :
    items.foldl (keep key k) kept = kept ++ items := by
  induction items generalizing kept with
  | nil => exact (append_nil _).symm
  | cons a items ih =>
    rw [length_cons] at h
    have hkeep : keep key k kept a = kept ++ [a] := if_pos (by omega)
    rw [foldl_cons, hkeep, ih (by rw [length_append, length_singleton]; omega), append_assoc, singleton_append]

theorem foldl_append_first (key : α → β) (h : first.length ≤ k) (rest : List α) :
    (first ++ rest).foldl (keep key k) [] = rest.foldl (keep key k) first := by
  rw [foldl_append, @foldl_room _ _ _ k [] first key (by rwa [length_nil, Nat.zero_add]), nil_append]

theorem foldl_far (hfull : kept.length = k) (h : ∀ a ∈ items, ∀ b ∈ kept, key b ≤ key a) :
    items.foldl (keep key k) kept = kept := by
  induction items with
  | nil => rfl
  | cons a items ih =>
    obtain ⟨ha, hitems⟩ := forall_mem_cons.mp h
    have hkeep : keep key k kept a = kept := by
      rw [(keep_full key hfull a).1, ← append_nil kept, replaceFirst_append ha]
      rfl
    rw [foldl_cons, hkeep, ih hitems]

section

variable {bound : β}

/-- A new item is one more below a bound at most. -/
theorem countP_foldl_le (hfull : kept.length = k) :
    (items.foldl (keep key k) kept).countP (key · < bound) ≤ kept.countP (key · < bound) + items.length := by
  induction items generalizing kept with
  | nil => exact le_rfl
  | cons a items ih =>
    obtain ⟨hkeep, hlength⟩ := keep_full key hfull a
    rw [foldl_cons, hkeep, length_cons]
    refine (ih hlength).trans ?_
    rcases replaceFirst_cases key a kept with ⟨heq, -⟩ | ⟨b, rest, -, hkept, heq⟩
    · rw [heq]
      omega
    · rw [← Multiset.coe_countP, ← Multiset.coe_countP, heq, hkept, Multiset.countP_cons, Multiset.countP_cons]
      split_ifs <;> omega

theorem countP_parts {done front back : List α} (hdone : ∀ a ∈ done, key a < bound)
    (hfront : ∀ a ∈ front, key a = bound)
    (hback : ∀ a ∈ back, key a < bound) :
    (done ++ (front ++ back)).countP (key · < bound) = done.length + back.length := by
  have hnone : front.countP (key · < bound) = 0 := countP_eq_zero.mpr fun a ha => by simp [hfront a ha]
  rw [countP_append, countP_append, hnone, countP_eq_length.mpr (by simpa using hdone),
    countP_eq_length.mpr (by simpa using hback), Nat.zero_add]

/-- Items below a bound take the places of those at the bound exactly if they come in order. -/
theorem countP_foldl_iff {done front back : List α} (hfull : (done ++ (front ++ back)).length = k)
    (hroom : items.length ≤ front.length) (hdone : ∀ a ∈ done, key a < bound) (hfront : ∀ a ∈ front, key a = bound)
    (hback : ∀ a ∈ back, key a < bound) (hitems : ∀ a ∈ items, key a < bound)
    (hsorted : done.Pairwise (key · ≤ key ·)) :
    (items.foldl (keep key k) (done ++ (front ++ back))).countP (key · < bound) =
      done.length + back.length + items.length ↔ (done ++ items).Pairwise (key · ≤ key ·) := by
  induction items generalizing done front with
  | nil =>
    rw [foldl_nil, countP_parts hdone hfront hback, append_nil]
    exact iff_of_true rfl hsorted
  | cons a items ih =>
    obtain ⟨ha, hrest⟩ := forall_mem_cons.mp hitems
    obtain ⟨hkeep, hlength⟩ := keep_full key hfull a
    rw [foldl_cons, hkeep, length_cons]
    by_cases hle : ∀ b ∈ done, key b ≤ key a
    · -- the first of those at the bound makes room
      cases front with
      | nil => cases hroom
      | cons first front =>
        obtain ⟨hfirst, hfront⟩ := forall_mem_cons.mp hfront
        have hreplace : replaceFirst key a (done ++ (first :: front ++ back)) = (done ++ [a]) ++ (front ++ back) := by
          rw [replaceFirst_append hle, cons_append, replaceFirst, if_pos (hfirst ▸ ha), append_assoc]
          rfl
        have hsorted' : (done ++ [a]).Pairwise (key · ≤ key ·) :=
          pairwise_append.mpr ⟨hsorted, pairwise_singleton _ _, fun b hb _ hmem => mem_singleton.mp hmem ▸ hle b hb⟩
        have hdone' : ∀ b ∈ done ++ [a], key b < bound := forall_mem_append.mpr ⟨hdone, by simpa using ha⟩
        rw [hreplace] at hlength ⊢
        have hih := ih hlength (Nat.le_of_succ_le_succ hroom) hdone' hfront hrest hsorted'
        rw [append_assoc done [a] items, singleton_append, length_append, length_singleton] at hih
        rw [← hih]
        omega
    · -- one below the bound makes room, and there is no new one
      refine iff_of_false (fun hcount => ?_) fun hpairwise =>
        hle fun b hb => (pairwise_append.mp hpairwise).2.2 b hb a mem_cons_self
      have hnew := @countP_foldl_le _ _ _ key k _ items bound hlength
      have hparts := @countP_parts _ _ _ key bound [] front back (by simp) hfront hback
      have hfew : (replaceFirst key a done).countP (key · < bound) ≤ done.length :=
        countP_le_length.trans_eq (length_replaceFirst key a done)
      rw [nil_append, length_nil, Nat.zero_add] at hparts
      rw [hcount, replaceFirst_append_left hle, countP_append, hparts] at hnew
      omega

/-- The first items are the smallest if the others are no smaller. -/
theorem smallest_of_far (hlength : first.length = min k (first ++ rest).length)
    (hfar : ∀ b ∈ rest, ∀ a ∈ first, key a ≤ key b) :
    Smallest key k (first ++ rest : List α) ((first ++ rest).foldl (keep key k) [] : List α) rest := by
  have hkept : (first ++ rest).foldl (keep key k) [] = first := by
    rw [foldl_append_first key (hlength.trans_le (min_le_left _ _))]
    rcases le_or_gt k first.length with hfull | hshort
    · exact foldl_far (by omega) hfar
    · rw [length_append] at hlength
      rw [length_eq_zero_iff.mp (show rest.length = 0 by omega), foldl_nil]
  rw [hkept]
  exact ⟨rfl, hlength, fun a ha b hb => hfar b hb a ha⟩

/-- If what is kept is not above a bound and has room for all below it, it is the smallest exactly if it has all below
the bound. -/
theorem exists_smallest_iff {items kept : List α} (hkept : ∃ left : Multiset α, (items : Multiset α) = kept + left)
    (hlength : kept.length = min k items.length) (hupTo : ∀ a ∈ kept, key a ≤ bound)
    (hfew : items.countP (key · < bound) ≤ kept.length) :
    (∃ left, Smallest key k items kept left) ↔ kept.countP (key · < bound) = items.countP (key · < bound) := by
  have hcount {left : Multiset α} (hsplit : (items : Multiset α) = kept + left) :
      items.countP (key · < bound) = kept.countP (key · < bound) + left.countP (key · < bound) := by
    rw [← Multiset.coe_countP, ← Multiset.coe_countP, hsplit, Multiset.countP_add]
  constructor
  · rintro ⟨left, hs⟩
    have hsplit := hcount hs.split
    -- with an item below the bound left over, all that are kept are below it, which are too many
    have hnone : left.countP (key · < bound) = 0 := by
      refine Nat.eq_zero_of_not_pos fun hpos => ?_
      obtain ⟨b, hb, hlt⟩ := Multiset.countP_pos.mp hpos
      have hmany := countP_eq_length.mpr fun a ha => decide_eq_true ((hs.le a ha b hb).trans_lt hlt)
      omega
    omega
  · intro heq
    obtain ⟨left, hsplit⟩ := hkept
    have hnone : left.countP (key · < bound) = 0 := by
      have := hcount hsplit
      omega
    exact ⟨left, hsplit, hlength, fun a ha b hb =>
      (hupTo a ha).trans (not_lt.mp (Multiset.countP_eq_zero.mp hnone b hb))⟩

section

variable {below beside above : List α} (hbelow : ∀ a ∈ below, key a = bound) (hbeside : ∀ a ∈ beside, key a < bound)
  (habove : ∀ a ∈ above, bound ≤ key a)
include hbelow hbeside habove

/-- With room for all below the bound, the first items are kept. -/
theorem exists_smallest_of_room (hordered : above.Pairwise (key · ≤ key ·))
    (hroom : below.length + beside.length ≤ k) :
    ∃ left, Smallest key k (below ++ (beside ++ above) : List α)
      ((below ++ (beside ++ above)).foldl (keep key k) [] : List α) left := by
  obtain ⟨j, hj⟩ : ∃ j, j = k - (below.length + beside.length) := ⟨_, rfl⟩
  have hsplit : below ++ (beside ++ above) = (below ++ (beside ++ above.take j)) ++ above.drop j := by
    rw [append_assoc, append_assoc, take_append_drop]
  rw [hsplit]
  refine ⟨above.drop j, smallest_of_far (by simp only [length_append, length_take, length_drop]; omega) fun b hb => ?_⟩
  have hlate := habove b (mem_of_mem_drop hb)
  rw [← take_append_drop j above, pairwise_append] at hordered
  exact forall_mem_append.mpr ⟨fun a ha => (hbelow a ha).trans_le hlate,
    forall_mem_append.mpr ⟨fun a ha => (hbeside a ha).le.trans hlate, fun a ha => hordered.2.2 a ha b hb⟩⟩

/-- Without, those below the bound that come late replace some of the first. -/
theorem foldl_bound (hroom : k ≤ below.length + beside.length) :
    (below ++ (beside ++ above)).foldl (keep key k) [] =
      (beside.drop (k - below.length)).foldl (keep key k) (below.take k ++ beside.take (k - below.length)) ∧
    ∀ a ∈ (below ++ (beside ++ above)).foldl (keep key k) [], key a ≤ bound := by
  rw [← take_append]
  have hfull : ((below ++ beside).take k).length = k := by
    rw [length_take, length_append]
    omega
  have hbounded : ∀ a ∈ below ++ beside, key a ≤ bound :=
    forall_mem_append.mpr ⟨fun a ha => (hbelow a ha).le, fun a ha => (hbeside a ha).le⟩
  have hnear : ∀ a ∈ (below ++ beside).take k, key a ≤ bound := fun a ha => hbounded a (mem_of_mem_take ha)
  obtain ⟨⟨lost, hkept⟩, hlength⟩ := foldl_keep key (beside.drop (k - below.length)) hfull.le
  have hupTo : ∀ a ∈ (beside.drop (k - below.length)).foldl (keep key k) ((below ++ beside).take k), key a ≤ bound := by
    intro a ha
    have hmem : a ∈ (↑((below ++ beside).take k) + ↑(beside.drop (k - below.length)) : Multiset α) := by
      rw [hkept]
      exact Multiset.mem_add.mpr (.inl ha)
    rcases Multiset.mem_add.mp hmem with hmem | hmem
    · exact hnear a hmem
    · exact (hbeside a (mem_of_mem_drop hmem)).le
  have hfinal : (below ++ (beside ++ above)).foldl (keep key k) [] =
      (beside.drop (k - below.length)).foldl (keep key k) ((below ++ beside).take k) := by
    have hsplit : below ++ (beside ++ above) =
        (below ++ beside).take k ++ (below.drop k ++ (beside.drop (k - below.length) ++ above)) := by
      rw [← append_assoc (below.drop k), ← drop_append, ← append_assoc, ← append_assoc, take_append_drop]
    rw [hsplit, foldl_append_first key hfull.le, foldl_append,
      foldl_far hfull fun b hb a ha => (hnear a ha).trans_eq (hbelow b (mem_of_mem_drop hb)).symm, foldl_append]
    exact foldl_far (by omega) fun b hb a ha => (hupTo a ha).trans (habove b hb)
  exact ⟨hfinal, hfinal ▸ hupTo⟩

/-- Items at a bound, then few below it, then others in order: the smallest are kept exactly if
those below the bound for which there is no more room come in order. -/
theorem smallest_iff (hordered : above.Pairwise (key · ≤ key ·)) (hsize : beside.length ≤ k) :
    (∃ left, Smallest key k (below ++ (beside ++ above) : List α)
      ((below ++ (beside ++ above)).foldl (keep key k) [] : List α) left) ↔
    (beside.drop (k - below.length)).Pairwise (key · ≤ key ·) := by
  by_cases hroom : below.length + beside.length ≤ k
  · rw [drop_eq_nil_of_le (by omega)]
    exact iff_of_true (exists_smallest_of_room hbelow hbeside habove hordered hroom) .nil
  obtain ⟨hfinal, hupTo⟩ := foldl_bound hbelow hbeside habove (not_le.mp hroom).le
  obtain ⟨hkept, hlength⟩ := @foldl_keep _ _ _ k [] key (below ++ (beside ++ above)) (Nat.zero_le k)
  rw [length_nil, Nat.zero_add] at hlength
  rw [Multiset.coe_nil, Multiset.zero_add] at hkept
  have hall : (below ++ (beside ++ above)).countP (key · < bound) = beside.length := by
    have hnone : below.countP (key · < bound) = 0 := countP_eq_zero.mpr fun a ha => by simp [hbelow a ha]
    have habove : above.countP (key · < bound) = 0 := countP_eq_zero.mpr fun a ha => by simpa using habove a ha
    rw [countP_append, countP_append, hnone, habove, countP_eq_length.mpr (by simpa using hbeside), Nat.zero_add,
      Nat.add_zero]
  have hfew : beside.length ≤ min k (below ++ (beside ++ above)).length := by
    simp only [length_append]
    omega
  rw [exists_smallest_iff hkept hlength hupTo (hall.trans_le (hfew.trans_eq hlength.symm)), hall, hfinal]
  have hiff := @countP_foldl_iff _ _ _ key k (beside.drop (k - below.length)) bound [] (below.take k)
    (beside.take (k - below.length)) (by simp only [nil_append, length_append, length_take]; omega)
    (by rw [length_drop, length_take]; omega) (by simp) (fun a ha => hbelow a (mem_of_mem_take ha))
    (fun a ha => hbeside a (mem_of_mem_take ha)) (fun a ha => hbeside a (mem_of_mem_drop ha)) .nil
  rwa [nil_append, nil_append, length_nil, Nat.zero_add, ← length_append, take_append_drop] at hiff

end

end

end EthereumRust.FirstFit
