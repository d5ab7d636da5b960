import Mathlib.Data.Multiset.Sort

/-! # The items with the smallest keys

If a new item takes the place of a kept one with the largest key, what is kept is right
after every item. -/

namespace EthereumRust
open Multiset

variable {α β : Type}

/-- Out of `all` so many with the smallest keys are `kept`, as far as there are that many. -/
structure Smallest [LE β] (key : α → β) (k : Nat) (all kept left : Multiset α) : Prop where
  split : all = kept + left
  card : kept.card = min k all.card
  le : ∀ a ∈ kept, ∀ b ∈ left, key a ≤ key b

namespace Smallest

variable [LinearOrder β] {key : α → β}

theorem refl (key : α → β) (h : all.card ≤ k) : Smallest key k all all 0 where
  split := (Multiset.add_zero all).symm
  card := (min_eq_right h).symm
  le _ _ _ hb := absurd hb (notMem_zero _)

theorem left_eq_zero (h : Smallest key k all kept left) (hroom : kept.card < k) : left = 0 := by
  have hcard := congrArg Multiset.card h.split
  rw [card_add] at hcard
  have hkept := h.card
  exact card_eq_zero.mp (by omega)

theorem push (h : Smallest key k all kept left) (hroom : kept.card < k) (a : α) :
    Smallest key k (a ::ₘ all) (a ::ₘ kept) 0 := by
  have hall : all = kept := by rw [h.split, h.left_eq_zero hroom, Multiset.add_zero]
  subst hall
  exact refl key (by rwa [card_cons])

theorem card_eq (h : Smallest key k all kept left) (hfull : k ≤ kept.card) : kept.card = k := by
  have hcard := h.card
  omega

theorem skip (h : Smallest key k all kept left) (hfull : k ≤ kept.card) (ha : ∀ b ∈ kept, key b ≤ key a) :
    Smallest key k (a ::ₘ all) kept (a ::ₘ left) where
  split := by rw [h.split, add_cons]
  card := by
    have hcard := h.card
    rw [card_cons]
    omega
  le b hb c hc := by
    rcases mem_cons.mp hc with rfl | hc
    · exact ha b hb
    · exact h.le b hb c hc

/-- A closer item takes the place of the furthest kept one. -/
theorem replace (h : Smallest key k all (b ::ₘ kept) left) (hfull : k ≤ (b ::ₘ kept).card) (hab : key a ≤ key b)
    (hb : ∀ c ∈ kept, key c ≤ key b) : Smallest key k (a ::ₘ all) (a ::ₘ kept) (b ::ₘ left) where
  split := by rw [h.split, cons_add, cons_add, add_cons]
  card := by
    have hcard := h.card
    rw [card_cons] at hcard hfull ⊢
    rw [card_cons]
    omega
  le c hc d hd := by
    have hcb : key c ≤ key b := by
      rcases mem_cons.mp hc with rfl | hc
      · exact hab
      · exact hb c hc
    rcases mem_cons.mp hd with rfl | hd
    · exact hcb
    · exact hcb.trans (h.le b (mem_cons_self b kept) d hd)

theorem exists_cons_set {α : Type} {l : List α} {a : α} (b : α) (h : l[i]? = some a) :
    ∃ rest : Multiset α, (l : Multiset α) = a ::ₘ rest ∧ (l.set i b : Multiset α) = b ::ₘ rest := by
  obtain ⟨hi, rfl⟩ := List.getElem?_eq_some_iff.mp h
  refine ⟨(l.eraseIdx i : List α), ?_, ?_⟩
  · exact coe_eq_coe.mpr (List.getElem_cons_eraseIdx_perm hi).symm
  · exact coe_eq_coe.mpr (List.set_perm_cons_eraseIdx hi b)

/-- What may become of a list of kept items when one more is read. -/
inductive Step (key : α → β) (k : Nat) (l : List α) (a : α) : List α → Prop where
  | room : l.length < k → Step key k l a (l ++ [a])
  | skip : k ≤ l.length → (∀ b ∈ l, key b ≤ key a) → Step key k l a l
  | replace {i : Nat} {b : α} : k ≤ l.length → l[i]? = some b → key a < key b → (∀ c ∈ l, key c ≤ key b) →
      Step key k l a (l.set i a)

theorem step {l l' : List α} (h : Smallest key k all l left) (hstep : Step key k l a l') :
    ∃ left', Smallest key k (a ::ₘ all) l' left' := by
  cases hstep with
  | room hroom =>
    refine ⟨0, ?_⟩
    rw [← Multiset.coe_add, Multiset.coe_singleton, Multiset.add_comm]
    exact h.push hroom a
  | skip hfull hle => exact ⟨a ::ₘ left, h.skip hfull hle⟩
  | @replace i b hfull hi hab hb =>
    obtain ⟨rest, hl, hset⟩ := exists_cons_set a hi
    refine ⟨b ::ₘ left, ?_⟩
    rw [hset]
    rw [hl] at h
    refine h.replace ?_ hab.le fun c hc => hb c ?_
    · rw [← hl]
      exact hfull
    · have hmem : c ∈ (l : Multiset α) := by
        rw [hl]
        exact mem_cons_of_mem hc
      exact hmem

/-- The keys of the kept items are the first ones of all keys in order. -/
theorem map_eq (h : Smallest key k all kept left) : kept.map key = ((all.map key).sort.take k : List β) := by
  have hsorted : ((kept.map key).sort ++ (left.map key).sort).Pairwise (· ≤ ·) := by
    refine List.pairwise_append.mpr ⟨pairwise_sort _ _, pairwise_sort _ _, ?_⟩
    intro x hx y hy
    obtain ⟨a, ha, rfl⟩ := mem_map.mp ((mem_sort _).mp hx)
    obtain ⟨b, hb, rfl⟩ := mem_map.mp ((mem_sort _).mp hy)
    exact h.le a ha b hb
  have hall : (all.map key).sort = (kept.map key).sort ++ (left.map key).sort := by
    refine List.Perm.eq_of_pairwise (fun _ _ _ _ => le_antisymm) (pairwise_sort _ _) hsorted ?_
    rw [← coe_eq_coe, ← coe_add, sort_eq, sort_eq, sort_eq, h.split,
      map_add]
  rw [hall]
  rcases Nat.lt_or_ge kept.card k with hroom | hfull
  · have hlength : ((kept.map key).sort ++ (left.map key).sort).length ≤ k := by
      simp [h.left_eq_zero hroom, hroom.le]
    rw [List.take_of_length_le hlength, h.left_eq_zero hroom]
    simp
  · have hlength : (kept.map key).sort.length = k := by
      rw [length_sort, card_map, h.card_eq hfull]
    rw [List.take_left' hlength, sort_eq]

end Smallest

end EthereumRust
