import Mathlib.Data.Set.Function
import Mathlib.Logic.Function.Basic
import Mathlib.Logic.Relation

/-! # Ledgers of hash-linked blocks

Blocks by their hash, a canonical one for each number, and a latest number. A block that
follows a canonical parent is stored and becomes canonical and the latest; or a stored
block takes over the canonical entry of its number. Neither touches the entries above,
so the canonical entries may stop being linked. -/

namespace EthereumRust
open Function

/-- How blocks are identified, linked and numbered. -/
structure Scheme (H B : Type) where
  hash : B → H
  parent : B → H
  number : B → Nat

structure Ledger (H B : Type) where
  blocks : H → Option B
  canon : Nat → Option H
  latest : Nat

namespace Ledger

variable {H B : Type} (σ : Scheme H B)

/-! ## Links -/

/-- The canonical entry of a number names a block of this number that links to the entry below. -/
def LinkedAt (L : Ledger H B) (n : Nat) : Prop :=
  ∃ h b, L.canon n = some h ∧ L.blocks h = some b ∧ σ.number b = n ∧ L.canon (n - 1) = some (σ.parent b)

def LinkedTo (L : Ledger H B) (m : Nat) : Prop := ∀ n, 0 < n → n ≤ m → LinkedAt σ L n

/-- `a` is the parent of the stored block `c`; the block with number 0 has none. -/
def IsParent (L : Ledger H B) (a c : H) : Prop :=
  ∃ b, L.blocks c = some b ∧ σ.number b ≠ 0 ∧ σ.parent b = a

/-- `a` is an ancestor of `c`, or `c` itself. -/
def Ancestor (L : Ledger H B) : H → H → Prop := Relation.ReflTransGen (IsParent σ L)

variable {σ} {L : Ledger H B}

theorem LinkedTo.ancestor (h : LinkedTo σ L m) (ha : L.canon i = some a) :
    ∀ {j : Nat} {c : H}, i ≤ j → j ≤ m → L.canon j = some c → Ancestor σ L a c := by
  intro j
  induction j with
  | zero =>
    intro c hij _ hc
    obtain rfl : i = 0 := Nat.le_zero.mp hij
    obtain rfl : a = c := Option.some.inj (ha.symm.trans hc)
    exact .refl
  | succ j ih =>
    intro c hij hjm hc
    rcases Nat.lt_or_ge i (j + 1) with hlt | hge
    · obtain ⟨h', b, hh', hb, hn, hp⟩ := h (j + 1) (by omega) hjm
      obtain rfl : h' = c := Option.some.inj (hh'.symm.trans hc)
      exact .tail (ih (by omega) (by omega) hp) ⟨b, hb, by omega, rfl⟩
    · obtain rfl : i = j + 1 := by omega
      obtain rfl : a = c := Option.some.inj (ha.symm.trans hc)
      exact .refl

/-! ## Steps -/

variable (σ) in
/-- The block's parent is stored and canonical, and the block has the next number. -/
def Follows (L : Ledger H B) (b : B) : Prop :=
  ∃ p, L.blocks (σ.parent b) = some p ∧ σ.number b = σ.number p + 1 ∧
    L.canon (σ.number p) = some (σ.parent b)

variable (σ) in
/-- The stored block `k` is not the canonical one of its number, but links to the entry below. -/
structure TakesOver (L : Ledger H B) (k : H) (b : B) : Prop where
  stored : L.blocks k = some b
  other : ∃ h, L.canon (σ.number b) = some h ∧ h ≠ k
  below : L.canon (σ.number b - 1) = some (σ.parent b)

variable (σ) in
def repoint (L : Ledger H B) (k : H) (b : B) : Ledger H B :=
  { L with canon := Function.update L.canon (σ.number b) (some k) }

theorem Follows.pos (h : Follows σ L b) : 0 < σ.number b := by
  obtain ⟨p, -, hn, -⟩ := h
  omega

theorem Follows.below (h : Follows σ L b) : L.canon (σ.number b - 1) = some (σ.parent b) := by
  obtain ⟨p, -, hn, hc⟩ := h
  rwa [hn, Nat.add_sub_cancel]

section

variable [DecidableEq H]

variable (σ) in
def extend (L : Ledger H B) (b : B) : Ledger H B where
  blocks := Function.update L.blocks (σ.hash b) (some b)
  canon := Function.update L.canon (σ.number b) (some (σ.hash b))
  latest := σ.number b

variable (σ) in

/-! ## Well-formed ledgers -/

variable (σ) in
/-- What holds of a ledger that grew from the genesis block `g` by steps over blocks of `S`,
linked or not. -/
structure WellFormed (S : Set B) (g : H) (L : Ledger H B) : Prop where
  keyed : ∀ h b, L.blocks h = some b → σ.hash b = h
  among : ∀ h b, L.blocks h = some b → b ∈ S
  named : ∀ n h, L.canon n = some h → ∃ b, L.blocks h = some b ∧ σ.number b = n
  root : L.canon 0 = some g
  onlyRoot : ∀ h b, L.blocks h = some b → σ.number b = 0 → h = g
  parents : ∀ h b, L.blocks h = some b → σ.number b ≠ 0 →
    ∃ p, L.blocks (σ.parent b) = some p ∧ σ.number b = σ.number p + 1
  head : ∃ h, L.canon L.latest = some h

omit [DecidableEq H] in
theorem Ancestor.number_le (hw : WellFormed σ S g L) (h : Ancestor σ L a c)
    (hc : L.blocks c = some bc) : ∃ ba, L.blocks a = some ba ∧ σ.number ba ≤ σ.number bc := by
  induction h generalizing bc with
  | refl => exact ⟨bc, hc, le_refl _⟩
  | tail _ hparent ih =>
    obtain ⟨b, hb, hne, rfl⟩ := hparent
    obtain rfl : b = bc := Option.some.inj (hb.symm.trans hc)
    obtain ⟨p, hp, hn⟩ := hw.parents _ b hb hne
    obtain ⟨ba, hba, hle⟩ := ih hp
    exact ⟨ba, hba, by omega⟩

/-- Storing a block again changes nothing: a block with its hash is this block. -/
theorem blocks_extend (hw : WellFormed σ S g L) (hS : Set.InjOn σ.hash S) (hb : b ∈ S) :
    (L.extend σ b).blocks h = some c ↔ L.blocks h = some c ∨ h = σ.hash b ∧ c = b := by
  by_cases hh : h = σ.hash b
  · subst hh
    simp only [extend, update_self, Option.some.injEq, true_and]
    constructor
    · rintro rfl
      exact .inr rfl
    · rintro (hc | rfl)
      · exact (hS (hw.among _ _ hc) hb (hw.keyed _ _ hc)).symm
      · rfl
  · simp [extend, hh]

theorem canon_extend_self : (L.extend σ b).canon (σ.number b) = some (σ.hash b) :=
  update_self ..

omit [DecidableEq H] in
theorem canon_repoint_self : (L.repoint σ k b).canon (σ.number b) = some k :=
  update_self ..

omit [DecidableEq H] in
theorem canon_repoint_of_ne (h : n ≠ σ.number b) :
    (L.repoint σ k b).canon n = L.canon n := update_of_ne h ..

theorem canon_extend_of_ne (h : n ≠ σ.number b) : (L.extend σ b).canon n = L.canon n :=
  update_of_ne h ..

theorem WellFormed.genesis (hblocks : ∀ h, L.blocks h = none) (hcanon : ∀ n, L.canon n = none) (hb : b ∈ S)
    (hzero : σ.number b = 0) : WellFormed σ S (σ.hash b) (L.extend σ b) := by
  have honly : ∀ {h c}, (L.extend σ b).blocks h = some c → h = σ.hash b ∧ c = b := by
    intro h c hc
    by_cases hh : h = σ.hash b
    · subst hh
      simp only [extend, update_self, Option.some.injEq] at hc
      exact ⟨rfl, hc.symm⟩
    · simp [extend, hh, hblocks] at hc
  refine ⟨?_, ?_, ?_, hzero ▸ canon_extend_self, ?_, ?_, ⟨_, canon_extend_self⟩⟩
  · intro h c hc
    obtain ⟨rfl, rfl⟩ := honly hc
    rfl
  · intro h c hc
    obtain ⟨-, rfl⟩ := honly hc
    exact hb
  · intro n h hn
    by_cases hnb : n = σ.number b
    · subst hnb
      obtain rfl : σ.hash b = h := Option.some.inj (canon_extend_self.symm.trans hn)
      exact ⟨b, update_self .., rfl⟩
    · rw [canon_extend_of_ne hnb, hcanon] at hn
      cases hn
  · intro h c hc _
    exact (honly hc).1
  · intro h c hc hne
    obtain ⟨-, rfl⟩ := honly hc
    exact absurd hzero hne

theorem WellFormed.extend (hw : WellFormed σ S g L) (hS : Set.InjOn σ.hash S) (hb : b ∈ S)
    (hf : Follows σ L b) : WellFormed σ S g (L.extend σ b) := by
  have hblocks : ∀ {h c}, (L.extend σ b).blocks h = some c ↔ L.blocks h = some c ∨ h = σ.hash b ∧ c = b :=
    blocks_extend hw hS hb
  have hpos := hf.pos
  refine ⟨?_, ?_, ?_, ?_, ?_, ?_, ⟨_, canon_extend_self⟩⟩
  · intro h c hc
    rcases hblocks.mp hc with hc | ⟨rfl, rfl⟩
    · exact hw.keyed h c hc
    · rfl
  · intro h c hc
    rcases hblocks.mp hc with hc | ⟨rfl, rfl⟩
    · exact hw.among h c hc
    · exact hb
  · intro n h hn
    by_cases hnb : n = σ.number b
    · subst hnb
      obtain rfl : σ.hash b = h := Option.some.inj (canon_extend_self.symm.trans hn)
      exact ⟨b, hblocks.mpr (.inr ⟨rfl, rfl⟩), rfl⟩
    · rw [canon_extend_of_ne hnb] at hn
      obtain ⟨c, hc, hcn⟩ := hw.named n h hn
      exact ⟨c, hblocks.mpr (.inl hc), hcn⟩
  · rw [canon_extend_of_ne (by omega)]
    exact hw.root
  · intro h c hc hzero
    rcases hblocks.mp hc with hc | ⟨rfl, rfl⟩
    · exact hw.onlyRoot h c hc hzero
    · omega
  · intro h c hc hne
    rcases hblocks.mp hc with hc | ⟨rfl, rfl⟩
    · obtain ⟨p, hp, hn⟩ := hw.parents h c hc hne
      exact ⟨p, hblocks.mpr (.inl hp), hn⟩
    · obtain ⟨p, hp, hn, -⟩ := hf
      exact ⟨p, hblocks.mpr (.inl hp), hn⟩

omit [DecidableEq H] in
theorem WellFormed.repoint (hw : WellFormed σ S g L) (ht : TakesOver σ L k b) :
    WellFormed σ S g (L.repoint σ k b) := by
  refine ⟨hw.keyed, hw.among, ?_, ?_, hw.onlyRoot, hw.parents, ?_⟩
  · intro n h hn
    by_cases hnb : n = σ.number b
    · subst hnb
      obtain rfl : k = h := Option.some.inj (canon_repoint_self.symm.trans hn)
      exact ⟨b, ht.stored, rfl⟩
    · rw [canon_repoint_of_ne hnb] at hn
      exact hw.named n h hn
  · by_cases hzero : σ.number b = 0
    · -- the only block with number 0 is canonical, so it has no entry to take over
      obtain ⟨h, hh, hne⟩ := ht.other
      rw [hzero, hw.root] at hh
      exact absurd ((Option.some.inj hh).symm.trans (hw.onlyRoot k b ht.stored hzero).symm) hne
    · rw [canon_repoint_of_ne (Ne.symm hzero)]
      exact hw.root
  · by_cases hl : L.latest = σ.number b
    · exact ⟨k, hl ▸ canon_repoint_self⟩
    · obtain ⟨h, hh⟩ := hw.head
      exact ⟨h, (canon_repoint_of_ne hl).trans hh⟩

/-! ## When a step keeps the links -/

theorem linkedAt_extend_of_ne (hw : WellFormed σ S g L) (hS : Set.InjOn σ.hash S) (hb : b ∈ S)
    (hn : n ≠ σ.number b) (hn' : n - 1 ≠ σ.number b) : LinkedAt σ (L.extend σ b) n ↔ LinkedAt σ L n := by
  unfold LinkedAt
  rw [canon_extend_of_ne hn, canon_extend_of_ne hn']
  constructor
  · rintro ⟨h, c, hh, hc, hcn, hp⟩
    rcases (blocks_extend hw hS hb).mp hc with hc | ⟨rfl, rfl⟩
    · exact ⟨h, c, hh, hc, hcn, hp⟩
    · exact absurd hcn.symm hn
  · rintro ⟨h, c, hh, hc, hcn, hp⟩
    exact ⟨h, c, hh, (blocks_extend hw hS hb).mpr (.inl hc), hcn, hp⟩

theorem linkedAt_extend_self (hf : Follows σ L b) : LinkedAt σ (L.extend σ b) (σ.number b) := by
  refine ⟨_, b, canon_extend_self, update_self .., rfl, ?_⟩
  have := hf.pos
  rw [canon_extend_of_ne (by omega)]
  exact hf.below

/-- A block that was added leaves the canonical entries linked exactly if the entries between
the latest number and its own were linked. -/
theorem linkedTo_extend_iff (hw : WellFormed σ S g L) (hS : Set.InjOn σ.hash S) (hb : b ∈ S)
    (hf : Follows σ L b) (hl : LinkedTo σ L L.latest) :
    LinkedTo σ (L.extend σ b) (L.extend σ b).latest ↔
      ∀ n, L.latest < n → n < σ.number b → LinkedAt σ L n := by
  change LinkedTo σ (L.extend σ b) (σ.number b) ↔ _
  constructor
  · intro h n hlt hnb
    exact (linkedAt_extend_of_ne hw hS hb (by omega) (by omega)).mp (h n (by omega) (by omega))
  · intro h n hn hnb
    by_cases heq : n = σ.number b
    · exact heq ▸ linkedAt_extend_self hf
    · refine (linkedAt_extend_of_ne hw hS hb heq (by omega)).mpr ?_
      rcases Nat.lt_or_ge L.latest n with hlt | hge
      · exact h n hlt (by omega)
      · exact hl n hn hge

omit [DecidableEq H] in
theorem linkedAt_repoint_of_ne (hn : n ≠ σ.number b) (hn' : n - 1 ≠ σ.number b) :
    LinkedAt σ (L.repoint σ k b) n ↔ LinkedAt σ L n := by
  unfold LinkedAt
  rw [canon_repoint_of_ne hn, canon_repoint_of_ne hn']
  rfl

omit [DecidableEq H] in
/-- A block that takes over an entry leaves the canonical entries linked exactly if no entry up to
the latest number stands above it. -/
theorem linkedTo_repoint_iff (ht : TakesOver σ L k b) (hl : LinkedTo σ L L.latest) :
    LinkedTo σ (L.repoint σ k b) (L.repoint σ k b).latest ↔ L.latest ≤ σ.number b := by
  change LinkedTo σ (L.repoint σ k b) L.latest ↔ _
  constructor
  · intro h
    by_contra hlt
    -- the entry above linked to the block that was there before
    obtain ⟨h₁, c₁, hh₁, hc₁, -, hp₁⟩ := hl (σ.number b + 1) (by omega) (by omega)
    obtain ⟨h₂, c₂, hh₂, hc₂, -, hp₂⟩ := h (σ.number b + 1) (by omega) (by omega)
    rw [canon_repoint_of_ne (by omega)] at hh₂
    rw [Nat.add_sub_cancel] at hp₁ hp₂
    rw [canon_repoint_self] at hp₂
    obtain rfl : h₁ = h₂ := Option.some.inj (hh₁.symm.trans hh₂)
    obtain rfl : c₁ = c₂ := Option.some.inj (hc₁.symm.trans hc₂)
    obtain ⟨h', hh', hne⟩ := ht.other
    exact hne ((Option.some.inj (hh'.symm.trans hp₁)).trans (Option.some.inj hp₂).symm)
  · intro hle n hn hnl
    by_cases heq : n = σ.number b
    · subst heq
      refine ⟨k, b, canon_repoint_self, ht.stored, rfl, ?_⟩
      rw [canon_repoint_of_ne (by omega)]
      exact ht.below
    · exact (linkedAt_repoint_of_ne heq (by omega)).mpr (hl n hn hnl)

/-! ## A single chain -/

variable (σ) in
/-- Every stored block is canonical, and none is above the latest number. -/
def Single (L : Ledger H B) : Prop :=
  ∀ h b, L.blocks h = some b → L.canon (σ.number b) = some h ∧ σ.number b ≤ L.latest

omit [DecidableEq H] in
theorem Single.not_takesOver (h : Single σ L) : ¬ TakesOver σ L k b := by
  intro ht
  obtain ⟨h', hh', hne⟩ := ht.other
  exact hne (Option.some.inj (hh'.symm.trans (h k b ht.stored).1))

theorem Single.genesis (hblocks : ∀ h, L.blocks h = none) : Single σ (L.extend σ b) := by
  intro h c hc
  by_cases hh : h = σ.hash b
  · subst hh
    obtain rfl : b = c := by simpa [Ledger.extend] using hc
    exact ⟨canon_extend_self, le_refl _⟩
  · simp [Ledger.extend, hh, hblocks] at hc

theorem Single.extend (h : Single σ L) (hw : WellFormed σ S g L) (hS : Set.InjOn σ.hash S) (hb : b ∈ S)
    (hn : σ.number b = L.latest + 1) : Single σ (L.extend σ b) := by
  intro h' c hc
  rcases (blocks_extend hw hS hb).mp hc with hc | ⟨rfl, rfl⟩
  · obtain ⟨hcan, hle⟩ := h h' c hc
    refine ⟨?_, ?_⟩
    · rw [canon_extend_of_ne (by omega)]
      exact hcan
    · change σ.number c ≤ σ.number b
      omega
  · exact ⟨canon_extend_self, le_refl _⟩

end
end Ledger
end EthereumRust
