import EthereumRust.Lib.Nibbles
import Mathlib.Logic.Function.Basic
import Mathlib.Data.List.Infix

/-! # Patricia trees

A finite map from lists of symbols to values, as a tree. It is canonical when no node
could be merged with another. -/

namespace EthereumRust
open List

inductive Tree (κ ν : Type) where
  | nil
  | leaf (rest : List κ) (value : ν)
  | ext (shared : List κ) (child : Tree κ ν)
  | branch (children : κ → Tree κ ν) (value : Option ν)

namespace Tree

variable {κ ν : Type} {c t : Tree κ ν} {r s : List κ}

def IsBranch : Tree κ ν → Prop
  | branch _ _ => True
  | _ => False

def isNil : Tree κ ν → Bool
  | nil => true
  | _ => false

@[simp] theorem isNil_iff : t.isNil = true ↔ t = nil := by cases t <;> simp [isNil]

instance (t : Tree κ ν) : Decidable (t = nil) := decidable_of_iff _ isNil_iff

variable [DecidableEq κ]

def lookup : Tree κ ν → List κ → Option ν
  | nil, _ => none
  | leaf r v, p => if p = r then some v else none
  | ext s c, p => if s <+: p then c.lookup (p.drop s.length) else none
  | branch _ v, [] => v
  | branch cs _, x :: p => (cs x).lookup p

@[simp] theorem lookup_nil (p : List κ) : (nil : Tree κ ν).lookup p = none := by cases p <;> rfl

@[simp] theorem lookup_leaf (r p : List κ) (v : ν) :
    (leaf r v).lookup p = if p = r then some v else none := by cases p <;> rfl

theorem lookup_ext (s : List κ) (c : Tree κ ν) (p : List κ) :
    (ext s c).lookup p = if s <+: p then c.lookup (p.drop s.length) else none := by
  cases p <;> rfl

@[simp] theorem lookup_branch_nil (cs : κ → Tree κ ν) (v : Option ν) :
    (branch cs v).lookup [] = v := rfl

@[simp] theorem lookup_branch_cons (cs : κ → Tree κ ν) (v : Option ν) (x : κ) (p : List κ) :
    (branch cs v).lookup (x :: p) = (cs x).lookup p := rfl

@[simp] theorem lookup_ext_append (s : List κ) (c : Tree κ ν) (p : List κ) :
    (ext s c).lookup (s ++ p) = c.lookup p := by
  rw [lookup_ext, if_pos (prefix_append s p), drop_left]

theorem lookup_ext_none (h : ¬ s <+: p) :
    (ext s c).lookup p = none := by
  rw [lookup_ext, if_neg h]

/-- A branch that has to be there: two keys part at it. -/
def Crowded (cs : κ → Tree κ ν) (v : Option ν) : Prop :=
  (∃ x y, x ≠ y ∧ cs x ≠ nil ∧ cs y ≠ nil) ∨ (v ≠ none ∧ ∃ x, cs x ≠ nil)

def Canonical : Tree κ ν → Prop
  | nil => True
  | leaf _ _ => True
  | ext s c => s ≠ [] ∧ c.IsBranch ∧ c.Canonical
  | branch cs v => Crowded cs v ∧ ∀ x, (cs x).Canonical

/-! ## Building trees -/

/-- An extension, unless there is nothing to extend by. -/
def wrap (s : List κ) (t : Tree κ ν) : Tree κ ν := if s = [] then t else ext s t

def single (x : κ) (t : Tree κ ν) : κ → Tree κ ν := Function.update (fun _ => nil) x t

/-- The branch where two different keys part, after what they share is gone. -/
def part (p r : List κ) (v w : ν) : Tree κ ν :=
  match p, r with
  | [], [] => leaf [] v
  | [], y :: r => branch (single y (leaf r w)) (some v)
  | x :: p, [] => branch (single x (leaf p v)) (some w)
  | x :: p, y :: r => branch (Function.update (single y (leaf r w)) x (leaf p v)) none

/-- A leaf `r ↦ w` and a new key `p ↦ v`. -/
def fork (r : List κ) (w : ν) (p : List κ) (v : ν) : Tree κ ν :=
  wrap (p.take (lcp p r)) (part (p.drop (lcp p r)) (r.drop (lcp p r)) v w)

/-- The branch where a new key leaves an extension `x :: s`. -/
def cut (x : κ) (s : List κ) (c : Tree κ ν) (p : List κ) (v : ν) : Tree κ ν :=
  match p with
  | [] => branch (single x (wrap s c)) (some v)
  | y :: p => branch (Function.update (single x (wrap s c)) y (leaf p v)) none

/-- An extension `s` and a new key that does not go through it. -/
def split (s : List κ) (c : Tree κ ν) (p : List κ) (v : ν) : Tree κ ν :=
  match s.drop (lcp p s) with
  | [] => nil
  | x :: s' => wrap (s.take (lcp p s)) (cut x s' c (p.drop (lcp p s)) v)

def insert : Tree κ ν → List κ → ν → Tree κ ν
  | nil, p, v => leaf p v
  | leaf r w, p, v => if p = r then leaf r v else fork r w p v
  | ext s c, p, v => if s <+: p then ext s (c.insert (p.drop s.length) v) else split s c p v
  | branch cs _, [], v => branch cs (some v)
  | branch cs w, x :: p, v => branch (Function.update cs x ((cs x).insert p v)) w

theorem insert_ext_append (s : List κ) (c : Tree κ ν) (p : List κ) (v : ν) :
    (ext s c).insert (s ++ p) v = ext s (c.insert p v) := by
  simp [insert]

/-! ## What lookups see -/

theorem lookup_wrap (s : List κ) (t : Tree κ ν) (q : List κ) :
    (wrap s t).lookup q = if s <+: q then t.lookup (q.drop s.length) else none := by
  unfold wrap
  split
  · rename_i h; simp [h]
  · rw [lookup_ext]

@[simp] theorem single_self (x : κ) (t : Tree κ ν) : single x t x = t := by simp [single]

theorem single_ne {y : κ} (h : y ≠ x) (t : Tree κ ν) : single x t y = nil := by
  simp [single, h]

theorem lookup_single (x : κ) (t : Tree κ ν) (y : κ) (q : List κ) :
    (single x t y).lookup q = if y = x then t.lookup q else none := by
  by_cases h : y = x
  · subst h; simp
  · simp [single_ne h, h]

theorem lookup_ext_cat (a s : List κ) (c : Tree κ ν) (q : List κ) :
    (ext (a ++ s) c).lookup (a ++ q) = (ext s c).lookup q := by
  rw [lookup_ext, lookup_ext, length_append, ← drop_drop]
  simp

theorem lookup_part (v w : ν) (hpr : ∀ x y as bs, p = x :: as → r = y :: bs → x ≠ y)
    (q : List κ) : (part p r v w).lookup q =
      if q = p then some v else if q = r then some w else none := by
  match p, r with
  | [], [] => by_cases hq : q = [] <;> simp [part, hq]
  | [], y :: r =>
    cases q with
    | nil => simp [part]
    | cons z q => by_cases hz : z = y <;> simp [part, lookup_single, hz]
  | x :: p, [] =>
    cases q with
    | nil => simp [part]
    | cons z q => by_cases hz : z = x <;> simp [part, lookup_single, hz]
  | x :: p, y :: r =>
    have hxy : x ≠ y := hpr x y p r rfl rfl
    cases q with
    | nil => simp [part]
    | cons z q =>
      by_cases hzx : z = x
      · subst hzx; simp [part, hxy]
      · by_cases hzy : z = y
        · subst hzy; simp [part, hzx]
        · simp [part, hzx, hzy, single_ne hzy]

omit [DecidableEq κ] in
theorem drop_eq_iff (hq : s <+: q) (hp : s <+: p) :
    q.drop s.length = p.drop s.length ↔ q = p := by
  obtain ⟨q, rfl⟩ := hq
  obtain ⟨p, rfl⟩ := hp
  simp

theorem lookup_fork (w v : ν) (q : List κ) :
    (fork r w p v).lookup q = if q = p then some v else if q = r then some w else none := by
  have hlen : (p.take (lcp p r)).length = lcp p r := by
    rw [length_take]; exact Nat.min_eq_left (lcp_le_left p r)
  have hp : p.take (lcp p r) <+: p := take_prefix _ _
  have hr : p.take (lcp p r) <+: r := by rw [take_lcp]; exact take_prefix _ _
  rw [fork, lookup_wrap, hlen]
  by_cases hq : p.take (lcp p r) <+: q
  · rw [if_pos hq, lookup_part v w (fun x y as bs h1 h2 => drop_lcp_ne h1 h2)]
    have h1 := drop_eq_iff hq hp
    have h2 := drop_eq_iff hq hr
    rw [hlen] at h1 h2
    simp only [h1, h2]
  · have h1 : q ≠ p := fun h => hq (h ▸ hp)
    have h2 : q ≠ r := fun h => hq (h ▸ hr)
    simp [hq, h1, h2]

theorem lookup_ext_cons (x : κ) (s : List κ) (c : Tree κ ν) (z : κ) (q : List κ) :
    (ext (x :: s) c).lookup (z :: q) = if z = x then (wrap s c).lookup q else none := by
  rw [lookup_ext, lookup_wrap]
  by_cases hz : z = x
  · simp [hz]
  · simp [hz, Ne.symm hz]

theorem lookup_cut (c : Tree κ ν) (v : ν)
    (hp : ∀ y as, p = y :: as → y ≠ x) (q : List κ) :
    (cut x s c p v).lookup q = if q = p then some v else (ext (x :: s) c).lookup q := by
  have hext := lookup_ext_cons x s c
  match p with
  | [] =>
    cases q with
    | nil => simp [cut]
    | cons z q =>
      rw [hext]
      by_cases hz : z = x <;> simp [cut, lookup_single, hz]
  | y :: p =>
    have hyx : y ≠ x := hp y p rfl
    cases q with
    | nil => simp [cut, lookup_ext]
    | cons z q =>
      rw [hext]
      by_cases hzy : z = y
      · subst hzy; simp [cut, hyx]
      · by_cases hzx : z = x
        · subst hzx; simp [cut, hzy]
        · simp [cut, hzx, hzy, single_ne hzx]

theorem drop_lcp_of_not_isPrefix (h : ¬ s <+: p) :
    ∃ x s', s.drop (lcp p s) = x :: s' := by
  cases hd : s.drop (lcp p s) with
  | nil =>
    exfalso
    apply h
    have hs : s.take (lcp p s) = s := by
      have := take_append_drop (lcp p s) s
      rwa [hd, append_nil] at this
    rw [← hs, ← take_lcp]
    exact take_prefix _ _
  | cons x s' => exact ⟨x, s', rfl⟩

theorem lookup_split (c : Tree κ ν) (v : ν) (h : ¬ s <+: p) (q : List κ) :
    (split s c p v).lookup q = if q = p then some v else (ext s c).lookup q := by
  obtain ⟨x, s', hs⟩ := drop_lcp_of_not_isPrefix h
  have hlen : (s.take (lcp p s)).length = lcp p s := by
    rw [length_take]; exact Nat.min_eq_left (lcp_le_right p s)
  have hp : s.take (lcp p s) <+: p := by rw [← take_lcp]; exact take_prefix _ _
  have hcat : s = s.take (lcp p s) ++ x :: s' := by rw [← hs, take_append_drop]
  simp only [split, hs]
  rw [lookup_wrap, hlen]
  by_cases hq : s.take (lcp p s) <+: q
  · rw [if_pos hq, lookup_cut c v (fun y as he => drop_lcp_ne he hs)]
    have h1 := drop_eq_iff hq hp
    rw [hlen] at h1
    simp only [h1]
    split
    · rfl
    · -- below the shared part the extension reads `x :: s'`
      obtain ⟨q', rfl⟩ := hq
      generalize s.take (lcp p s) = a at hlen hcat
      rw [← hlen, drop_left, hcat, lookup_ext_cat]
  · have h1 : q ≠ p := fun he => hq (he ▸ hp)
    rw [if_neg hq, if_neg h1, lookup_ext_none]
    intro hsq
    exact hq (( take_prefix _ _).trans hsq)

/-- Insertion changes the map at its own key only. -/
theorem lookup_insert (t : Tree κ ν) (p : List κ) (v : ν) (q : List κ) :
    (t.insert p v).lookup q = if q = p then some v else t.lookup q := by
  induction t generalizing p q with
  | nil => simp [insert]
  | leaf r w =>
    simp only [insert, lookup_leaf]
    split
    · rename_i h; subst h; by_cases hq : q = p <;> simp [hq]
    · rw [lookup_fork]
  | ext s c ih =>
    by_cases h : s <+: p
    · obtain ⟨p', rfl⟩ := h
      rw [insert_ext_append, lookup_ext, lookup_ext]
      by_cases hq : s <+: q
      · obtain ⟨q', rfl⟩ := hq; simp [ih]
      · have hne : q ≠ s ++ p' := fun he => hq (he ▸ prefix_append _ _)
        simp [hq, hne]
    · rw [insert, if_neg h, lookup_split c v h]
  | branch cs w ih =>
    cases p with
    | nil => cases q <;> simp [insert]
    | cons x p =>
      cases q with
      | nil => simp [insert]
      | cons y q =>
        by_cases hy : y = x
        · subst hy; simp [insert, ih]
        · simp [insert, hy]

/-! ## Canonical shape -/

omit [DecidableEq κ] in
theorem wrap_isBranch_canonical (hb : t.IsBranch) (hc : t.Canonical) :
    (wrap s t).Canonical := by
  unfold wrap
  split
  · exact hc
  · exact ⟨‹_›, hb, hc⟩

theorem single_canonical (h : t.Canonical) (y : κ) :
    (single x t y).Canonical := by
  by_cases hy : y = x
  · subst hy; simpa using h
  · rw [single_ne hy]; trivial

theorem update_canonical (hcs : ∀ y, (cs y).Canonical)
    (ht : t.Canonical) (y : κ) : (Function.update cs x t y).Canonical := by
  by_cases hy : y = x
  · subst hy; simpa using ht
  · simpa [hy] using hcs y

theorem part_shape (v w : ν) (hne : p ≠ r)
    (hpr : ∀ x y as bs, p = x :: as → r = y :: bs → x ≠ y) :
    (part p r v w).IsBranch ∧ (part p r v w).Canonical := by
  match p, r with
  | [], [] => exact absurd rfl hne
  | [], y :: r =>
    exact ⟨trivial, .inr ⟨by simp, y, by simp⟩, single_canonical trivial⟩
  | x :: p, [] =>
    exact ⟨trivial, .inr ⟨by simp, x, by simp⟩, single_canonical trivial⟩
  | x :: p, y :: r =>
    have hxy : x ≠ y := hpr x y p r rfl rfl
    exact ⟨trivial, .inl ⟨x, y, hxy, by simp, by simp [Ne.symm hxy]⟩,
      update_canonical (single_canonical trivial) trivial⟩

theorem drop_lcp_ne_drop (h : p ≠ r) :
    p.drop (lcp p r) ≠ r.drop (lcp p r) := by
  intro he
  apply h
  rw [← take_append_drop (lcp p r) p, he, take_lcp, take_append_drop]

theorem fork_canonical (w v : ν) (h : p ≠ r) : (fork r w p v).Canonical := by
  obtain ⟨hb, hc⟩ := part_shape v w (drop_lcp_ne_drop h) (fun x y as bs h1 h2 => drop_lcp_ne h1 h2)
  exact wrap_isBranch_canonical hb hc

omit [DecidableEq κ] in
theorem wrap_ne_nil (h : t ≠ nil) : wrap s t ≠ nil := by
  unfold wrap; split
  · exact h
  · simp

theorem cut_shape (v : ν)
    (hp : ∀ y as, p = y :: as → y ≠ x) (hb : c.IsBranch) (hc : c.Canonical) :
    (cut x s c p v).IsBranch ∧ (cut x s c p v).Canonical := by
  have hw : (wrap s c).Canonical := wrap_isBranch_canonical hb hc
  have hn : wrap s c ≠ nil := wrap_ne_nil (by rintro rfl; exact hb)
  match p with
  | [] => exact ⟨trivial, .inr ⟨by simp, x, by simpa using hn⟩, single_canonical hw⟩
  | y :: p =>
    have hyx : y ≠ x := hp y p rfl
    exact ⟨trivial, .inl ⟨y, x, hyx, by simp, by simpa [Ne.symm hyx] using hn⟩,
      update_canonical (single_canonical hw) trivial⟩

theorem split_canonical (v : ν) (h : ¬ s <+: p)
    (hb : c.IsBranch) (hc : c.Canonical) : (split s c p v).Canonical := by
  obtain ⟨x, s', hs⟩ := drop_lcp_of_not_isPrefix h
  obtain ⟨hb', hc'⟩ := cut_shape (s := s') v (fun y as he => drop_lcp_ne he hs) hb hc
  simp only [split, hs]
  exact wrap_isBranch_canonical hb' hc'

theorem Crowded.update (h : Crowded cs w) (x : κ)
    (ht : t ≠ nil) : Crowded (Function.update cs x t) w := by
  have keep : ∀ y, cs y ≠ nil → Function.update cs x t y ≠ nil := by
    intro y hy
    by_cases hyx : y = x
    · subst hyx; simpa using ht
    · simpa [hyx] using hy
  rcases h with ⟨a, b, hab, ha, hb⟩ | ⟨hw, a, ha⟩
  · exact .inl ⟨a, b, hab, keep a ha, keep b hb⟩
  · exact .inr ⟨hw, a, keep a ha⟩

theorem insert_ne_nil (t : Tree κ ν) (p : List κ) (v : ν) : t.insert p v ≠ nil := by
  intro h
  have := lookup_insert t p v p
  simp [h] at this

theorem insert_isBranch (h : t.IsBranch) (p : List κ) (v : ν) :
    (t.insert p v).IsBranch := by
  cases t with
  | branch cs w => cases p <;> exact trivial
  | _ => exact h.elim

theorem insert_canonical (h : t.Canonical) (p : List κ) (v : ν) :
    (t.insert p v).Canonical := by
  induction t generalizing p with
  | nil => exact trivial
  | leaf r w =>
    simp only [insert]
    split
    · exact trivial
    · exact fork_canonical w v ‹_›
  | ext s c ih =>
    obtain ⟨hs, hb, hc⟩ := h
    simp only [insert]
    split
    · exact ⟨hs, insert_isBranch hb _ _, ih hc _⟩
    · exact split_canonical v ‹_› hb hc
  | branch cs w ih =>
    obtain ⟨hcr, hc⟩ := h
    cases p with
    | nil =>
      refine ⟨?_, hc⟩
      rcases hcr with ⟨a, b, hab, ha, hb⟩ | ⟨-, a, ha⟩
      · exact .inl ⟨a, b, hab, ha, hb⟩
      · exact .inr ⟨by simp, a, ha⟩
    | cons x p =>
      exact ⟨hcr.update x (insert_ne_nil _ _ _), update_canonical hc (ih x (hc x) p)⟩

/-! ## Keys -/

omit [DecidableEq κ] in
theorem Crowded.exists_child {v : Option ν} (h : Crowded cs v) : ∃ x, cs x ≠ nil := by
  rcases h with ⟨x, -, -, hx, -⟩ | ⟨-, x, hx⟩ <;> exact ⟨x, hx⟩

theorem Canonical.exists_key (h : t.Canonical) (hn : t ≠ nil) :
    ∃ p v, t.lookup p = some v := by
  induction t with
  | nil => exact absurd rfl hn
  | leaf r w => exact ⟨r, w, by simp⟩
  | ext s c ih =>
    obtain ⟨-, hb, hc⟩ := h
    obtain ⟨p, v, hv⟩ := ih hc (by rintro rfl; exact hb)
    exact ⟨s ++ p, v, by simpa using hv⟩
  | branch cs w ih =>
    obtain ⟨hcr, hc⟩ := h
    obtain ⟨x, hx⟩ := hcr.exists_child
    obtain ⟨p, v, hv⟩ := ih x (hc x) hx
    exact ⟨x :: p, v, hv⟩

/-! ## The leaf that answers for a key -/

/-- The leaf at the end of a key's walk: the rest of the key there, and the value. -/
def leafAt : Tree κ ν → List κ → Option (List κ × ν)
  | nil, _ => none
  | leaf r v, p => if p = r then some (r, v) else none
  | ext s c, p => if s <+: p then c.leafAt (p.drop s.length) else none
  | branch _ _, [] => none
  | branch cs _, x :: p => (cs x).leafAt p

@[simp] theorem leafAt_leaf (r p : List κ) (v : ν) :
    (leaf r v).leafAt p = if p = r then some (r, v) else none := by cases p <;> rfl

@[simp] theorem leafAt_ext_append (s : List κ) (c : Tree κ ν) (p : List κ) :
    (ext s c).leafAt (s ++ p) = c.leafAt p := by
  have h : (ext s c).leafAt (s ++ p) =
      if s <+: s ++ p then c.leafAt ((s ++ p).drop s.length) else none := by
    cases s ++ p <;> rfl
  rw [h, if_pos (prefix_append s p), drop_left]

theorem leafAt_ext_none (h : ¬ s <+: p) : (ext s c).leafAt p = none := by
  have hl : (ext s c).leafAt p = if s <+: p then c.leafAt (p.drop s.length) else none := by
    cases p <;> rfl
  rw [hl, if_neg h]

@[simp] theorem leafAt_branch_cons (cs : κ → Tree κ ν) (v : Option ν) (x : κ) (p : List κ) :
    (branch cs v).leafAt (x :: p) = (cs x).leafAt p := rfl

/-! ## Parts of a tree -/

omit [DecidableEq κ] in
/-- The tree `u` is what stands below `k` in `t`. -/
inductive Stands (t : Tree κ ν) : List κ → Tree κ ν → Prop
  | root : Stands t [] t
  | ext {k s : List κ} {c : Tree κ ν} : Stands t k (ext s c) → Stands t (k ++ s) c
  | branch {k : List κ} {cs : κ → Tree κ ν} {w : Option ν} (x : κ) :
      Stands t k (branch cs w) → Stands t (k ++ [x]) (cs x)

namespace Stands

omit [DecidableEq κ] in
theorem of_ext (h : c.Stands k u) : (Tree.ext s c).Stands (s ++ k) u := by
  induction h with
  | root => simpa using Stands.ext (k := []) (Stands.root (t := Tree.ext s c))
  | ext _ ih => rw [← append_assoc]; exact .ext ih
  | branch x _ ih => rw [← append_assoc]; exact .branch x ih

omit [DecidableEq κ] in
theorem of_branch {x : κ} (h : (cs x).Stands k u) :
    (Tree.branch cs w).Stands (x :: k) u := by
  induction h with
  | root => exact Stands.branch (k := []) x (Stands.root (t := Tree.branch cs w))
  | ext _ ih => exact .ext ih
  | branch y _ ih => exact .branch y ih

omit [DecidableEq κ] in
theorem canonical (h : t.Stands k u) (ht : t.Canonical) : u.Canonical := by
  induction h with
  | root => exact ht
  | ext _ ih => exact ih.2.2
  | branch x _ ih => exact ih.2 x

theorem lookup (h : t.Stands k u) (q : List κ) : t.lookup (k ++ q) = u.lookup q := by
  induction h generalizing q with
  | root => rfl
  | ext _ ih => rw [append_assoc, ih, lookup_ext_append]
  | branch x _ ih => rw [append_assoc, ih]; rfl

omit [DecidableEq κ] in
theorem above (h : t.Stands k u) (ht : t.Canonical) (hu : ¬ u.IsBranch) (hk : k ≠ []) :
    ∃ k' x cs w, k = k' ++ [x] ∧ t.Stands k' (Tree.branch cs w) ∧ u = cs x := by
  cases h with
  | root => exact absurd rfl hk
  | ext h => exact absurd (h.canonical ht).2.1 hu
  | branch x h => exact ⟨_, x, _, _, rfl, h, rfl⟩

omit [DecidableEq κ] in
theorem leaf_inv {r : List κ} {v : ν} (h : (Tree.leaf r v).Stands k u) : k = [] ∧ u = Tree.leaf r v := by
  induction h with
  | root => exact ⟨rfl, rfl⟩
  | ext _ ih => cases ih.2
  | branch x _ ih => cases ih.2

omit [DecidableEq κ] in
theorem ext_inv (h : (Tree.ext s c).Stands k u) :
    (k = [] ∧ u = Tree.ext s c) ∨ ∃ k', k = s ++ k' ∧ c.Stands k' u := by
  induction h with
  | root => exact .inl ⟨rfl, rfl⟩
  | ext _ ih =>
    rcases ih with ⟨rfl, he⟩ | ⟨k', rfl, hk'⟩
    · cases he
      exact .inr ⟨[], by simp, .root⟩
    · exact .inr ⟨_, append_assoc _ _ _, .ext hk'⟩
  | branch x _ ih =>
    rcases ih with ⟨rfl, he⟩ | ⟨k', rfl, hk'⟩
    · cases he
    · exact .inr ⟨_, append_assoc _ _ _, .branch x hk'⟩

omit [DecidableEq κ] in
theorem branch_inv (h : (Tree.branch cs w).Stands k u) :
    (k = [] ∧ u = Tree.branch cs w) ∨ ∃ x k', k = x :: k' ∧ (cs x).Stands k' u := by
  induction h with
  | root => exact .inl ⟨rfl, rfl⟩
  | ext _ ih =>
    rcases ih with ⟨rfl, he⟩ | ⟨x, k', rfl, hk'⟩
    · cases he
    · exact .inr ⟨x, _, rfl, .ext hk'⟩
  | branch y _ ih =>
    rcases ih with ⟨rfl, he⟩ | ⟨x, k', rfl, hk'⟩
    · cases he
      exact .inr ⟨y, [], rfl, .root⟩
    · exact .inr ⟨x, _, rfl, .branch y hk'⟩

end Stands

/-- A branch of a canonical tree has a key that does not go through a given child. -/
theorem Canonical.exists_key_beside
    (h : (branch cs w).Canonical) (x : κ) :
    ∃ q v, (branch cs w).lookup q = some v ∧ ∀ q', q ≠ x :: q' := by
  have key : ∀ y, y ≠ x → cs y ≠ nil →
      ∃ q v, (branch cs w).lookup q = some v ∧ ∀ q', q ≠ x :: q' := by
    intro y hy hn
    obtain ⟨q, v, hv⟩ := (h.2 y).exists_key hn
    exact ⟨y :: q, v, hv, fun q' he => hy (List.cons.inj he).1⟩
  rcases h.1 with ⟨y, z, hyz, hy, hz⟩ | ⟨hw, -⟩
  · by_cases hyx : y = x
    · exact key z (fun hzx => hyz (hyx.trans hzx.symm)) hz
    · exact key y hyx hy
  · obtain ⟨v, rfl⟩ := Option.ne_none_iff_exists'.mp hw
    exact ⟨[], v, rfl, fun q' he => by cases he⟩

theorem Canonical.exists_two_keys (h : c.Canonical) (hb : c.IsBranch) :
    ∃ q q' v v', q ≠ q' ∧ c.lookup q = some v ∧ c.lookup q' = some v' := by
  cases c with
  | branch cs w =>
    obtain ⟨x, hx⟩ := h.1.exists_child
    obtain ⟨q, v, hv⟩ := (h.2 x).exists_key hx
    obtain ⟨q', v', hv', hne⟩ := h.exists_key_beside x
    exact ⟨x :: q, q', v, v', fun he => hne q he.symm, hv, hv'⟩
  | _ => exact hb.elim

theorem stands_of_leafAt (h : t.leafAt q = some (r, v)) :
    ∃ k, q = k ++ r ∧ t.Stands k (leaf r v) := by
  induction t generalizing q with
  | nil => cases q <;> cases h
  | leaf r' v' =>
    rw [leafAt_leaf] at h
    split at h
    · rename_i hq
      cases h
      exact ⟨[], hq, .root⟩
    · cases h
  | ext s c ih =>
    by_cases hs : s <+: q
    · obtain ⟨q', rfl⟩ := hs
      rw [leafAt_ext_append] at h
      obtain ⟨k, rfl, hk⟩ := ih h
      exact ⟨s ++ k, by rw [append_assoc], hk.of_ext⟩
    · rw [leafAt_ext_none hs] at h
      cases h
  | branch cs w ih =>
    cases q with
    | nil => cases h
    | cons x q =>
      obtain ⟨k, rfl, hk⟩ := ih x h
      exact ⟨x :: k, rfl, hk.of_branch⟩

theorem Canonical.eq_leaf (h : t.Canonical) {k : List κ}
    (hk : t.lookup k = some v) (honly : ∀ q w, t.lookup q = some w → q = k) : t = leaf k v := by
  cases t with
  | nil => simp at hk
  | leaf r w =>
    rw [lookup_leaf] at hk
    split at hk
    · rename_i he; cases hk; rw [he]
    · cases hk
  | ext s c =>
    obtain ⟨-, hb, hc⟩ := h
    obtain ⟨q, q', w, w', hne, hq, hq'⟩ := hc.exists_two_keys hb
    have h1 := honly (s ++ q) w (by simpa using hq)
    have h2 := honly (s ++ q') w' (by simpa using hq')
    exact absurd (append_cancel_left (h1.trans h2.symm)) hne
  | branch cs w =>
    obtain ⟨q, q', w, w', hne, hq, hq'⟩ := h.exists_two_keys trivial
    exact absurd ((honly q w hq).trans (honly q' w' hq').symm) hne

/-! ## Joining edges -/

/-- The tree below `s`, with `s` merged into its root. -/
def join (s : List κ) : Tree κ ν → Tree κ ν
  | nil => nil
  | leaf r v => leaf (s ++ r) v
  | ext s' c => ext (s ++ s') c
  | branch cs w => wrap s (branch cs w)

theorem lookup_join (s : List κ) (t : Tree κ ν) (q : List κ) :
    (join s t).lookup q = if s <+: q then t.lookup (q.drop s.length) else none := by
  by_cases hs : s <+: q
  · obtain ⟨q, rfl⟩ := hs
    rw [if_pos (prefix_append s q), drop_left]
    cases t with
    | nil => simp [join]
    | leaf r v => simp [join]
    | ext s' c => rw [join, lookup_ext_cat]
    | branch cs w => rw [join, lookup_wrap, if_pos (prefix_append s q), drop_left]
  · rw [if_neg hs]
    cases t with
    | nil => simp [join]
    | leaf r v =>
      rw [join, lookup_leaf, if_neg]
      rintro rfl
      exact hs (prefix_append s r)
    | ext s' c => rw [join, lookup_ext_none fun h => hs ((prefix_append s s').trans h)]
    | branch cs w => rw [join, lookup_wrap, if_neg hs]

omit [DecidableEq κ] in
theorem join_canonical (h : t.Canonical) : (join s t).Canonical := by
  cases t with
  | nil => trivial
  | leaf r v => trivial
  | ext s' c => exact ⟨fun he => h.1 (append_eq_nil_iff.mp he).2, h.2⟩
  | branch cs w => exact wrap_isBranch_canonical trivial h

end Tree

end EthereumRust
