import EthereumRust.Trie.Insert

/-! # What a removal leaves

When two keys are left in a subtree and one goes, the other's leaf moves up as it is, and
its stored path decides which key it stands for: the map is right only if it agrees with
the leaf's key there (`Movable`).

A branch with a value of its own goes wrong: with two or more children left it becomes a
leaf and its children are lost; one child that is a branch is replaced by an extension to
it, although the choice stays; with one that is an extension the value is in the way. So
at most one other key may be left below such a branch (`Spare`). -/

namespace EthereumRust.Mpt
open Nibble Rlp List Exec BranchNode Tree Function

variable {step : Option Nibble → Nibble → Except Unit (Option Nibble)} {self : BranchNode}

/-! ## Counting the choices of a branch -/

theorem foldlM_some {valid : Nibble → Bool}
    (hstep : ∀ acc i, step acc i = match acc, valid i with
      | none, true => .ok (some i)
      | none, false => .ok none
      | some _, true => .error ()
      | some i, false => .ok (some i)) (l : List Nibble) (i : Nibble) :
    l.foldlM step (some i) = if l.filter valid = [] then .ok (some i) else .error () := by
  induction l with
  | nil => rfl
  | cons a l ih =>
    rw [foldlM_cons, hstep]
    cases ha : valid a with
    | true => simp only [filter_cons, ha, if_true]; rfl
    | false =>
      simp only [filter_cons, ha]
      exact ih

theorem foldlM_none (valid : Nibble → Bool)
    (hstep : ∀ acc i, step acc i = match acc, valid i with
      | none, true => .ok (some i)
      | none, false => .ok none
      | some _, true => .error ()
      | some i, false => .ok (some i)) (l : List Nibble) :
    l.foldlM step none = match l.filter valid with
      | [] => .ok none
      | [i] => .ok (some i)
      | _ => .error () := by
  induction l with
  | nil => rfl
  | cons a l ih =>
    rw [foldlM_cons, hstep]
    cases ha : valid a with
    | true =>
      have h := foldlM_some hstep l a
      simp only [filter_cons, ha]
      change l.foldlM step (some a) = _
      rw [h]
      cases l.filter valid with
      | nil => rfl
      | cons b bs => rfl
    | false =>
      simp only [filter_cons, ha]
      exact ih

theorem BranchNode.choiceCount_eq (self : BranchNode) :
    self.choiceCount = match (List.finRange 16).filter fun i => (self.choices i).isValid with
      | [] => .ok none
      | [i] => .ok (some i)
      | _ => .error () :=
  foldlM_none (fun i => (self.choices i).isValid) (fun _ _ => rfl) _

theorem BranchNode.choiceCount_one
    (h : ∀ i, (self.choices i).isValid = true ↔ i = y) : self.choiceCount = .ok (some y) := by
  have hf : (List.finRange 16).filter (fun i => (self.choices i).isValid) = [y] := by
    have h1 : (List.finRange 16).filter (fun i => (self.choices i).isValid) =
        (List.finRange 16).filter (· == y) := by
      apply filter_congr
      intro i _
      rw [Bool.eq_iff_iff, h i, beq_iff_eq]
    rw [h1, filter_beq, count_eq_one_of_mem (nodup_finRange 16) (mem_finRange y)]
    rfl
  rw [choiceCount_eq, hf]

theorem BranchNode.choiceCount_many (hxy : x ≠ y)
    (hx : (self.choices x).isValid = true) (hy : (self.choices y).isValid = true) :
    self.choiceCount = .error () := by
  have hmx : x ∈ (List.finRange 16).filter fun i => (self.choices i).isValid :=
    mem_filter.mpr ⟨mem_finRange x, hx⟩
  have hmy : y ∈ (List.finRange 16).filter fun i => (self.choices i).isValid :=
    mem_filter.mpr ⟨mem_finRange y, hy⟩
  rw [choiceCount_eq]
  match hl : (List.finRange 16).filter fun i => (self.choices i).isValid with
  | [] => rw [hl] at hmx; cases hmx
  | [i] =>
    rw [hl, mem_singleton] at hmx hmy
    exact absurd (hmx.trans hmy.symm) hxy
  | _ :: _ :: _ => rfl

theorem BranchNode.choiceCount_zero (h : ∀ i, (self.choices i).isValid = false) :
    self.choiceCount = .ok none := by
  have hf : (List.finRange 16).filter (fun i => (self.choices i).isValid) = [] :=
    filter_eq_nil_iff.mpr fun i _ => by rw [h i]; simp
  rw [choiceCount_eq, hf]

theorem BranchNode.choiceCount_single [Keccak256] {cs : Nibble → Contents n}
    (honly : ∀ z, z ≠ y → cs z = .nil) (hy : cs y ≠ .nil) (path value : ByteString) :
    BranchNode.choiceCount ⟨fun z => ref (cs z), path, value⟩ = .ok (some y) := by
  apply choiceCount_one
  intro z
  simp only [isValid_ref]
  exact ⟨fun hz => by_contra fun hne => hz (honly z hne), fun hz => hz ▸ hy⟩

/-! ## Leaves that move -/

section

/-- Everything is stored under its own path. -/
def Marks.Owned (μ : Marks n) : Prop :=
  (∀ {pre path}, μ.branch pre path → nibbles path = pre) ∧
    ∀ {pre r path}, μ.leaf pre r path ↔ nibbles path = pre ++ r

/-- A tree stands at a place when its entries are held, and a leaf can be moved up. -/
structure Keyed (σ : Site n μ) (holds : List Nibble → Value n → Prop) : Prop where
  fits_iff : ∀ {pre t}, σ.fits pre t ↔
    Sits μ.size pre t ∧ ∀ k v, t.lookup k = some v → holds (pre ++ k) v
  reads : ∀ r, μ.reads r
  /-- Moved up to `pre`, a leaf stands for the key that its stored path decides. -/
  moved : ∀ {pre s r v path}, holds (pre ++ (s ++ r)) v → μ.leaf (pre ++ s) r path →
    holds (pre ++ (nibbles path).drop pre.length) v ∧ μ.leaf pre ((nibbles path).drop pre.length) path
  /-- A key goes on from another only where everything is stored under its own path. -/
  owned : ∀ {l i}, μ.size l → 0 < i → μ.size (l + i) → μ.Owned

theorem keyed_among (P : ByteString → Prop) : Keyed (Site.among n P) fun _ _ => True where
  fits_iff := ⟨fun h => ⟨h, fun _ _ _ => trivial⟩, fun h => h.1⟩
  reads _ := trivial
  moved _ h := ⟨trivial, h.1.up, h.2⟩
  owned h hi h' := by omega

theorem keyed_entries {m : List Nibble → Option (Value n)}
    (hm : ∀ k k' v, m k = some v → m k' = some v → k = k') :
    Keyed (Site.entries m hm) fun k v => m k = some v where
  fits_iff := Iff.rfl
  reads _ := trivial
  moved {pre s r v path} h hpath := by
    have hown : nibbles path = pre ++ (s ++ r) := by rw [← append_assoc]; exact hpath
    rw [hown, drop_left]
    exact ⟨h, hown⟩
  owned _ _ _ := ⟨id, Iff.rfl⟩

end

/-! ## What is left -/

section

variable [Keccak256] {n : Nat} {δ : Type} [TrieDB δ] {μ : Marks n} {σ : Site n μ} {st : TrieState δ} {c : Contents n}

/-- The leaf that answers for the key `q` is stored with the path `stored`. -/
def FoundAt (st : TrieState δ) (t : Contents n) (q : List Nibble) (stored : ByteString) : Prop :=
  ∃ r w, t.leafAt q = some (r, w) ∧ st.getNode (ref (.leaf r w)) = .ok (some (.leaf ⟨stored, w.1⟩))

theorem FoundAt.leaf (h : FoundAt st t q stored)
    (ht : Stored μ st pre t) : ∃ s r, q = s ++ r ∧ μ.leaf (pre ++ s) r stored := by
  obtain ⟨r, w, hl, hg⟩ := h
  obtain ⟨s, rfl, hs⟩ := stands_of_leafAt hl
  obtain ⟨-, node, hg', hm⟩ := (ht.stands hs).held (by simp)
  rw [hg] at hg'
  cases hg'
  cases hm with
  | leaf hpath => exact ⟨s, r, rfl, hpath⟩

/-- If removing `p` moves a leaf up, its stored path agrees with its key from there on:
the leaf that moves is that of the one key closest to `p`, and it moves to just
below where its key parts from the others. -/
def Movable (st : TrieState δ) (pre : List Nibble) (t : Contents n) (p : List Nibble) : Prop :=
  ∀ q stored, q ≠ p → t.lookup q ≠ none → FoundAt st t q stored →
    (∀ k, t.lookup k ≠ none → k ≠ p → k ≠ q → lcp p k < lcp p q) →
    ∀ i, (∀ k, t.lookup k ≠ none → k ≠ p → k ≠ q → lcp q k < i) →
      (nibbles stored)[pre.length + i]? = q[i]?

theorem Marks.Owned.movable (hown : μ.Owned) (ht : Stored μ st pre t) (p : List Nibble) :
    Movable st pre t p := by
  intro q stored _ _ hfound _ i _
  obtain ⟨s, r, rfl, hleaf⟩ := hfound.leaf ht
  rw [hown.2.mp hleaf, append_assoc, List.getElem?_append_right (by omega), Nat.add_sub_cancel_left]

/-- The stored path with which the entry of `q` would move up. -/
structure Answers (μ : Marks n) (st : TrieState δ) (pre : List Nibble) (t : Contents n) (q : List Nibble)
    (stored : ByteString) (w : Value n) : Prop where
  kept : t.lookup q = some w
  found : FoundAt st t q stored ∨ nibbles stored = pre ++ q
  stands : ∃ s r, q = s ++ r ∧ μ.leaf (pre ++ s) r stored

/-- What the removal of `p` from `t` returned and left behind: the tree `t'`. -/
structure Removed (σ : Site n μ) (st st' : TrieState δ) (pre p : List Nibble) (t t' : Contents n)
    (res : Option Node) : Prop where
  fits : σ.fits pre t'
  built : ∀ node, res = some node → Built σ st st' pre t' node
  gone : res = none → t' = .nil ∧ st' = st ∧ ∃ r w, t = .leaf r w
  absent : t.lookup p = none → t' = t
  /-- A leaf that was not a leaf before was moved up. -/
  leaf : ∀ {r w}, t' = .leaf r w → (∃ r' w', t = .leaf r' w') ∨
    st' = st ∧ t.lookup p ≠ none ∧ ∃ q stored, res = some (.leaf ⟨stored, w.1⟩) ∧ q ≠ p ∧
      (∀ k, t.lookup k ≠ none → k = p ∨ k = q) ∧ Answers μ st pre t q stored w
  lookups : Movable st pre t p → ∀ q, t'.lookup q = if q = p then none else t.lookup q

def Removes (σ : Site n μ) (st : TrieState δ) (pre p : List Nibble) (t : Contents n)
    (x : TrieM δ (Option Node × Option ByteString)) : Prop :=
  ∃ res st' t', x st = (.ok (res, (t.lookup p).map Subtype.val), st') ∧
    Removed σ st st' pre p t t' res

theorem Removed.unchanged (hσ : Keyed σ holds) (hr : Sits μ.size pre t)
    (hm : Matches μ pre t node) (hst : StoredBelow μ st pre t)
    (he : ∀ k v, t.lookup k = some v → k ≠ p → holds (pre ++ k) v) (hp : t.lookup p = none) :
    Removed σ st st pre p t t (some node) where
  fits := hσ.fits_iff.mpr ⟨hr, fun k v hk => he k v hk (by rintro rfl; rw [hp] at hk; cases hk)⟩
  built := by
    rintro _ ⟨⟩
    exact ⟨hm, hm.encodes (hr.imp μ.even) fun _ _ _ => hσ.reads _, .refl, hst.seen, fun _ => hst⟩
  gone := nofun
  absent _ := rfl
  leaf := by
    rintro r w rfl
    exact .inl ⟨r, w, rfl⟩
  lookups _ q := by
    split
    · rename_i h; rw [h, hp]
    · rfl

theorem FoundAt.ext
    (h : FoundAt st c q stored) : FoundAt st (.ext s c) (s ++ q) stored := by
  obtain ⟨r, w, hl, hg⟩ := h
  exact ⟨r, w, by simpa using hl, hg⟩

theorem FoundAt.branch
    (h : FoundAt st (cs x) q stored) :
    FoundAt st (.branch cs v) (x :: q) stored := h

omit [Keccak256] in
theorem lookup_ext_ne_none
    (h : (Tree.ext s c).lookup k ≠ none) : ∃ k', k = s ++ k' ∧ c.lookup k' ≠ none := by
  by_cases hs : s <+: k
  · obtain ⟨k', rfl⟩ := hs
    exact ⟨k', rfl, by simpa using h⟩
  · exact absurd (lookup_ext_none hs) h

theorem Movable.ext_child
    (h : Movable st pre (.ext s c) (s ++ p)) : Movable st (pre ++ s) c p := by
  intro q stored hq hl hfound hclose i hi
  have hi' := h (s ++ q) stored (by simpa using hq) (by simpa using hl) hfound.ext ?_ (s.length + i) ?_
  · rw [length_append, Nat.add_assoc, hi', List.getElem?_append_right (by omega)]
    congr 1
    omega
  · intro k hk hkp hkq
    obtain ⟨k', rfl, hk'⟩ := lookup_ext_ne_none hk
    rw [lcp_append, lcp_append]
    have := hclose k' hk' (by simpa using hkp) (by simpa using hkq)
    omega
  · intro k hk hkp hkq
    obtain ⟨k', rfl, hk'⟩ := lookup_ext_ne_none hk
    rw [lcp_append]
    have := hi k' hk' (by simpa using hkp) (by simpa using hkq)
    omega

theorem Movable.branch_child
    (h : Movable st pre (.branch cs v) (x :: p)) : Movable st (pre ++ [x]) (cs x) p := by
  intro q stored hq hl hfound hclose i hi
  have hi' := h (x :: q) stored (by simpa using hq) hl hfound.branch ?_ (i + 1) ?_
  · rw [length_append, length_singleton, Nat.add_assoc, Nat.add_comm 1 i, hi',
      List.getElem?_cons_succ]
  · intro k hk hkp hkq
    cases k with
    | nil => simp
    | cons y k =>
      rw [lcp_cons_self]
      by_cases hyx : x = y
      · subst hyx
        rw [lcp_cons_self]
        have := hclose k hk (by simpa using hkp) (by simpa using hkq)
        omega
      · rw [lcp_cons_ne hyx]
        omega
  · intro k hk hkp hkq
    cases k with
    | nil => simp
    | cons y k =>
      by_cases hyx : x = y
      · subst hyx
        rw [lcp_cons_self]
        have := hi k hk (by simpa using hkp) (by simpa using hkq)
        omega
      · rw [lcp_cons_ne hyx]
        omega

/-- A leaf moved up from a key that shares its subtree with `p` only stands for its own key. -/
theorem Movable.moved {t : Contents n}
    (h : Movable st pre t p) (hq : q ≠ p) (hl : t.lookup q ≠ none) (hfound : FoundAt st t q stored)
    (honly : ∀ k, t.lookup k ≠ none → k = p ∨ k = q) : (nibbles stored).drop pre.length = q := by
  apply ext_getElem?
  intro i
  rw [List.getElem?_drop]
  refine h q stored hq hl hfound ?_ i ?_
  · intro k hk hkp hkq
    exact ((honly k hk).elim hkp hkq).elim
  · intro k hk hkp hkq
    exact ((honly k hk).elim hkp hkq).elim

theorem Keyed.lift (hσ : Keyed σ holds)
    (hstands : ∃ s r, q = s ++ r ∧ μ.leaf (pre ++ s) r stored) (hsize : μ.size (pre.length + q.length))
    (hh : holds (pre ++ q) w) (hw : Writes σ st st') :
    σ.fits pre (.leaf ((nibbles stored).drop pre.length) w) ∧
      Built σ st st' pre (.leaf ((nibbles stored).drop pre.length) w) (.leaf ⟨stored, w.1⟩) := by
  obtain ⟨s, r, rfl, hleaf⟩ := hstands
  obtain ⟨hh', hleaf'⟩ := hσ.moved hh hleaf
  have hsized := μ.leaf_sized hleaf (hσ.reads r)
  have hlen := hsized.length
  rw [length_append] at hlen hsize
  have hup := hsized.up
  have hsits : Sits μ.size pre (.leaf ((nibbles stored).drop pre.length) w) := by
    refine ⟨trivial, fun k v hk => ?_⟩
    rw [lookup_leaf] at hk
    split at hk
    · rename_i he
      rw [he, hup.length, ← hlen, Nat.add_assoc]
      exact hsize
    · cases hk
  refine ⟨hσ.fits_iff.mpr ⟨hsits, fun k v hk => ?_⟩, .leaf (hsits.imp μ.even) hleaf' hup hw⟩
  rw [lookup_leaf] at hk
  split at hk
  · rename_i he; cases hk; rw [he]; exact hh'
  · cases hk

theorem Removed.moved (hσ : Keyed σ holds)
    (hr : Sits μ.size pre t) (he : ∀ k v, t.lookup k = some v → k ≠ p → holds (pre ++ k) v)
    (hqp : q ≠ p) (honly : ∀ k, t.lookup k ≠ none → k = p ∨ k = q) (hpt : t.lookup p ≠ none)
    (hq : Answers μ st pre t q stored w) :
    Removed σ st st pre p t (.leaf ((nibbles stored).drop pre.length) w)
      (some (.leaf ⟨stored, w.1⟩)) := by
  have hw : Writes σ st st := .refl
  obtain ⟨hfits, hbuilt⟩ := hσ.lift hq.stands (hr.keys q w hq.kept) (he q w hq.kept hqp) hw
  refine ⟨hfits, ?_, nofun, fun h => absurd h hpt, ?_, ?_⟩
  · rintro _ ⟨⟩
    exact hbuilt
  · rintro r w' heq
    cases heq
    exact .inr ⟨rfl, hpt, q, stored, rfl, hqp, honly, hq⟩
  · intro hmov k
    have hdrop : (nibbles stored).drop pre.length = q := by
      rcases hq.found with hfound | hown
      · exact hmov.moved hqp (by rw [hq.kept]; simp) hfound honly
      · rw [hown, drop_left]
    rw [hdrop, lookup_leaf]
    by_cases hkq : k = q
    · subst hkq; rw [if_pos rfl, if_neg hqp, hq.kept]
    · rw [if_neg hkq]
      split
      · rfl
      · rename_i hkp
        by_contra hne
        exact (honly k (Ne.symm hne)).elim hkp hkq

end

/-! ## Extensions -/

section

variable [Keccak256] {n : Nat} {δ : Type} [TrieDB δ] {μ : Marks n} {σ : Site n μ}
  {st' st₁ : TrieState δ} {pfx : NibbleVec}

omit [Keccak256] in
theorem lastIsHalf_of_holds {pfx : NibbleVec} {pre s : List Nibble} (hpfx : pfx.Holds s)
    (half : pfx.firstIsHalf = (pre.length % 2 != 0)) :
    pfx.lastIsHalf = ((pre ++ s).length % 2 != 0) := by
  have hsize := hpfx.size
  rw [half] at hsize
  rcases Nat.mod_two_eq_zero_or_one pre.length with h | h <;>
    rcases Nat.mod_two_eq_zero_or_one (pre.length + s.length) with h' | h' <;>
    cases hl : pfx.lastIsHalf <;> simp [h, hl] at hsize <;> simp [h'] <;> omega

theorem ExtensionNode.restructure_joins (child : NodeHash) (hpfx : pfx.Holds s) (hs : s ≠ [])
    (half : pfx.firstIsHalf = (pre.length % 2 != 0)) (hb : Built σ st st' (pre ++ s) c node)
    (hleaf : ∀ l, node ≠ .leaf l) (hfc : σ.fits (pre ++ s) c) (hf : σ.fits pre (Tree.join s c)) :
    ∃ node' st'', ExtensionNode.restructure ⟨pfx, child⟩ (some node) st' = (.ok (some node'), st'') ∧
      Built σ st st'' pre (Tree.join s c) node' := by
  have htop := hb.top
  cases htop with
  | leaf hpath => exact absurd rfl (hleaf _)
  | @ext s' c₂ pfx' hpfx' half' =>
    obtain ⟨u, hu, hholds, hfirst, -⟩ := NibbleVec.extend_spec (ε := TrieError) hpfx hpfx'
      (by rw [lastIsHalf_of_holds hpfx half, half'])
    refine ⟨_, st', call_bind hu _ st', ?_⟩
    refine .ext (σ.ragged hf) ⟨hb.writes, hb.seen, fun hcf => ?_⟩ hholds (by rw [hfirst, half])
    rw [← append_assoc]
    exact hb.stored hcf
  | bare =>
    have hself := hb.insertSelf 0 (fun l hl => by cases hl)
    rw [Tree.join, Tree.wrap, if_neg hs] at hf ⊢
    exact ⟨_, _, run_bind_ok hself _, .ext (σ.ragged hf) (hb.place hfc) hpfx half⟩
  | valued hpath =>
    have hself := hb.insertSelf 0 (fun l hl => by cases hl)
    rw [Tree.join, Tree.wrap, if_neg hs] at hf ⊢
    exact ⟨_, _, run_bind_ok hself _, .ext (σ.ragged hf) (hb.place hfc) hpfx half⟩

/-- The ways an extension meets what is left of its child. -/
theorem ExtensionNode.restructure_run (hσ : Keyed σ holds) (hr : Sits μ.size pre (.ext s c))
    (he : ∀ k v, (Tree.ext s c).lookup k = some v → k ≠ s ++ q → holds (pre ++ k) v)
    (hpfx : pfx.Holds s) (half : pfx.firstIsHalf = (pre.length % 2 != 0))
    (hc : Removed σ st st₁ (pre ++ s) q c c' (some node)) :
    ∃ res st' t', ExtensionNode.restructure ⟨pfx, ref c⟩ (some node) st₁ = (.ok res, st') ∧
      Removed σ st st' pre (s ++ q) (.ext s c) t' res := by
  obtain ⟨hne, hb, -⟩ := hr.canonical
  have hbuilt := hc.built node rfl
  by_cases hleaf : ∀ l, node ≠ .leaf l
  · obtain ⟨hsits, hheld⟩ := hσ.fits_iff.mp hc.fits
    have hlook : ∀ k, (Tree.join s c').lookup k = (Tree.ext s c').lookup k := fun k => by
      rw [Tree.lookup_join, Tree.lookup_ext]
    have hfits : σ.fits pre (Tree.join s c') := by
      refine hσ.fits_iff.mpr ⟨⟨join_canonical hsits.canonical, fun k v hk => ?_⟩, fun k v hk => ?_⟩ <;>
        obtain ⟨k, rfl, -⟩ := lookup_ext_ne_none (c := c') (k := k) (by rw [← hlook, hk]; simp) <;>
        rw [hlook, lookup_ext_append] at hk
      · rw [length_append, ← Nat.add_assoc, ← length_append]
        exact hsits.keys k v hk
      · rw [← append_assoc]
        exact hheld k v hk
    obtain ⟨node', st', hrun, hbuilt'⟩ :=
      ExtensionNode.restructure_joins (ref c) hpfx hne half hbuilt hleaf hc.fits hfits
    refine ⟨some node', st', _, hrun, hfits, ?_, nofun, fun h => ?_, fun {r w} h => ?_, fun hmov k => ?_⟩
    · rintro _ ⟨⟩
      exact hbuilt'
    · rw [hc.absent (by simpa using h)]
      cases c with
      | branch cs w => rw [Tree.join, Tree.wrap, if_neg hne]
      | _ => exact hb.elim
    · -- only a leaf joins to a leaf
      have htop := hbuilt.top
      cases c' with
      | nil => exact absurd rfl htop.ne_nil
      | leaf r' w' =>
        cases htop
        exact absurd rfl (hleaf _)
      | ext s' c₂ => cases h
      | branch cs w' => rw [Tree.join, Tree.wrap, if_neg hne] at h; cases h
    · rw [hlook]
      by_cases hs : s <+: k
      · obtain ⟨k, rfl⟩ := hs
        simp only [lookup_ext_append, append_cancel_left_eq]
        exact hc.lookups hmov.ext_child k
      · rw [lookup_ext_none hs, lookup_ext_none hs]
        simp
  · -- the child was a branch, so the leaf was moved up to it; now it moves up to here
    simp only [not_forall, not_not] at hleaf
    obtain ⟨l, rfl⟩ := hleaf
    have htop := hbuilt.top
    cases htop with
    | @leaf r w stored hpath =>
      rcases hc.leaf rfl with ⟨r', w', rfl⟩ | ⟨rfl, hq, k, stored', hres, hkq, honly, hans⟩
      · exact hb.elim
      · cases hres
        refine ⟨_, _, _, rfl, .moved (q := s ++ k) hσ hr he (by simpa using hkq) ?_ (by simpa using hq) ?_⟩
        · intro j hj
          obtain ⟨j', rfl, hj'⟩ := lookup_ext_ne_none hj
          simpa using honly j' hj'
        · obtain ⟨s', r', rfl, hleaf⟩ := hans.stands
          refine ⟨by simpa using hans.kept, ?_, s ++ s', r', (append_assoc _ _ _).symm, ?_⟩
          · rw [← append_assoc pre]
            exact hans.found.imp FoundAt.ext id
          · rw [← append_assoc]
            exact hleaf

theorem ExtensionNode.remove_run {path} {rec : RemoveChild δ} {child}
    (hσ : Keyed σ holds) (hp : Along n path pre (s ++ q)) (hr : Sits μ.size pre (.ext s c))
    (he : ∀ k v, (Tree.ext s c).lookup k = some v → k ≠ s ++ q → holds (pre ++ k) v)
    (hpfx : pfx.Holds s) (half : pfx.firstIsHalf = (pre.length % 2 != 0))
    (hg : st.getNode (ref c) = .ok (some child))
    (hrec : Removes σ st (pre ++ s) q c (rec child (path.offsetAdd s.length))) :
    Removes σ st pre (s ++ q) (.ext s c) (ExtensionNode.remove rec ⟨pfx, ref c⟩ path) := by
  obtain ⟨hne, hb, -⟩ := hr.canonical
  obtain ⟨res, st₁, c', hrun, hc⟩ := hrec
  cases res with
  | none =>
    obtain ⟨-, -, r, w, rfl⟩ := hc.gone rfl
    exact hb.elim
  | some node =>
    obtain ⟨res', st', t', hrun', hrem⟩ := ExtensionNode.restructure_run hσ hr he hpfx half hc
    refine ⟨res', st', t', ?_, hrem⟩
    rw [ExtensionNode.remove, call_bind (hp.skipPrefix hpfx half hne (.inl (by simp)))]
    simp only [prefix_append, if_true]
    rw [run_bind_ok (expectNode_run hg), run_bind_ok hrun, run_bind_ok hrun',
      lookup_ext_append]
    rfl

end

/-! ## Branches -/

section

variable [Keccak256] {n : Nat} {δ : Type} [TrieDB δ] {μ : Marks n} {σ : Site n μ} {st st' : TrieState δ}
  {cs : Nibble → Contents n} {t : Contents n} {path : NibbleSlice} {rec : RemoveChild δ}
  {holds : List Nibble → Value n → Prop} {w : Option (Value n)}

omit [TrieDB δ] in
theorem BranchNode.restructure_many [TrieDB δ] (hab : a ≠ b) (ha : cs a ≠ .nil)
    (hb : cs b ≠ .nil) (offset : Nat) (st : TrieState δ) :
    BranchNode.restructure ⟨fun x => ref (cs x), [], []⟩ offset st =
      (.ok (.branch ⟨fun x => ref (cs x), [], []⟩), st) := by
  have hc : BranchNode.choiceCount ⟨fun x => ref (cs x), [], []⟩ = .error () :=
    choiceCount_many hab ((isValid_ref _).mpr ha) ((isValid_ref _).mpr hb)
  rw [BranchNode.restructure, hc]
  rfl

theorem BranchNode.restructure_joins (honly : ∀ z, z ≠ y → cs z = .nil)
    (hy : cs y ≠ .nil) (hg : st'.getNode (ref (cs y)) = .ok (some child))
    (hc : Matches μ (pre ++ [y]) (cs y) child) (hleaf : ∀ l, child ≠ .leaf l)
    (hl : Placed σ st st' (pre ++ [y]) (cs y)) (hf : σ.fits pre (Tree.join [y] (cs y))) :
    ∃ node st'', BranchNode.restructure ⟨fun z => ref (cs z), [], []⟩ pre.length st' = (.ok node, st'') ∧
      Built σ st st'' pre (Tree.join [y] (cs y)) node := by
  rw [BranchNode.restructure, choiceCount_single honly hy]
  simp only []
  rw [run_bind_ok (expectNode_run hg)]
  -- above a branch an extension is stored and read back
  have hdown : ∀ {node : Node} {c : Contents n}, cs y = c → c.IsBranch →
      node = .extension ⟨NibbleVec.fromSingle y (pre.length % 2 != 0), ref c⟩ →
      ExtensionNode.insertSelf ⟨NibbleVec.fromSingle y (pre.length % 2 != 0), ref c⟩ st' =
          (.ok (ref (Tree.join [y] c)), st'.write (Tree.join [y] c) node) ∧
        Built σ st (st'.write (Tree.join [y] c) node) pre (Tree.join [y] c) node := by
    rintro node c rfl hb rfl
    have hj : Tree.join [y] (cs y) = .ext [y] (cs y) := by
      cases hcy : cs y with
      | branch cs' w => simp [Tree.join, Tree.wrap]
      | _ => rw [hcy] at hb; exact hb.elim
    rw [hj] at hf ⊢
    have hm : Built σ st st' pre (.ext [y] (cs y))
        (.extension ⟨NibbleVec.fromSingle y (pre.length % 2 != 0), ref (cs y)⟩) :=
      .ext (σ.ragged hf) hl (NibbleVec.fromSingle_holds y _) rfl
    exact ⟨hm.insertSelf 0 (fun l hl => by cases hl), (hm.place hf).built hm.top hm.encodes⟩
  generalize hcy : cs y = c at *
  cases hc with
  | leaf hpath => exact absurd rfl (hleaf _)
  | @ext s c₂ pfx hpfx half =>
    obtain ⟨u, hu, hholds, hfirst, -⟩ := NibbleVec.prepend_spec (ε := TrieError) hpfx y
    have hparity : u.firstIsHalf = (pre.length % 2 != 0) := by
      rw [hfirst, half, length_append]
      rcases Nat.mod_two_eq_zero_or_one pre.length with h | h
      · have : (pre.length + 1) % 2 = 1 := by omega
        simp [h, this]
      · have : (pre.length + 1) % 2 = 0 := by omega
        simp [h, this]
    refine ⟨_, st', ?_, .ext (σ.ragged hf) ?_ hholds hparity⟩
    · simp only [isEmpty_nil]
      rw [call_bind (Rust.assert_true _), call_bind hu]
      rfl
    · have := hl.ext_child
      rwa [append_assoc] at this
  | bare =>
    obtain ⟨hself, hm⟩ := hdown rfl trivial rfl
    refine ⟨_, _, ?_, hm⟩
    dsimp only
    rw [run_bind_ok hself]
    exact expectNode_run (getNode_write _ _ _)
  | valued hpath =>
    obtain ⟨hself, hm⟩ := hdown rfl trivial rfl
    refine ⟨_, _, ?_, hm⟩
    dsimp only
    rw [run_bind_ok hself]
    exact expectNode_run (getNode_write _ _ _)

omit [Keccak256] in
theorem lookup_join_single (honly : ∀ z, z ≠ y → cs z = .nil) (q : List Nibble) :
    (Tree.join [y] (cs y)).lookup q = (Tree.branch cs none).lookup q := by
  rw [lookup_join]
  cases q with
  | nil => simp
  | cons z q =>
    rw [lookup_branch_cons]
    by_cases hz : z = y
    · subst hz; simp
    · rw [honly z hz, if_neg (by simp [cons_prefix_cons, Ne.symm hz])]
      simp

/-- What becomes of a branch `u` that keys were taken out of: the tree `t'`. -/
structure Settled (σ : Site n μ) (st st' st'' : TrieState δ) (pre : List Nibble) (u t' : Contents n)
    (node : Node) : Prop where
  fits : σ.fits pre t'
  built : Built σ st st'' pre t' node
  same : u.Canonical → t' = u
  leaf : ∀ {r v}, t' = .leaf r v → st'' = st' ∧ ∃ q stored, node = .leaf ⟨stored, v.1⟩ ∧
    (∀ k, u.lookup k ≠ none → k = q) ∧ Answers μ st' pre u q stored v
  lookups : (∀ q stored, u.lookup q ≠ none → (∀ k, u.lookup k ≠ none → k = q) → FoundAt st' u q stored →
    (nibbles stored).drop pre.length = q) → ∀ q, t'.lookup q = u.lookup q

section

variable (hσ : Keyed σ holds) (hcan : ∀ z, (cs z).Canonical) (hw : Writes σ st st')
  (hl : ∀ z, Placed σ st st' (pre ++ [z]) (cs z)) (hread : ∀ y, cs y ≠ .nil → (∀ z, z ≠ y → cs z = .nil) →
    ∃ child, st'.getNode (ref (cs y)) = .ok (some child) ∧ Matches μ (pre ++ [y]) (cs y) child)

include hσ hcan hw hl hread

/-- A branch without a value is put in order. -/
theorem BranchNode.restructure_bare (hkeys : ∀ k v, (Tree.branch cs none).lookup k = some v →
      μ.size (pre.length + k.length) ∧ holds (pre ++ k) v) (hleft : ∃ y, cs y ≠ .nil) :
    ∃ node st'' t', BranchNode.restructure ⟨fun z => ref (cs z), [], []⟩ pre.length st' = (.ok node, st'') ∧
      Settled σ st st' st'' pre (.branch cs none) t' node := by
  have hfits : ∀ t : Contents n, t.Canonical → (∀ q, t.lookup q = (Tree.branch cs none).lookup q) →
      σ.fits pre t := fun t hc hl => hσ.fits_iff.mpr
    ⟨⟨hc, fun k v hk => (hkeys k v (hl k ▸ hk)).1⟩, fun k v hk => (hkeys k v (hl k ▸ hk)).2⟩
  by_cases hmany : ∃ x y, x ≠ y ∧ cs x ≠ .nil ∧ cs y ≠ .nil
  · obtain ⟨x, y, hxy, hx, hy⟩ := hmany
    exact ⟨_, st', _, restructure_many hxy hx hy _ st',
      hfits (.branch cs none) ⟨.inl ⟨x, y, hxy, hx, hy⟩, hcan⟩ fun _ => rfl, .bare hw hl,
        fun _ => rfl, nofun, fun _ _ => rfl⟩
  · obtain ⟨y, hy⟩ := hleft
    have honly : ∀ z, z ≠ y → cs z = .nil := fun z hz => by_contra fun hn => hmany ⟨z, y, hz, hn, hy⟩
    have hcrowd : ¬ (Tree.branch cs none).Canonical := fun h => h.1.elim hmany fun h => h.1 rfl
    obtain ⟨child, hg, hc⟩ := hread y hy honly
    by_cases hleaf : ∀ l, child ≠ .leaf l
    · have hlook := lookup_join_single honly
      have hf := hfits _ (join_canonical (s := [y]) (hcan y)) hlook
      obtain ⟨node, st'', hrun, hb⟩ := restructure_joins honly hy hg hc hleaf (hl y) hf
      refine ⟨node, st'', _, hrun, hf, hb, fun h => absurd h hcrowd, fun {r v} h => ?_, fun _ => hlook⟩
      generalize cs y = c at hc h
      cases hc with
      | leaf hpath => exact absurd rfl (hleaf _)
      | _ => simp [Tree.join, Tree.wrap] at h
    · -- the leaf moves up as it is stored
      simp only [not_forall, not_not] at hleaf
      obtain ⟨l, rfl⟩ := hleaf
      obtain ⟨r, v, stored, hcy, rfl, hpath⟩ : ∃ r v stored, cs y = .leaf r v ∧ l = ⟨stored, v.1⟩ ∧
          μ.leaf (pre ++ [y]) r stored := by
        generalize cs y = c at hc
        cases hc with
        | leaf hpath => exact ⟨_, _, _, rfl, rfl, hpath⟩
      have hkept : (Tree.branch cs none).lookup (y :: r) = some v := by simp [hcy]
      have hone : ∀ k, (Tree.branch cs none).lookup k ≠ none → k = y :: r := by
        intro k hk
        cases k with
        | nil => exact absurd rfl hk
        | cons z k =>
          rw [lookup_branch_cons] at hk
          by_cases hz : z = y
          · subst hz
            rw [hcy, lookup_leaf] at hk
            split at hk
            · rename_i he; rw [he]
            · exact absurd rfl hk
          · rw [honly z hz] at hk
            simp at hk
      have hfound : FoundAt st' (.branch cs none) (y :: r) stored :=
        ⟨r, v, by simp [hcy], hcy ▸ hg⟩
      have hans : Answers μ st' pre (.branch cs none) (y :: r) stored v :=
        ⟨hkept, .inl hfound, [y], r, rfl, hpath⟩
      obtain ⟨hf, hb⟩ := hσ.lift hans.stands (hkeys _ v hkept).1 (hkeys _ v hkept).2 hw
      refine ⟨_, st', _, ?_, hf, hb, fun h => absurd h hcrowd, fun h => ?_, fun hmov q => ?_⟩
      · rw [BranchNode.restructure, choiceCount_single honly hy]
        simp only []
        rw [run_bind_ok (expectNode_run hg)]
        exact expectNode_run hg
      · cases h
        exact ⟨rfl, _, stored, rfl, hone, hans⟩
      · rw [hmov _ stored (by rw [hkept]; simp) hone hfound, lookup_leaf]
        split
        · rename_i he; rw [he, hkept]
        · by_contra hne
          exact absurd (hone q (Ne.symm hne)) ‹_›

/-- A branch with a value, below which at most one key is left. -/
theorem BranchNode.restructure_valued {v : Value n} {path}
    (hkeys : ∀ k u, (Tree.branch cs (some v)).lookup k = some u →
      μ.size (pre.length + k.length) ∧ holds (pre ++ k) u)
    (hb : μ.branch pre path) (howned : μ.Owned) (hpre : pre ≠ [])
    (hspare : ∀ k k' u u', k ≠ [] → k' ≠ [] → (Tree.branch cs (some v)).lookup k = some u →
      (Tree.branch cs (some v)).lookup k' = some u' → k = k') :
    ∃ node st'' t', BranchNode.restructure ⟨fun z => ref (cs z), path, v.1⟩ pre.length st' =
      (.ok node, st'') ∧ Settled σ st st' st'' pre (.branch cs (some v)) t' node := by
  have hown := howned.1 hb
  have hleaf : μ.leaf pre [] path := howned.2.mpr (by rw [append_nil]; exact hown)
  have hempty : path.isEmpty = false := by
    rw [isEmpty_eq_false_iff]
    rintro rfl
    exact hpre hown.symm
  by_cases hall : ∀ z, cs z = .nil
  · -- no child is left: the value becomes a leaf
    have hlook : ∀ q, (Tree.leaf [] v).lookup q = (Tree.branch cs (some v)).lookup q := by
      intro q
      cases q with
      | nil => simp
      | cons z q => simp [hall z]
    have hans : Answers μ st' pre (.branch cs (some v)) [] path v :=
      ⟨rfl, .inr (by rw [append_nil]; exact hown), [], [], rfl, by rw [append_nil]; exact hleaf⟩
    have hdrop : (nibbles path).drop pre.length = [] := by rw [hown, drop_length]
    obtain ⟨hf, hbuilt⟩ := hσ.lift hans.stands (hkeys [] v rfl).1 (hkeys [] v rfl).2 hw
    rw [hdrop] at hf hbuilt
    refine ⟨_, st', _, ?_, hf, hbuilt, fun h => ?_, fun h => ?_, fun _ => hlook⟩
    · rw [BranchNode.restructure, choiceCount_zero fun z => by
        rw [Bool.eq_false_iff]; exact fun h => (isValid_ref _).mp h (hall z)]
      simp [hempty]
    · obtain ⟨x, hx⟩ := h.1.exists_child
      exact absurd (hall x) hx
    · cases h
      refine ⟨rfl, _, path, rfl, fun k hk => ?_, hans⟩
      rw [← hlook] at hk
      by_contra hk0
      exact hk (if_neg hk0)
  · -- one leaf is left: nothing changes
    obtain ⟨y, hy⟩ := not_forall.mp hall
    obtain ⟨k, u, hk⟩ := (hcan y).exists_key hy
    have hone : cs y = .leaf k u := (hcan y).eq_leaf hk fun q u' hq =>
      (List.cons.inj (hspare (y :: q) (y :: k) u' u (by simp) (by simp) hq hk)).2
    have honly : ∀ z, z ≠ y → cs z = .nil := by
      intro z hz
      by_contra hn
      obtain ⟨k', u', hk'⟩ := (hcan z).exists_key hn
      exact hz (List.cons.inj (hspare (z :: k') (y :: k) u' u (by simp) (by simp) hk' hk)).1
    obtain ⟨child, hg, hc⟩ := hread y hy honly
    have hcb : (Tree.branch cs (some v)).Canonical := ⟨.inr ⟨by simp, y, hy⟩, hcan⟩
    refine ⟨_, st', _, ?_, hσ.fits_iff.mpr ⟨⟨hcb, fun k u h => (hkeys k u h).1⟩, fun k u h => (hkeys k u h).2⟩,
      .valued hw hb hl, fun _ => rfl, nofun, fun _ _ => rfl⟩
    rw [BranchNode.restructure, choiceCount_single honly hy]
    simp only []
    rw [run_bind_ok (expectNode_run hg)]
    rw [hone] at hc
    cases hc with
    | leaf hleaf => simp [hempty]

end

/-- Below a stored key that `p` goes on from, at most one key other than `p` is stored. -/
def Spare (t : Contents n) (p : List Nibble) : Prop :=
  ∀ k, k <+: p → k ≠ p → t.lookup k ≠ none → ∀ q q', t.lookup q ≠ none → t.lookup q' ≠ none →
    q ≠ p → q' ≠ p → q ≠ k → q' ≠ k → k <+: q → k <+: q' → q = q'

omit [Keccak256] in
theorem Spare.ext_child (h : Spare (.ext s c) (s ++ p)) :
    Spare c p := by
  intro k hk hkp hlk q q' hq hq' hqp hqp' hqk hqk' hpre hpre'
  refine append_cancel_left (h (s ++ k) ((prefix_append_right_inj s).mpr hk) (by simpa using hkp)
    (by simpa using hlk) (s ++ q) (s ++ q') (by simpa using hq) (by simpa using hq') (by simpa using hqp)
    (by simpa using hqp') (by simpa using hqk) (by simpa using hqk') ?_ ?_)
  · exact (prefix_append_right_inj s).mpr hpre
  · exact (prefix_append_right_inj s).mpr hpre'

omit [Keccak256] in
theorem Spare.branch_child (h : Spare (.branch cs w) (x :: p)) : Spare (cs x) p := by
  intro k hk hkp hlk q q' hq hq' hqp hqp' hqk hqk' hpre hpre'
  have hcons : ∀ {a b : List Nibble}, a <+: b → x :: a <+: x :: b := fun h =>
    cons_prefix_cons.mpr ⟨rfl, h⟩
  exact (List.cons.inj (h (x :: k) (hcons hk) (by simpa using hkp) hlk (x :: q) (x :: q') hq hq'
    (by simpa using hqp) (by simpa using hqp') (by simpa using hqk) (by simpa using hqk') (hcons hpre)
    (hcons hpre'))).2

omit [Keccak256] in
theorem Spare.of_fit (h : Fit pre t) (hp : pre.length + p.length = 2 * n) : Spare t p := by
  intro k hk hkp hlk
  obtain ⟨v, hv⟩ := Option.ne_none_iff_exists'.mp hlk
  have := h.keys k v hv
  exact absurd (hk.eq_of_length (by omega)) hkp

theorem Removed.of_settled {u : Contents n} (h : Settled σ st st' st'' pre u t' node)
    (hc : t.Canonical) (habs : t.lookup p = none → u = t)
    (hu : Movable st pre t p → ∀ k, u.lookup k = if k = p then none else t.lookup k)
    (hone : ∀ q, u.lookup q ≠ none → (∀ k, u.lookup k ≠ none → k = q) →
      st' = st ∧ t.lookup p ≠ none ∧ q ≠ p ∧ (∀ k, t.lookup k ≠ none → k = p ∨ k = q) ∧
      u.lookup q = t.lookup q ∧ ∀ stored, FoundAt st u q stored → FoundAt st t q stored) :
    Removed σ st st'' pre p t t' (some node) where
  fits := h.fits
  built := by
    rintro _ ⟨⟩
    exact h.built
  gone := nofun
  absent hp := by rw [h.same (habs hp ▸ hc), habs hp]
  leaf ht' := by
    obtain ⟨rfl, q, stored, rfl, honly, hans⟩ := h.leaf ht'
    obtain ⟨rfl, hp, hqp, honly', hq, hfound⟩ := hone q (by rw [hans.kept]; simp) honly
    exact .inr ⟨rfl, hp, q, stored, rfl, hqp, honly',
      ⟨hq ▸ hans.kept, hans.found.imp_left (hfound stored), hans.stands⟩⟩
  lookups hmov q := by
    rw [h.lookups (fun q stored hq honly hfound => ?_), hu hmov]
    obtain ⟨rfl, -, hqp, honly', hlk, hfound'⟩ := hone q hq honly
    exact hmov.moved hqp (hlk ▸ hq) (hfound' stored hfound) honly'

theorem BranchNode.remove_of_settled {b b' : BranchNode}
    (hoff : path.offset = pre.length)
    (hrun : b.removeValue rec path st = (.ok (b', (t.lookup p).map Subtype.val), st'))
    (hre : b'.restructure pre.length st' = (.ok node, st''))
    (hrem : Removed σ st st'' pre p t t' (some node)) : Removes σ st pre p t (b.remove rec path) := by
  refine ⟨some node, st'', t', ?_, hrem⟩
  rw [BranchNode.remove, run_bind_ok hrun]
  simp only []
  rw [hoff, run_bind_ok hre]
  rfl

theorem BranchNode.remove_value_run
    (hσ : Keyed σ holds) (hp : Along n path pre []) (hr : Sits μ.size pre (.branch cs w))
    (hb : Matches μ pre (.branch cs w) (.branch b)) (hk : ∀ z, Stored μ st (pre ++ [z]) (cs z))
    (he : ∀ k v, (Tree.branch cs w).lookup k = some v → k ≠ [] → holds (pre ++ k) v)
    (hpre : w ≠ none → pre ≠ []) : Removes σ st pre [] (.branch cs w) (b.remove rec path) := by
  have hlook : ∀ k, (Tree.branch cs none).lookup k = if k = [] then none else (Tree.branch cs w).lookup k := by
    intro k
    cases k <;> simp
  have hrun : b.removeValue rec path st = (.ok (⟨fun z => ref (cs z), [], []⟩, w.map Subtype.val), st) := by
    rw [BranchNode.removeValue, hp.next_none]
    cases w with
    | none => cases hb; rfl
    | some v =>
      obtain ⟨h0, i, hi, hlong⟩ := hr.branch_longer
      cases hb with
      | @valued _ _ stored hpath =>
        have hne : stored ≠ [] := by
          rintro rfl
          exact hpre (by simp) ((hσ.owned h0 hi hlong).1 hpath).symm
        simp [hne, v.2.1]
  obtain ⟨node, st', t', hre, hset⟩ := restructure_bare (σ := σ) hσ hr.canonical.2 .refl
    (fun z => .refl (hk z)) (fun y hy _ => by
      obtain ⟨child, hg, -, hc⟩ := (hk y).expectNode hy
      exact ⟨child, hg, hc⟩)
    (fun k v hkv => by
      rw [hlook] at hkv
      split at hkv
      · cases hkv
      · exact ⟨hr.keys k v hkv, he k v hkv ‹_›⟩) hr.canonical.1.exists_child
  refine remove_of_settled hp.offset hrun hre
    (.of_settled hset hr.canonical ?_ (fun _ => hlook) fun q hq honly => ?_)
  · rintro (rfl : w = none)
    rfl
  · have hqp : q ≠ [] := by
      rintro rfl
      exact hq rfl
    refine ⟨rfl, ?_, hqp, fun k hk => ?_, by rw [hlook, if_neg hqp], ?_⟩
    · rintro (rfl : w = none)
      obtain ⟨k, k', v, v', hne, hk, hk'⟩ := hr.canonical.exists_two_keys trivial
      exact hne ((honly k (by rw [hk]; simp)).trans (honly k' (by rw [hk']; simp)).symm)
    · by_cases hk0 : k = []
      · exact .inl hk0
      · exact .inr (honly k (by rwa [hlook, if_neg hk0]))
    · rintro stored ⟨r, v, hl, hg⟩
      cases q with
      | nil => exact absurd rfl hqp
      | cons x q => exact ⟨r, v, hl, hg⟩

omit [Keccak256] in
theorem lookup_update_ne (h : ∀ k', k ≠ x :: k') :
    (Tree.branch (Function.update cs x c) w).lookup k = (Tree.branch cs w).lookup k ∧
    (Tree.branch (Function.update cs x c) w).leafAt k = (Tree.branch cs w).leafAt k := by
  cases k with
  | nil => exact ⟨rfl, rfl⟩
  | cons z k =>
    have hz : z ≠ x := by
      rintro rfl
      exact h k rfl
    rw [lookup_branch_cons, leafAt_branch_cons,
      update_of_ne hz]
    exact ⟨rfl, rfl⟩

/-- What became of the child `c` of a branch: the tree `c'`. -/
structure Replaced (σ : Site n μ) (st st' : TrieState δ) (pre q : List Nibble) (c c' : Contents n) : Prop where
  fits : σ.fits pre c'
  placed : Placed σ st st' pre c'
  held : c' ≠ .nil → ∃ child, st'.getNode (ref c') = .ok (some child) ∧ Matches μ pre c' child
  emptied : c' = .nil → st' = st ∧ (c = .nil ∨ ∃ r v, c = .leaf r v)
  absent : c.lookup q = none → c' = c
  lookups : Movable st pre c q → ∀ k, c'.lookup k = if k = q then none else c.lookup k

section

variable (hσ : Keyed σ holds) (hp : Along n path pre (x :: q))
  (hb : Matches μ pre (.branch cs w) (.branch b)) (hk : ∀ z, Stored μ st (pre ++ [z]) (cs z))
  (hrec : ∀ child, st.getNode (ref (cs x)) = .ok (some child) → Matches μ (pre ++ [x]) (cs x) child →
    Removes σ st (pre ++ [x]) q (cs x) (rec child (path.offsetAdd 1)))

include hσ hp hb hk hrec

theorem BranchNode.removeValue_run : ∃ c' st', b.removeValue rec path st =
      (.ok ({ b with choices := Function.update b.choices x (ref c') },
        ((Tree.branch cs w).lookup (x :: q)).map Subtype.val), st') ∧
      Replaced σ st st' (pre ++ [x]) q (cs x) c' := by
  obtain ⟨hnext, hpx⟩ := hp.next
  have hchoices : b.choices = fun z => ref (cs z) := by cases hb <;> rfl
  rw [BranchNode.removeValue, hnext, lookup_branch_cons]
  by_cases hx : cs x = .nil
  · -- no child there: nothing is removed
    have hbx : b.choices x = ref (.nil : Contents n) := by rw [hchoices]; exact congrArg ref hx
    have hinv : (ref (.nil : Contents n)).isValid = false := rfl
    refine ⟨.nil, st, ?_, hσ.fits_iff.mpr ⟨.nil, fun k v h => by simp at h⟩, .nil .refl, absurd rfl,
      fun _ => ⟨rfl, .inl hx⟩, fun _ => hx.symm, fun _ k => by simp [hx]⟩
    rw [hx, ← hbx, update_eq_self]
    simp only [hbx, hinv, Bool.false_eq_true, if_false]
    rfl
  · obtain ⟨child, hg, -, hc⟩ := (hk x).expectNode hx
    obtain ⟨res, st₁, c', hrun, hrem⟩ := hrec child hg hc
    have hrv : ∀ {st₂}, storeChild res (path.offsetAdd 1).offset st₁ = (.ok (ref c'), st₂) →
        b.removeValue rec path st = (.ok ({ b with choices := Function.update b.choices x (ref c') },
          ((cs x).lookup q).map Subtype.val), st₂) := by
      intro st₂ hs
      rw [BranchNode.removeValue, hnext]
      simp only [hchoices, (isValid_ref (cs x)).mpr hx, if_true]
      rw [run_bind_ok (expectNode_run hg), run_bind_ok hrun]
      simp only []
      rw [run_bind_ok hs]
      rfl
    rw [BranchNode.removeValue, hnext] at hrv
    cases res with
    | some node =>
      have hbuilt := hrem.built node rfl
      exact ⟨c', _, hrv (hbuilt.insertSelf _ fun _ _ => hpx.offset), hrem.fits, hbuilt.place hrem.fits,
        fun _ => ⟨node, getNode_write _ _ _, hbuilt.top⟩, fun h => absurd h hbuilt.top.ne_nil, hrem.absent,
        hrem.lookups⟩
    | none =>
      obtain ⟨rfl, rfl, hleaf⟩ := hrem.gone rfl
      exact ⟨.nil, _, hrv (by rw [ref_nil]; rfl), hrem.fits, .nil .refl, absurd rfl,
        fun _ => ⟨rfl, .inr hleaf⟩, hrem.absent, hrem.lookups⟩

theorem BranchNode.remove_child_run (hr : Sits μ.size pre (.branch cs w))
    (he : ∀ k v, (Tree.branch cs w).lookup k = some v → k ≠ x :: q → holds (pre ++ k) v)
    (hpre : w ≠ none → pre ≠ []) (hspare : Spare (.branch cs w) (x :: q)) :
    Removes σ st pre (x :: q) (.branch cs w) (b.remove rec path) := by
  obtain ⟨c', st', hrun, hc⟩ := removeValue_run hσ hp hb hk hrec
  obtain ⟨hsits, hheld⟩ := hσ.fits_iff.mp hc.fits
  have hcan := fun z => update_canonical (x := x) hr.canonical.2 hsits.canonical z
  have hl := placed_update hk (fun z hz => hσ.fits_iff.mpr ⟨hr.branch_child z, fun k v hkv => by
    rw [append_assoc]
    exact he (z :: k) v hkv (by simp [hz])⟩) hc.placed
  have hu : Movable st (pre ++ [x]) (cs x) q → ∀ k,
      (Tree.branch (Function.update cs x c') w).lookup k =
        if k = x :: q then none else (Tree.branch cs w).lookup k := by
    intro hmov k
    by_cases hkx : ∃ k', k = x :: k'
    · obtain ⟨k, rfl⟩ := hkx
      rw [lookup_branch_cons, update_self, hc.lookups hmov]
      simp
    · rw [(lookup_update_ne (not_exists.mp hkx)).1, if_neg (not_exists.mp hkx q)]
  have hkeys : ∀ k v, (Tree.branch (Function.update cs x c') w).lookup k = some v →
      μ.size (pre.length + k.length) ∧ holds (pre ++ k) v := by
    intro k v hkv
    by_cases hkx : ∃ k', k = x :: k'
    · obtain ⟨k, rfl⟩ := hkx
      rw [lookup_branch_cons, update_self] at hkv
      have hsize := hsits.keys k v hkv
      have hh := hheld k v hkv
      rw [length_append, length_singleton, Nat.add_assoc, Nat.add_comm 1] at hsize
      rw [append_assoc] at hh
      exact ⟨hsize, hh⟩
    · rw [(lookup_update_ne (not_exists.mp hkx)).1] at hkv
      exact ⟨hr.keys k v hkv, he k v hkv (not_exists.mp hkx q)⟩
  have hread : ∀ y, Function.update cs x c' y ≠ .nil → (∀ z, z ≠ y → Function.update cs x c' z = .nil) →
      ∃ child, st'.getNode (ref (Function.update cs x c' y)) = .ok (some child) ∧
        Matches μ (pre ++ [y]) (Function.update cs x c' y) child := by
    intro y hy honly
    by_cases hyx : y = x
    · subst hyx
      rw [update_self] at hy ⊢
      exact hc.held hy
    · have hx := honly x (Ne.symm hyx)
      rw [update_self] at hx
      obtain ⟨rfl, -⟩ := hc.emptied hx
      rw [update_of_ne hyx] at hy ⊢
      obtain ⟨child, hg, -, hm⟩ := (hk y).expectNode hy
      exact ⟨child, hg, hm⟩
  obtain ⟨k₀, v₀, hk₀, hbeside⟩ := hr.canonical.exists_key_beside x
  have hk₀' := (lookup_update_ne (c := c') hbeside).1.trans hk₀
  obtain ⟨node, st'', t', hre, hset⟩ : ∃ node st'' t', BranchNode.restructure
      { b with choices := Function.update b.choices x (ref c') } pre.length st' = (.ok node, st'') ∧
      Settled σ st st' st'' pre (.branch (Function.update cs x c') w) t' node := by
    cases hb with
    | bare =>
      have hleft : ∃ y, Function.update cs x c' y ≠ .nil := by
        cases k₀ with
        | nil => cases hk₀
        | cons y k₀ =>
          refine ⟨y, fun hy => ?_⟩
          rw [lookup_branch_cons, hy] at hk₀'
          simp at hk₀'
      have := restructure_bare hσ hcan hc.placed.writes hl hread hkeys hleft
      rwa [ref_update] at this
    | @valued _ v stored hpath =>
      obtain ⟨h0, i, hi, hlong⟩ := hr.branch_longer
      have howned := hσ.owned h0 hi hlong
      have hlook : ∀ k u, (Tree.branch (Function.update cs x c') (some v)).lookup k = some u →
          k ≠ x :: q ∧ (Tree.branch cs (some v)).lookup k ≠ none := by
        intro k u hku
        rw [hu (howned.movable (hk x) q)] at hku
        split at hku
        · cases hku
        · exact ⟨‹_›, by rw [hku]; simp⟩
      have := restructure_valued hσ hcan hc.placed.writes hl hread hkeys hpath howned
        (hpre (by simp)) fun k k' u u' hk0 hk0' hku hku' =>
          hspare [] nil_prefix (by simp) (by simp) k k' (hlook k u hku).2 (hlook k' u' hku').2
            (hlook k u hku).1 (hlook k' u' hku').1 hk0 hk0' nil_prefix nil_prefix
      rwa [ref_update] at this
  refine remove_of_settled hp.offset hrun hre
    (.of_settled hset hr.canonical (fun h => ?_) (fun hmov => hu hmov.branch_child) fun q₀ hq₀ honly => ?_)
  · rw [hc.absent h, update_eq_self]
  · -- the one key left does not go through the child, so nothing is left there
    obtain rfl : k₀ = q₀ := honly k₀ (by rw [hk₀']; simp)
    have hnil : c' = .nil := by
      by_contra hn
      obtain ⟨k, v, hkv⟩ := hsits.canonical.exists_key hn
      exact hbeside k (honly (x :: k) (by simp [hkv])).symm
    have hother : ∀ k, (∀ k', k ≠ x :: k') → (Tree.branch cs w).lookup k ≠ none → k = k₀ :=
      fun k hkx hlk => honly k (by rwa [(lookup_update_ne hkx).1])
    obtain ⟨rfl, hx | ⟨r, v, hx⟩⟩ := hc.emptied hnil
    · obtain ⟨a, a', u, u', hne, ha, ha'⟩ := hr.canonical.exists_two_keys trivial
      have hbelow : ∀ k, (Tree.branch cs w).lookup k ≠ none → ∀ k', k ≠ x :: k' := by
        rintro _ hlk k' rfl
        simp [hx] at hlk
      exact absurd ((hother a (hbelow a (by simp [ha])) (by simp [ha])).trans
        (hother a' (hbelow a' (by simp [ha'])) (by simp [ha'])).symm) hne
    · have hqr : q = r := by
        by_contra hqr
        have := hc.absent (by simp [hx, hqr])
        rw [hnil, hx] at this
        cases this
      subst hqr
      refine ⟨rfl, by simp [hx], hbeside q, fun k hlk => ?_, (lookup_update_ne hbeside).1, ?_⟩
      · by_cases hkx : ∃ k', k = x :: k'
        · obtain ⟨k, rfl⟩ := hkx
          rw [lookup_branch_cons, hx, lookup_leaf] at hlk
          split at hlk
          · rename_i h; exact .inl (by rw [h])
          · exact absurd rfl hlk
        · exact .inr (hother k (not_exists.mp hkx) hlk)
      · rintro stored ⟨r, v, hleaf, hg⟩
        exact ⟨r, v, (lookup_update_ne hbeside).2 ▸ hleaf, hg⟩

end

end

/-! ## Removing a path -/

section

variable [Keccak256] {n : Nat} {δ : Type} [TrieDB δ] {μ : Marks n} {σ : Site n μ}
  {st : TrieState δ} {path : NibbleSlice}

theorem LeafNode.remove_run {v : Value n}
    (hσ : Keyed σ holds) (hr : Sits μ.size pre (.leaf r v)) (hp : Along n path pre p)
    (hpath : μ.leaf pre r stored)
    (he : ∀ k w, (Tree.leaf r v).lookup k = some w → k ≠ p → holds (pre ++ k) w) :
    Removes σ st pre p (.leaf r v) (call (LeafNode.remove ⟨stored, v.1⟩ path)) := by
  rw [LeafNode.remove, hp.cmpRest (μ.leaf_sized hpath (hσ.reads r))]
  by_cases hpr : p = r
  · subst hpr
    refine ⟨none, st, .nil, by simp [call], hσ.fits_iff.mpr ⟨.nil, fun k w hk => by simp at hk⟩,
      fun _ h => absurd h (Option.some_ne_none _).symm, fun _ => ⟨rfl, rfl, p, v, rfl⟩, fun h => by simp at h,
      (by rintro _ _ ⟨⟩), fun _ q => ?_⟩
    by_cases hq : q = p <;> simp [hq]
  · have hnone : (Tree.leaf r v).lookup p = none := by simp [hpr]
    refine ⟨_, st, _, ?_, .unchanged hσ hr (.leaf hpath) trivial he hnone⟩
    simp [call, hpr]

/-- Removing from a node leaves a canonical tree, and if the leaf that moves up can be
moved, the tree without the key. -/
theorem Node.remove_run {t : Contents n}
    (hσ : Keyed σ holds) (hr : Sits μ.size pre t) (hm : Matches μ pre t node) (hk : StoredBelow μ st pre t)
    (hp : Along n path pre p) (hclear : Clear μ pre.length t p)
    (he : ∀ k v, t.lookup k = some v → k ≠ p → holds (pre ++ k) v) (hspare : Spare t p)
    (hroot : pre = [] → t.IsBranch → t.lookup [] = none) (hfuel : p.length < fuel) :
    Removes σ st pre p t (Node.remove fuel node path) := by
  induction t generalizing pre p path node fuel with
  | nil => exact absurd rfl hm.ne_nil
  | leaf r v =>
    cases fuel with
    | zero => omega
    | succ fuel =>
      cases hm with
      | leaf hpath => exact LeafNode.remove_run hσ hr hp hpath he
  | ext s c ih =>
    obtain ⟨hne, hb, -⟩ := hr.canonical
    cases fuel with
    | zero => omega
    | succ fuel =>
      cases hm with
      | @ext _ _ pfx hpfx half =>
        by_cases hsp : s <+: p
        · obtain ⟨q, rfl⟩ := hsp
          obtain ⟨child, hg, -, hc⟩ := Stored.expectNode (show Stored μ st (pre ++ s) c from hk)
            (by rintro rfl; exact hb)
          have hspos := length_pos_iff.mpr hne
          rw [length_append] at hfuel
          refine ExtensionNode.remove_run hσ hp hr he hpfx half hg ?_
          refine ih hr.ext_child hc (Stored.below hk) (hp.step rfl)
            (by rw [length_append]; exact hclear.ext_child) ?_ hspare.ext_child (by simp [hne]) (by omega)
          intro k v hkv hkq
          rw [append_assoc]
          exact he (s ++ k) v (by simpa using hkv) (by simpa using hkq)
        · have hnone := lookup_ext_none (c := c) hsp
          refine ⟨_, st, _, ?_, .unchanged hσ hr (.ext hpfx half) hk he hnone⟩
          rw [Node.remove, ExtensionNode.remove, call_bind (hp.skipPrefix hpfx half hne (hclear.skips hp))]
          simp only [hsp, hnone]
          rfl
  | branch cs w ih =>
    obtain ⟨b, rfl, -⟩ := hm.exists_branch
    have hpre : w ≠ none → pre ≠ [] := fun hw h0 => hw (hroot h0 trivial)
    cases fuel with
    | zero => omega
    | succ fuel =>
      cases p with
      | nil => exact remove_value_run hσ hp hr hm hk he hpre
      | cons x q =>
        rw [length_cons] at hfuel
        refine remove_child_run hσ hp hm hk (fun child hg hc => ?_) hr he hpre hspare
        refine ih x (hr.branch_child x) hc (Stored.below (hk x)) hp.next.2
          (by rw [length_append]; exact hclear.branch_child) ?_ hspare.branch_child (by simp) (by omega)
        intro k v hkv hkq
        rw [append_assoc]
        exact he (x :: k) v hkv (by simpa using hkq)

end
end EthereumRust.Mpt
