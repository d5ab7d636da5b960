import EthereumRust.Trie.Stored

/-! # Insertion refines insertion into a Patricia tree

All reads come before all writes, so what is computed does not depend on the hash; that
the new tree is held afterwards does. The walk has to be clear: the leaf it meets can be
read, and `skip_prefix` does not run past the end of the path. -/

namespace EthereumRust.Mpt
open Nibble Rlp List Exec NibbleSlice Function

/-- A slice of a path that has walked `pre` and has `p` left. -/
structure Along (n : Nat) (path : NibbleSlice) (pre p : List Nibble) : Prop where
  bound : path.data.length ≤ n
  offset : path.offset = pre.length
  split : nibbles path.data = pre ++ p

namespace Along

theorem new {b : ByteString} (h : b.length ≤ n) : Along n (NibbleSlice.new b) [] (nibbles b) :=
  ⟨h, rfl, rfl⟩

theorem rest (h : Along n path pre p) : path.rest = p := by
  rw [NibbleSlice.rest, h.split, h.offset, drop_left]

theorem size (h : Along n path pre p) : pre.length + p.length = 2 * path.data.length := by
  have := congrArg List.length h.split
  rw [length_nibbles, length_append] at this
  omega

theorem step (h : Along n path pre p) (hp : p = s ++ q) :
    Along n (path.offsetAdd s.length) (pre ++ s) q := by
  refine ⟨h.bound, ?_, ?_⟩
  · rw [length_append, ← h.offset]; rfl
  · rw [append_assoc, ← hp]; exact h.split

theorem half (h : Along n path pre p) : (path.offset % 2 != 0) = (pre.length % 2 != 0) := by
  rw [h.offset]

theorem next (h : Along n path pre (x :: q)) :
    path.next = some (x, path.offsetAdd 1) ∧ Along n (path.offsetAdd 1) (pre ++ [x]) q :=
  ⟨next_cons h.rest, h.step (s := [x]) rfl⟩

theorem next_none (h : Along n path pre []) : path.next = none := next_nil h.rest

theorem ragged {t : Contents n} (h : Along n path pre p) (ht : Ragged pre t) (v : Value n) :
    Ragged pre (t.insert p v) := by
  have hsize := h.size
  have hbound := h.bound
  exact ht.insert v (by omega)

theorem cmpRest (h : Along n path pre p)
    (hs : Sized pre r stored) : (path.cmpRest stored : Outcome TrieError Bool) = .ok (decide (p = r)) := by
  have hsize := h.size
  have hlen := hs.length
  rw [cmpRest_spec (by rw [h.offset]; omega) (by rw [h.offset]; omega), h.rest, h.offset,
    hs.rest]

theorem skipPrefix (h : Along n path pre p) (hpfx : pfx.Holds s)
    (half : pfx.firstIsHalf = (pre.length % 2 != 0)) (hs : s ≠ [])
    (hclear : s.length ≤ p.length ∨
      path.data.length < (pre.length + s.length + 1) / 2 - pre.length / 2) :
    (path.skipPrefix pfx : Outcome TrieError _) =
      .ok (if s <+: p then (true, path.offsetAdd s.length) else (false, path)) := by
  have hoff : (path.offset % 2 != 0) = pfx.firstIsHalf := by rw [h.half, half]
  by_cases hle : s.length ≤ p.length
  · rw [skipPrefix_spec hpfx hs hoff (by rw [h.rest]; exact hle), h.rest]
  · have hshort := hclear.resolve_left hle
    rw [skipPrefix_short hoff (by rw [NibbleSlice.Holds.bytes hpfx half]; exact hshort),
      if_neg fun hsp => hle hsp.length_le]

/-- The path ends inside the skipped part, and the slice runs past its end. -/
theorem skipPrefix_stuck (h : Along n path pre p)
    (hpfx : pfx.Holds s) (half : pfx.firstIsHalf = (pre.length % 2 != 0))
    (hstuck : ¬ (s.length ≤ p.length ∨
      path.data.length < (pre.length + s.length + 1) / 2 - pre.length / 2)) :
    (path.skipPrefix pfx : Outcome TrieError _) = .error (.panic "range out of bounds for slice") := by
  have hsize := h.size
  have hbytes := NibbleSlice.Holds.bytes hpfx half
  have hoff := h.offset
  exact NibbleSlice.skipPrefix_stuck (by rw [h.half, half]) (by omega) (by omega)

end Along

/-! ## Clear walks -/

/-- The walk of `p` in a tree that stands at depth `o` meets nothing that cannot be read. -/
structure Clear {n : Nat} (μ : Marks n) (o : Nat) (t : Contents n) (p : List Nibble) : Prop where
  leaf : ∀ {k r v}, t.Stands k (.leaf r v) → k <+: p → μ.reads r
  /-- The extension is not longer than what is left of the path, or takes more bytes than the
  whole path. -/
  ext : ∀ {k s c}, t.Stands k (.ext s c) → k <+: p → k.length + s.length ≤ p.length ∨
    (o + p.length) / 2 < (o + k.length + s.length + 1) / 2 - (o + k.length) / 2

namespace Clear

variable {v : Value n}

theorem ext_child (h : Clear μ o (.ext s c) (s ++ q)) :
    Clear μ (o + s.length) c q := by
  constructor
  · intro k r v hk hpre
    exact h.leaf hk.of_ext ((prefix_append_right_inj s).mpr hpre)
  · intro k s' c' hk hpre
    have := h.ext hk.of_ext ((prefix_append_right_inj s).mpr hpre)
    simp only [length_append] at this
    omega

theorem branch_child
    (h : Clear μ o (.branch cs w) (x :: q)) : Clear μ (o + 1) (cs x) q := by
  constructor
  · intro k r v hk hpre
    exact h.leaf hk.of_branch (cons_prefix_cons.mpr ⟨rfl, hpre⟩)
  · intro k s' c' hk hpre
    have := h.ext hk.of_branch (cons_prefix_cons.mpr ⟨rfl, hpre⟩)
    simp only [length_cons] at this
    omega

theorem of_nil : Clear μ o (.nil : Contents n) p := by
  have hnil : ∀ {k u}, (Tree.nil : Contents n).Stands k u → u = .nil := by
    intro k u h
    induction h with
    | root => rfl
    | ext _ ih => cases ih
    | branch _ _ ih => cases ih
  constructor
  · intro k r v hk
    cases hnil hk
  · intro k s c hk
    cases hnil hk

theorem of_leaf (h : μ.reads r) : Clear μ o (.leaf r v) p := by
  constructor
  · intro k r' v' hk _
    cases hk.leaf_inv.2
    exact h
  · intro k s c hk
    cases hk.leaf_inv.2

theorem of_ext
    (hs : s.length ≤ p.length ∨ (o + p.length) / 2 < (o + s.length + 1) / 2 - o / 2)
    (h : ∀ q, p = s ++ q → Clear μ (o + s.length) c q) : Clear μ o (.ext s c) p := by
  constructor
  · intro k r v hk hpre
    rcases hk.ext_inv with ⟨-, he⟩ | ⟨k', rfl, hk'⟩
    · cases he
    · obtain ⟨q, rfl⟩ := (prefix_append s k').trans hpre
      exact (h q rfl).leaf hk' ((prefix_append_right_inj s).mp hpre)
  · intro k s' c' hk hpre
    rcases hk.ext_inv with ⟨rfl, he⟩ | ⟨k', rfl, hk'⟩
    · cases he
      simpa using hs
    · obtain ⟨q, rfl⟩ := (prefix_append s k').trans hpre
      have := (h q rfl).ext hk' ((prefix_append_right_inj s).mp hpre)
      simp only [length_append]
      omega

theorem of_branch
    (h : ∀ x q, p = x :: q → Clear μ (o + 1) (cs x) q) : Clear μ o (.branch cs w) p := by
  constructor
  · intro k r v hk hpre
    rcases hk.branch_inv with ⟨-, he⟩ | ⟨x, k', rfl, hk'⟩
    · cases he
    · obtain ⟨q, rfl⟩ := hpre
      exact (h x (k' ++ q) rfl).leaf hk' (prefix_append k' q)
  · intro k s' c' hk hpre
    rcases hk.branch_inv with ⟨-, he⟩ | ⟨x, k', rfl, hk'⟩
    · cases he
    · obtain ⟨q, rfl⟩ := hpre
      have := (h x (k' ++ q) rfl).ext hk' (prefix_append k' q)
      simp only [length_cons, cons_append] at this ⊢
      omega

theorem reads (h : Clear μ o (.leaf r v) p) : μ.reads r :=
  h.leaf .root nil_prefix

theorem skips
    (h : Clear μ pre.length (.ext s c) p) (hp : Along m path pre p) : s.length ≤ p.length ∨
      path.data.length < (pre.length + s.length + 1) / 2 - pre.length / 2 := by
  have hsize := hp.size
  have := h.ext .root nil_prefix
  simp only [length_nil] at this
  omega

theorem of_fit {t : Contents n} (hr : ∀ r, μ.reads r) (h : Fit pre t)
    (hp : pre.length + p.length = 2 * n) : Clear μ pre.length t p := by
  refine ⟨fun _ _ => hr _, fun hk _ => .inl ?_⟩
  have := (h.stands hk).ragged.length_shared
  rw [length_append] at this
  omega

end Clear

/-! ## Running the calls -/

section

variable [Keccak256] {n : Nat} {δ : Type}

omit [Keccak256] in
theorem expectNode_run [TrieDB δ] {st : TrieState δ}
    (hg : st.getNode h = .ok (some node)) : expectNode h st = (.ok node, st) := by
  rw [expectNode, TrieState.expectNode, hg]
  rfl

theorem ref_update (cs : Nibble → Contents n) (x : Nibble) (t : Contents n) :
    (fun z => ref (Function.update cs x t z)) = Function.update (fun z => ref (cs z)) x (ref t) := by
  funext z
  by_cases h : z = x
  · subst h; simp
  · simp [h]

theorem ref_single (x : Nibble) (t : Contents n) :
    (fun z => ref (Tree.single x t z)) = Function.update BranchNode.EMPTY_CHOICES x (ref t) := by
  unfold Tree.single
  rw [ref_update]
  congr 1

end

/-! ## Lookup -/

section

variable [Keccak256] {n : Nat} {δ : Type} [TrieDB δ]

/-- Looking a path up returns what the tree holds under it. -/
theorem Node.get_run {t : Contents n} {st : TrieState δ} (hr : Ragged pre t) (hm : Matches μ pre t node)
    (hk : StoredBelow μ st pre t) (hp : Along m path pre p) (hclear : Clear μ pre.length t p)
    (hfuel : p.length < fuel) : Node.get fuel st node path = .ok ((t.lookup p).map Subtype.val) := by
  induction t generalizing pre p path node fuel with
  | nil => exact absurd rfl hm.ne_nil
  | leaf r v =>
    cases hm with
    | leaf hpath =>
      cases fuel with
      | zero => omega
      | succ fuel =>
        rw [Node.get, LeafNode.get, hp.cmpRest (μ.leaf_sized hpath hclear.reads)]
        by_cases h : p = r <;> simp [h]
  | ext s c ih =>
    obtain ⟨hne, hb, -⟩ := hr.canonical
    cases hm with
    | ext hpfx half =>
      cases fuel with
      | zero => omega
      | succ fuel =>
        rw [Node.get, ExtensionNode.get, hp.skipPrefix hpfx half hne (hclear.skips hp)]
        by_cases h : s <+: p
        · obtain ⟨q, rfl⟩ := h
          obtain ⟨child, -, hc, hmc⟩ := Stored.expectNode (show Stored μ st (pre ++ s) c from hk)
            (by rintro rfl; exact hb)
          have hspos := length_pos_iff.mpr hne
          rw [length_append] at hfuel
          simp only [prefix_append, hc, Tree.lookup_ext_append]
          exact ih hr.ext_child hmc (Stored.below hk) (hp.step rfl)
            (by rw [length_append]; exact hclear.ext_child) (by omega)
        · simp [h, Tree.lookup_ext_none h]
  | branch cs w ih =>
    cases fuel with
    | zero => omega
    | succ fuel =>
      obtain ⟨b, rfl, hchoices, hvalue⟩ : ∃ b : BranchNode, node = .branch b ∧
          b.choices = (fun x => ref (cs x)) ∧ b.value = (w.map Subtype.val).getD [] := by
        cases hm with
        | bare => exact ⟨_, rfl, rfl, rfl⟩
        | valued hpath => exact ⟨_, rfl, rfl, rfl⟩
      rw [Node.get, BranchNode.get]
      cases p with
      | nil =>
        rw [hp.next_none, hvalue]
        cases w with
        | none => rfl
        | some v => simp [v.2.1]
      | cons x q =>
        obtain ⟨hnext, hq⟩ := hp.next
        rw [length_cons] at hfuel
        simp only [hnext, hchoices]
        by_cases hx : cs x = .nil
        · simp [hx, NodeHash.isValid, NodeHash.constDefault]
        · obtain ⟨child, -, hc, hmc⟩ := Stored.expectNode (show Stored μ st (pre ++ [x]) (cs x) from hk x) hx
          rw [if_pos ((isValid_ref (cs x)).mpr hx), hc]
          exact ih x (hr.branch_child x) hmc (Stored.below (hk x)) hq
            (by rw [length_append]; exact hclear.branch_child) (by omega)

end

/-! ## Insertion -/

section

variable [Keccak256] {n : Nat} {δ : Type} [TrieDB δ] {μ : Marks n} {σ : Site n μ}
  {st : TrieState δ} {path : NibbleSlice}

/-- What an insertion returns and leaves behind. -/
def Inserts (σ : Site n μ) (st : TrieState δ) (pre : List Nibble) (t : Contents n)
    (x : TrieM δ Node) : Prop :=
  ∃ node st', x st = (.ok node, st') ∧ Built σ st st' pre t node

omit [Keccak256] in
theorem Site.of_wrap (h : σ.fits pre (Tree.wrap s t)) :
    σ.fits (pre ++ s) t := by
  rw [Tree.wrap] at h
  split at h
  · rename_i h0; rw [h0, append_nil]; exact h
  · exact σ.ext_child h

theorem wrap_inserts
    (hb : Built σ st st' (pre ++ s) t (.branch b)) (hf : σ.fits pre (Tree.wrap s t)) (pfx : NibbleVec)
    (hpfx : s ≠ [] → pfx.Holds s) (half : s ≠ [] → pfx.firstIsHalf = (pre.length % 2 != 0)) :
    (s = [] → Built σ st st' pre (Tree.wrap s t) (.branch b)) ∧
    (s ≠ [] → b.insertSelf st' = (.ok (ref t), st'.write t (.branch b)) ∧
      Built σ st (st'.write t (.branch b)) pre (Tree.wrap s t) (.extension ⟨pfx, ref t⟩)) := by
  constructor
  · rintro rfl
    simpa [Tree.wrap] using hb
  · intro hs
    have hft := Site.of_wrap hf
    refine ⟨hb.insertSelf 0 (fun l hl => by cases hl), ?_⟩
    rw [Tree.wrap, if_neg hs] at hf ⊢
    exact .ext (σ.ragged hf) (hb.place hft) (hpfx hs) (half hs)

theorem LeafNode.insertSelf_placed (path : ByteString)
    (offset : Nat) (st : TrieState δ) (hf : σ.fits (pre ++ [x]) (.leaf r v))
    (hpath : μ.leaf (pre ++ [x]) r path) (hs : Sized (pre ++ [x]) r path)
    (hoff : offset = pre.length + 1) :
    LeafNode.insertSelf ⟨path, v.1⟩ offset st =
        (.ok (ref (.leaf r v)), st.write (.leaf r v) (.leaf ⟨path, v.1⟩)) ∧
      Placed σ st (st.write (.leaf r v) (.leaf ⟨path, v.1⟩)) (pre ++ [x]) (.leaf r v) := by
  have hm : Built σ st st (pre ++ [x]) (.leaf r v) (.leaf ⟨path, v.1⟩) :=
    .leaf (σ.ragged hf) hpath hs .refl
  refine ⟨hm.insertSelf offset fun l _ => ?_, hm.place hf⟩
  rw [hoff, length_append, length_singleton]

theorem placed_single
    (h : Placed σ st st' (pre ++ [x]) t) (z : Nibble) :
    Placed σ st st' (pre ++ [z]) (Tree.single x t z) := by
  by_cases hz : z = x
  · subst hz
    rwa [Tree.single_self]
  · rw [Tree.single_ne hz]
    exact .nil h.writes

theorem LeafNode.split_run
    (st : TrieState δ) (hp : Along n path pre p) (hown : μ.writes path.data) (hne : p ≠ r)
    (hpr : ∀ x y as bs, p = x :: as → r = y :: bs → x ≠ y) (hleaf : μ.leaf pre r stored)
    (hs : Sized pre r stored) (hf : σ.fits pre (Tree.part p r v w)) :
    ∃ b st', LeafNode.split ⟨stored, w.1⟩ path v.1 st = (.ok b, st') ∧
      Built σ st st' pre (Tree.part p r v w) (.branch b) := by
  have hsize := hp.size
  have hlen := hs.length
  have hnth : ∀ {y r'}, r = y :: r' → unwrap ((NibbleSlice.new stored).nth path.offset) = .ok y := by
    rintro y r' rfl
    have hy : ((NibbleSlice.new stored).offsetAdd path.offset).rest = y :: r' := by
      rw [rest_offsetAdd, hp.offset]; exact hs.rest
    rw [NibbleSlice.nth, next_cons hy]
    rfl
  have hoff : path.offset + 1 = pre.length + 1 := by rw [hp.offset]
  rw [LeafNode.split]
  rcases p with _ | ⟨x, p'⟩ <;> rcases r with _ | ⟨y, r'⟩
  · exact absurd rfl hne
  · -- the new path ends here: its value stands in the branch
    have h1 : (path.offset == 2 * path.data.length) = true := by
      rw [hp.offset]; simpa using hsize
    have hfy : σ.fits (pre ++ [y]) (.leaf r' w) := by
      simpa using σ.branch_child hf y
    obtain ⟨i, hl⟩ := LeafNode.insertSelf_placed stored (path.offset + 1) st hfy (μ.leaf_down (s := [y]) hleaf)
      (Sized.down (s := [y]) hs) hoff
    refine ⟨_, _, ?_, .valued hl.writes (μ.branch_own hown (by simpa using hp.split))
      (placed_single hl)⟩
    simp only [h1, if_true]
    rw [run_bind_ok i, call_bind (hnth rfl), ref_single]
    rfl
  · -- the leaf's path ends here
    obtain ⟨hnext, hpx⟩ := hp.next
    have h1 : (path.offset == 2 * path.data.length) = false := by
      rw [hp.offset]; rw [length_cons] at hsize; simp; omega
    have h2 : (path.offset == 2 * stored.length) = true := by
      rw [hp.offset]; simpa using hlen
    have hfx : σ.fits (pre ++ [x]) (.leaf p' v) := by
      simpa using σ.branch_child hf x
    obtain ⟨i, hl⟩ := LeafNode.insertSelf_placed path.data (path.offset + 1) st hfx (μ.leaf_own hown hpx.split)
      (Sized.own hpx.split) hoff
    refine ⟨_, _, ?_, .valued hl.writes (μ.branch_of_leaf hleaf) (placed_single hl)⟩
    simp only [h1, h2, Bool.false_eq_true, if_false, if_true]
    rw [run_bind_ok i, call_bind (a := (x, path.offsetAdd 1)) (by rw [unwrap, hnext]; rfl),
      ref_single]
    rfl
  · have hxy : x ≠ y := hpr x y p' r' rfl rfl
    obtain ⟨hnext, hpx⟩ := hp.next
    rw [length_cons] at hsize hlen
    have h1 : (path.offset == 2 * path.data.length) = false := by
      rw [hp.offset]; simp; omega
    have h2 : (path.offset == 2 * stored.length) = false := by
      rw [hp.offset]; simp; omega
    have hfx : σ.fits (pre ++ [x]) (.leaf p' v) := by
      simpa using σ.branch_child hf x
    have hfy : σ.fits (pre ++ [y]) (.leaf r' w) := by
      simpa [update_of_ne (Ne.symm hxy)] using σ.branch_child hf y
    obtain ⟨i1, hl1⟩ := LeafNode.insertSelf_placed path.data (path.offset + 1) st hfx (μ.leaf_own hown hpx.split)
      (Sized.own hpx.split) hoff
    obtain ⟨i2, hl2⟩ := LeafNode.insertSelf_placed stored (path.offset + 1)
      (st.write (.leaf p' v) (.leaf ⟨path.data, v.1⟩)) hfy (μ.leaf_down (s := [y]) hleaf)
        (Sized.down (s := [y]) hs) hoff
    have hwrites := hl1.writes.trans hl2.writes
    refine ⟨_, _, ?_, .bare hwrites fun z => ?_⟩
    · simp only [h1, h2, Bool.false_eq_true, if_false]
      rw [run_bind_ok i1, run_bind_ok i2, call_bind (hnth rfl),
        call_bind (a := (x, path.offsetAdd 1)) (by rw [unwrap, hnext]; rfl), ref_update, ref_single]
      rfl
    · by_cases hzx : z = x
      · subst hzx
        rw [update_self]
        exact hl1.mono hl2.writes hfx
      · rw [update_of_ne hzx]
        exact placed_single ⟨hwrites, hl2.seen, hl2.stored⟩ z

theorem LeafNode.insert_run
    (hp : Along n path pre p) (hown : μ.writes path.data)
    (hleaf : μ.leaf pre r stored)
    (hs : Sized pre r stored) (hf : σ.fits pre ((Tree.leaf r w).insert p v)) :
    Inserts σ st pre ((Tree.leaf r w).insert p v) (LeafNode.insert ⟨stored, w.1⟩ path v.1) := by
  have hsize := hp.size
  have hlen := hs.length
  rw [Inserts, LeafNode.insert, call_bind (hp.cmpRest hs)]
  simp only [Tree.insert] at hf ⊢
  by_cases hpr : p = r
  · -- the path of the leaf: the value is replaced
    subst hpr
    simp only [if_true] at hf ⊢
    exact ⟨_, st, rfl, .leaf (σ.ragged hf) hleaf hs .refl⟩
  · simp only [hpr, decide_false, Bool.false_eq_true, if_false] at hf ⊢
    set k := lcp p r with hk
    have hcount : (path.countPrefixSlice ((NibbleSlice.new stored).offsetAdd path.offset) :
        Outcome TrieError Nat) = .ok k := by
      have hr : ((NibbleSlice.new stored).offsetAdd path.offset).rest = r := by
        rw [rest_offsetAdd, hp.offset]; exact hs.rest
      have ho : path.offset = ((NibbleSlice.new stored).offsetAdd path.offset).offset := by
        simp [NibbleSlice.offsetAdd, NibbleSlice.new]
      rw [countPrefixSlice_spec ho (by rw [hp.offset]; omega)
        (by change path.offset ≤ 2 * stored.length; rw [hp.offset]; omega), hp.rest, hr]
    have hkp : k ≤ p.length := lcp_le_left p r
    have hpk : p = p.take k ++ p.drop k := (take_append_drop _ _).symm
    have hrk : r = p.take k ++ r.drop k := by rw [hk, take_lcp, ← hk, take_append_drop]
    have htk : (p.take k).length = k := by rw [length_take]; omega
    have hat : Along n (path.offsetAdd k) (pre ++ p.take k) (p.drop k) := by
      have := hp.step hpk
      rwa [htk] at this
    rw [Tree.fork, ← hk] at hf ⊢
    obtain ⟨b, st₁, hrun, hb⟩ := LeafNode.split_run st hat hown (Tree.drop_lcp_ne_drop hpr)
      (fun x y as bs h1 h2 => drop_lcp_ne h1 h2) (μ.leaf_down (hrk ▸ hleaf)) (Sized.down (hrk ▸ hs))
      (Site.of_wrap hf)
    obtain ⟨pfx, hsplit, hpfx, half⟩ := splitToVec_spec (ε := TrieError) (s := path) (k := k)
      (by rw [hp.offset]; omega)
    rw [hp.rest] at hpfx
    rw [hp.offset] at half
    obtain ⟨hflat, hwrap⟩ := wrap_inserts hb hf pfx (fun _ => hpfx) (fun _ => half)
    rw [call_bind hcount, run_bind_ok hrun]
    by_cases hk0 : k = 0
    · have h0 : p.take k = [] := by rw [hk0]; rfl
      simp only [hk0, bne_self_eq_false]
      rw [← hk0]
      exact ⟨_, st₁, rfl, hflat h0⟩
    · have h0 : p.take k ≠ [] := by
        intro h; rw [h] at htk; exact hk0 htk.symm
      obtain ⟨hself, hbuilt⟩ := hwrap h0
      have hne : (k != 0) = true := by simpa using hk0
      simp only [hne, if_true]
      rw [run_bind_ok hself, call_bind hsplit]
      exact ⟨_, _, rfl, hbuilt⟩

theorem ExtensionNode.rightPrefixNode_run
    (st : TrieState δ) (right : NibbleVec) (hc : Stored μ st (pre ++ x :: s) c)
    (hf : σ.fits (pre ++ [x]) (Tree.wrap s c)) (hright : s ≠ [] → right.Holds s)
    (half : s ≠ [] → right.firstIsHalf = ((pre.length + 1) % 2 != 0)) :
    ∃ st', ExtensionNode.rightPrefixNode (ref c) (if s = [] then none else some right) st =
        (.ok (ref (Tree.wrap s c)), st') ∧ Placed σ st st' (pre ++ [x]) (Tree.wrap s c) := by
  by_cases hs : s = []
  · subst hs
    refine ⟨st, by simp [Tree.wrap, ExtensionNode.rightPrefixNode], ?_⟩
    simpa [Tree.wrap] using Placed.refl hc
  · have hw : Tree.wrap s c = .ext s c := by rw [Tree.wrap, if_neg hs]
    rw [hw] at hf ⊢
    have hc' : Stored μ st (pre ++ [x] ++ s) c := by rw [append_assoc]; exact hc
    have hm : Built σ st st (pre ++ [x]) (.ext s c) (.extension ⟨right, ref c⟩) :=
      .ext (σ.ragged hf) (.refl hc') (hright hs) (by rw [half hs, length_append]; rfl)
    refine ⟨_, ?_, hm.place hf⟩
    simp only [hs]
    exact hm.insertSelf 0 (fun l hl => by cases hl)

theorem ExtensionNode.splitBranch_run
    (v : Value n) (st : TrieState δ) (right : NibbleVec) (hp : Along n path pre p) (hown : μ.writes path.data)
    (hpx : ∀ y as, p = y :: as → y ≠ x) (hc : Stored μ st (pre ++ x :: s) c)
    (hf : σ.fits pre (Tree.cut x s c p v)) (hright : s ≠ [] → right.Holds s)
    (half : s ≠ [] → right.firstIsHalf = ((pre.length + 1) % 2 != 0)) :
    ∃ b st', ExtensionNode.splitBranch (ref c) path v.1 x (if s = [] then none else some right) st =
        (.ok b, st') ∧ Built σ st st' pre (Tree.cut x s c p v) (.branch b) := by
  rw [ExtensionNode.splitBranch]
  cases p with
  | nil =>
    have hfx : σ.fits (pre ++ [x]) (Tree.wrap s c) := by
      simpa using σ.branch_child hf x
    obtain ⟨st₁, hrun, hl⟩ := ExtensionNode.rightPrefixNode_run st right hc hfx hright half
    refine ⟨_, st₁, ?_, .valued hl.writes (μ.branch_own hown (by simpa using hp.split))
      (placed_single hl)⟩
    rw [run_bind_ok hrun, ref_single]
    simp only [hp.next_none]
    rfl
  | cons y p' =>
    have hyx : y ≠ x := hpx y p' rfl
    obtain ⟨hnext, hpy⟩ := hp.next
    have hfx : σ.fits (pre ++ [x]) (Tree.wrap s c) := by
      simpa [update_of_ne (Ne.symm hyx)] using σ.branch_child hf x
    have hfy : σ.fits (pre ++ [y]) (.leaf p' v) := by
      simpa using σ.branch_child hf y
    obtain ⟨st₁, hrun, hl⟩ := ExtensionNode.rightPrefixNode_run st right hc hfx hright half
    obtain ⟨i, hl'⟩ := LeafNode.insertSelf_placed path.data (path.offset + 1) st₁ hfy
      (μ.leaf_own hown hpy.split) (Sized.own hpy.split) (by rw [hp.offset])
    have hwrites := hl.writes.trans hl'.writes
    refine ⟨_, _, ?_, .bare hwrites fun z => ?_⟩
    · rw [run_bind_ok hrun]
      simp only [hnext]
      rw [ref_update, ref_single]
      exact run_bind_ok i _
    · by_cases hzy : z = y
      · subst hzy
        rw [update_self]
        exact ⟨hwrites, hl'.seen, hl'.stored⟩
      · rw [update_of_ne hzy]
        by_cases hzx : z = x
        · subst hzx
          rw [Tree.single_self]
          exact hl.mono hl'.writes hfx
        · rw [Tree.single_ne hzx]
          exact .nil hwrites

theorem ExtensionNode.insert_split
    {pfx : NibbleVec} {rec : InsertChild δ}
    (hp : Along n path pre p) (hown : μ.writes path.data) (hsne : s ≠ [])
    (hc : Stored μ st (pre ++ s) c) (hpfx : pfx.Holds s)
    (half : pfx.firstIsHalf = (pre.length % 2 != 0)) (hsp : ¬ s <+: p)
    (hskip : s.length ≤ p.length ∨ path.data.length < (pre.length + s.length + 1) / 2 - pre.length / 2)
    (hf : σ.fits pre (Tree.split s c p v)) :
    Inserts σ st pre (Tree.split s c p v) (ExtensionNode.insert rec ⟨pfx, ref c⟩ path v.1) := by
  have hsize := hp.size
  obtain ⟨x, s', hx⟩ := Tree.drop_lcp_of_not_isPrefix hsp
  set k := lcp p s with hk
  have hks : s.length = k + (s'.length + 1) := by
    have := congrArg List.length hx
    rw [length_drop, length_cons] at this
    omega
  have hsx : s = s.take k ++ x :: s' := by rw [← hx, take_append_drop]
  have htk : (s.take k).length = k := by rw [length_take]; omega
  have hpk : p = s.take k ++ p.drop k := by rw [hk, ← take_lcp, ← hk, take_append_drop]
  have hat : Along n (path.offsetAdd k) (pre ++ s.take k) (p.drop k) := by
    have := hp.step hpk
    rwa [htk] at this
  have hcount : (path.countPrefixVec pfx : Outcome TrieError Nat) = .ok k := by
    rw [countPrefixVec_spec hpfx hsne (by rw [hp.half, half])
      (by rw [hp.offset]; omega), hp.rest]
  obtain ⟨vl, vr, hext, hl, hr, hl0, hr0⟩ :=
    NibbleVec.splitExtractAt_spec (ε := TrieError) (l := s.take k) (x := x) (r := s') (hsx ▸ hpfx)
  rw [htk] at hext
  have hleft : (if !vl.isEmpty then some vl else none) = if s.take k = [] then none else some vl := by
    rw [hl0]
    cases s.take k <;> rfl
  have hright : (if !vr.isEmpty then some vr else none) = if s' = [] then none else some vr := by
    rw [hr0]
    cases s' <;> rfl
  have hcut : Tree.split s c p v = Tree.wrap (s.take k) (Tree.cut x s' c (p.drop k) v) := by
    simp only [Tree.split, ← hk, hx]
  rw [hcut] at hf
  obtain ⟨b, st₁, hrun, hb⟩ := ExtensionNode.splitBranch_run v st vr hat hown
    (fun y as he => drop_lcp_ne he hx) (by rw [append_assoc, ← hsx]; exact hc) (Site.of_wrap hf)
    (fun h => hr.holds) (fun h => by
      rw [hr.first h, half, htk, length_append, htk, toNat_odd,
        (by omega : (pre.length % 2 + k + 1) % 2 = (pre.length + k + 1) % 2)])
  obtain ⟨hflat, hwrap⟩ := wrap_inserts hb hf vl (fun h => hl.holds) (fun h => by
    rw [hl.first h, half, toNat_odd, Nat.mod_mod])
  rw [Inserts, hcut, ExtensionNode.insert, call_bind (hp.skipPrefix hpfx half hsne hskip)]
  simp only [hsp, if_false, Bool.false_eq_true]
  rw [call_bind hcount, call_bind hext]
  simp only [hleft, hright]
  rw [run_bind_ok hrun]
  by_cases h0 : s.take k = []
  · simp only [h0]
    exact ⟨_, st₁, rfl, h0 ▸ hflat h0⟩
  · obtain ⟨hself, hbuilt⟩ := hwrap h0
    simp only [h0, if_false]
    rw [run_bind_ok hself]
    exact ⟨_, _, rfl, hbuilt⟩

theorem placed_update
    (hk : ∀ z, Stored μ st (pre ++ [z]) (cs z))
    (hf : ∀ z, z ≠ x → σ.fits (pre ++ [z]) (cs z)) (h : Placed σ st st' (pre ++ [x]) u)
    (z : Nibble) : Placed σ st st' (pre ++ [z]) (Function.update cs x u z) := by
  by_cases hz : z = x
  · subst hz
    rwa [update_self]
  · rw [update_of_ne hz]
    exact (Placed.refl (hk z)).mono h.writes (hf z hz)

theorem Matches.update {w : Option (Value n)}
    (h : Matches μ pre (.branch cs w) (.branch b))
    (hwrites : Writes σ st st') (hl : ∀ z, Placed σ st st' (pre ++ [z]) (Function.update cs x u z)) :
    Built σ st st' pre (.branch (Function.update cs x u) w)
      (.branch { b with choices := Function.update b.choices x (ref u) }) := by
  cases h with
  | bare =>
    have := Built.bare hwrites hl
    rwa [ref_update] at this
  | @valued _ v _ hpath =>
    have := Built.valued (v := v) hwrites hpath hl
    rwa [ref_update] at this

/-- Inserting into a node builds the tree of `Tree.insert`. -/
theorem Node.insert_run (hr : Ragged pre t) (hm : Matches μ pre t node)
    (hk : StoredBelow μ st pre t) (hp : Along n path pre p) (hown : μ.writes path.data)
    (hclear : Clear μ pre.length t p) (hf : σ.fits pre (t.insert p v)) (hfuel : p.length < fuel) :
    Inserts σ st pre (t.insert p v) (Node.insert fuel node path v.1) := by
  induction t generalizing pre p path node fuel with
  | nil => exact absurd rfl hm.ne_nil
  | leaf r w =>
    cases hm with
    | leaf hpath =>
      cases fuel with
      | zero => omega
      | succ fuel =>
        exact LeafNode.insert_run hp hown hpath (μ.leaf_sized hpath hclear.reads) hf
  | ext s c ih =>
    obtain ⟨hne, hb, -⟩ := hr.canonical
    cases hm with
    | ext hpfx half =>
      cases fuel with
      | zero => omega
      | succ fuel =>
        rw [Node.insert]
        by_cases hsp : s <+: p
        · obtain ⟨q, rfl⟩ := hsp
          rw [Tree.insert_ext_append] at hf ⊢
          obtain ⟨child, hg, -, hmc⟩ := Stored.expectNode (show Stored μ st (pre ++ s) c from hk)
            (by rintro rfl; exact hb)
          have hspos := length_pos_iff.mpr hne
          rw [length_append] at hfuel
          have hfc := σ.ext_child hf
          obtain ⟨node', st₁, hrun, hbuilt⟩ := ih hr.ext_child hmc (Stored.below hk) (hp.step rfl) hown
            (by rw [length_append]; exact hclear.ext_child) hfc (show q.length < fuel by omega)
          have hbranch := Tree.insert_isBranch hb q v
          have hself := hbuilt.insertSelf 0 (by
            rintro l rfl
            have := hbuilt.top
            generalize c.insert q v = u at this hbranch
            cases this
            exact hbranch.elim)
          rw [Inserts, ExtensionNode.insert, call_bind (hp.skipPrefix hpfx half hne (.inl (by simp)))]
          simp only [prefix_append, if_true]
          rw [run_bind_ok (expectNode_run hg), run_bind_ok hrun, run_bind_ok hself]
          exact ⟨_, _, rfl, .ext (σ.ragged hf) (hbuilt.place hfc) hpfx half⟩
        · rw [Tree.insert, if_neg hsp] at hf ⊢
          exact ExtensionNode.insert_split hp hown hne hk hpfx half hsp (hclear.skips hp) hf
  | branch cs w ih =>
    obtain ⟨b, rfl, hchoices⟩ := hm.exists_branch
    cases fuel with
    | zero => omega
    | succ fuel =>
      rw [Inserts, Node.insert, BranchNode.insert]
      cases p with
      | nil =>
        -- the path ends at this branch
        refine ⟨_, st, by rw [hp.next_none]; rfl, ?_⟩
        rw [hchoices]
        exact .valued .refl (μ.branch_own hown (by simpa using hp.split)) fun z => .refl (hk z)
      | cons x q =>
        obtain ⟨hnext, hq⟩ := hp.next
        rw [length_cons] at hfuel
        simp only [Tree.insert] at hf ⊢
        have hfx : σ.fits (pre ++ [x]) ((cs x).insert q v) := by
          simpa using σ.branch_child hf x
        have hsibling : ∀ z, z ≠ x → σ.fits (pre ++ [z]) (cs z) := fun z hz => by
          have := σ.branch_child hf z
          rwa [update_of_ne hz] at this
        simp only [hnext, hchoices]
        by_cases hx : cs x = .nil
        · have hnv : (!(ref (cs x)).isValid) = true := by
            rw [hx]; rfl
          simp only [hnv]
          have hleaf : (cs x).insert q v = .leaf q v := by rw [hx]; rfl
          rw [hleaf] at hf hfx ⊢
          obtain ⟨i, hl⟩ := LeafNode.insertSelf_placed path.data (path.offsetAdd 1).offset st hfx
            (μ.leaf_own hown hq.split) (Sized.own hq.split) (by rw [hq.offset]; simp)
          refine ⟨_, _, run_bind_ok i _, ?_⟩
          rw [← hchoices]
          exact hm.update hl.writes (placed_update hk hsibling hl)
        · have hv : (!(ref (cs x)).isValid) = false := by
            rw [(isValid_ref (cs x)).mpr hx]; rfl
          obtain ⟨child, hg, -, hmc⟩ := Stored.expectNode (show Stored μ st (pre ++ [x]) (cs x) from hk x) hx
          obtain ⟨node', st₁, hrun, hbuilt⟩ := ih x (hr.branch_child x) hmc (Stored.below (hk x)) hq hown
            (by rw [length_append]; exact hclear.branch_child) hfx (show q.length < fuel by omega)
          have hself := hbuilt.insertSelf (path.offsetAdd 1).offset fun _ _ => hq.offset
          have hl := hbuilt.place hfx
          simp only [hv, Bool.false_eq_true, if_false]
          rw [run_bind_ok (expectNode_run hg), run_bind_ok hrun]
          refine ⟨_, _, run_bind_ok hself _, ?_⟩
          rw [← hchoices]
          exact hm.update hl.writes (placed_update hk hsibling hl)

end
end EthereumRust.Mpt
