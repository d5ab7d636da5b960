import EthereumRust.Trie.Trie
import EthereumRust.Trie.Database
import EthereumRust.Trie.Remove

/-! # What the calls on a trie do

`Holding` says that a trie holds a tree: its root is the tree's reference, and its state
has all nodes. -/

namespace EthereumRust.Mpt
open Nibble Rlp Exec

/-- A path of `n` bytes. -/
abbrev Path (n : Nat) := { p : ByteString // p.length = n }

def Path.nibbles {n : Nat} (p : Path n) : List Nibble := EthereumRust.nibbles p.1

theorem Path.length_nibbles (p : Path n) : p.nibbles.length = 2 * n := by
  rw [Path.nibbles, EthereumRust.length_nibbles, p.2]

theorem Path.nibbles_injective : Function.Injective (Path.nibbles (n := n)) :=
  fun _ _ h => Subtype.ext (EthereumRust.nibbles_injective h)

abbrev ShortPath (n : Nat) := { p : ByteString // p ≠ [] ∧ p.length ≤ n }

abbrev ShortPath.nibbles {n : Nat} (p : ShortPath n) : List Nibble := EthereumRust.nibbles p.1

theorem ShortPath.nibbles_injective : Function.Injective (ShortPath.nibbles (n := n)) :=
  fun _ _ h => Subtype.ext (EthereumRust.nibbles_injective h)

theorem nibbles_length_lt_depth (p : ByteString) : (nibbles p).length < Trie.depth p := by
  rw [length_nibbles, Trie.depth]
  omega

section

variable [Keccak256] {n : Nat} {δ : Type} [TrieDB δ] {μ : Marks n} {σ : Site n μ} {self : Trie δ}

/-- The root of a trie that holds `t`. -/
def rootRef (t : Contents n) : Option NodeHash := if t = .nil then none else some (ref t)

theorem rootRef_of_ne (h : t ≠ .nil) : rootRef t = some (ref t) := if_neg h

structure Holding (μ : Marks n) (trie : Trie δ) (t : Contents n) : Prop where
  root : trie.root = rootRef t
  fit : Sits μ.size [] t
  stored : Stored μ trie.state [] t

theorem Holding.new (db : δ) : Holding μ (Trie.new db) .nil := ⟨rfl, .nil, trivial⟩

theorem finalHash_rootRef (t : Contents n) : Trie.finalHash (rootRef t) = digest (enc t) := by
  by_cases h : t = .nil
  · subst h; rfl
  · rw [rootRef_of_ne h, ref_of_ne h, NodeHash.fromEncodedRaw]
    split <;> rfl

theorem Holding.rootNode (h : Holding μ self t) (hn : t ≠ .nil) :
    ∃ node, self.state.getNode (ref t) = .ok (some node) ∧ Matches μ [] t node :=
  (h.stored.held hn).found

theorem Trie.get_run (h : Holding μ self t) (p : ByteString)
    (hclear : Clear μ 0 t (nibbles p)) : self.get p = .ok ((t.lookup (nibbles p)).map Subtype.val) := by
  rw [Trie.get, h.root]
  by_cases hn : t = .nil
  · subst hn; simp [rootRef]
  · obtain ⟨node, hg, hm⟩ := h.rootNode hn
    rw [rootRef_of_ne hn]
    simp only [TrieState.expectNode, hg]
    exact Node.get_run (h.fit.imp μ.even) hm h.stored.below (.new le_rfl) hclear (nibbles_length_lt_depth p)

omit [Keccak256] [TrieDB δ] in
theorem onState_bind {α β : Type} {x : TrieM δ α} {a : α} {st st' : TrieState δ}
    (h : x st = (.ok a, st')) (f : α → Exec (Trie δ) TrieError β) :
    (Trie.onState x >>= f) ⟨root, st⟩ = f a ⟨root, st'⟩ := by
  refine run_bind_ok ?_ f
  rw [Trie.onState, run_zoom, h]

theorem Trie.insert_run (h : Holding μ self t)
    (hp : p.length ≤ n) (v : Value n) (hown : μ.writes p) (hclear : Clear μ 0 t (nibbles p))
    (hf : σ.fits [] (t.insert (nibbles p) v)) :
    ∃ self', Trie.insert p v.1 self = (.ok (), self') ∧ Writes σ self.state self'.state ∧
      (CollisionFree self'.state → Holding μ self' (t.insert (nibbles p) v)) := by
  have hpath : Along n (NibbleSlice.new p) [] (nibbles p) := .new hp
  have hne := Tree.insert_ne_nil t (nibbles p) v
  have hset : Trie.setRoot none self = (.ok (), Trie.mk none self.state) := rfl
  -- the new root node is stored, in the state that the insertion below it left
  have hfinish : ∀ {st : TrieState δ} {node : Node}, Built σ self.state st [] (t.insert (nibbles p) v) node →
      node.insertSelf 0 st = (.ok (ref (t.insert (nibbles p) v)), st.write (t.insert (nibbles p) v) node) ∧
      Writes σ self.state (st.write (t.insert (nibbles p) v) node) ∧
      (CollisionFree (st.write (t.insert (nibbles p) v) node) → Holding μ
        (Trie.mk (some (ref (t.insert (nibbles p) v))) (st.write (t.insert (nibbles p) v) node))
        (t.insert (nibbles p) v)) := by
    intro st node hb
    have hl := hb.place hf
    exact ⟨hb.insertSelf 0 fun _ _ => rfl, hl.writes,
      fun hcf => ⟨(rootRef_of_ne hne).symm, σ.sits hf, hl.stored hcf⟩⟩
  by_cases hn : t = .nil
  · subst hn
    have hleaf : nibbles p = [] ++ nibbles p := rfl
    obtain ⟨hrun, hw, hh⟩ := hfinish (.leaf (σ.ragged hf) (μ.leaf_own hown hleaf) (.own hleaf) .refl)
    refine ⟨⟨_, _⟩, ?_, hw, hh⟩
    have hroot : Trie.rootNode (rootRef (.nil : Contents n)) (Trie.mk none self.state) =
      (.ok none, Trie.mk none self.state) := rfl
    rw [Trie.insert, run_bind_ok (run_get self), run_bind_ok hset, h.root]
    exact onState_bind hrun _
  · obtain ⟨node, hg, hm⟩ := h.rootNode hn
    obtain ⟨node', st', hins, hb⟩ := Node.insert_run (σ := σ) (h.fit.imp μ.even) hm h.stored.below hpath hown
      hclear hf (nibbles_length_lt_depth p)
    obtain ⟨hrun, hw, hh⟩ := hfinish hb
    refine ⟨⟨_, _⟩, ?_, hw, hh⟩
    have hroot : Trie.rootNode (rootRef t) (Trie.mk none self.state) =
        (.ok (some node), Trie.mk none self.state) := by
      rw [rootRef_of_ne hn, Trie.rootNode, hg]
    rw [Trie.insert, run_bind_ok (run_get self), run_bind_ok hset, h.root,
      run_bind_ok hroot]
    simp only []
    rw [onState_bind hins, onState_bind hrun]
    rfl

theorem Trie.remove_of_node {st' : TrieState δ} (hroot : self.root = rootRef t)
    (hn : t ≠ .nil) (hg : self.state.getNode (ref t) = .ok (some node))
    (hrem : Node.remove (Trie.depth p) node (NibbleSlice.new p) self.state = (.ok (res, old), st')) :
    (res = none → Trie.remove p self = (.ok old, ⟨none, st'⟩)) ∧
    ∀ node' root st'', res = some node' → node'.insertSelf 0 st' = (.ok root, st'') →
      Trie.remove p self = (.ok old, ⟨some root, st''⟩) := by
  have hset : Trie.setRoot none self = (.ok (), Trie.mk none self.state) := rfl
  have hexp : expectNode (ref t) self.state = (.ok node, self.state) := expectNode_run hg
  rw [Trie.remove, run_bind_ok (run_get self), run_bind_ok hset, hroot, rootRef_of_ne hn]
  simp only []
  rw [onState_bind hexp, onState_bind hrem]
  constructor
  · rintro rfl
    rfl
  · rintro node' root st'' rfl hself
    simp only []
    rw [onState_bind hself]
    rfl

theorem Trie.remove_run {holds : List Nibble → Value n → Prop}
    (hσ : Keyed σ holds) (h : Holding μ self t) (hp : p.length ≤ n)
    (hclear : Clear μ 0 t (nibbles p)) (hspare : Spare t (nibbles p)) (hroot : t.IsBranch → t.lookup [] = none)
    (he : ∀ k v, t.lookup k = some v → k ≠ nibbles p → holds k v) :
    ∃ self' t', Trie.remove p self = (.ok ((t.lookup (nibbles p)).map Subtype.val), self') ∧
      σ.fits [] t' ∧ (t.lookup (nibbles p) = none → t' = t) ∧
      (Movable self.state [] t (nibbles p) →
        ∀ q, t'.lookup q = if q = nibbles p then none else t.lookup q) ∧
      Writes σ self.state self'.state ∧ (CollisionFree self'.state → Holding μ self' t') := by
  have hset : Trie.setRoot none self = (.ok (), Trie.mk none self.state) := rfl
  by_cases hn : t = .nil
  · subst hn
    refine ⟨Trie.mk none self.state, .nil, ?_, hσ.fits_iff.mpr ⟨.nil, fun k v hk => by simp at hk⟩,
      fun _ => rfl, fun _ q => (by simp), .refl, fun _ => ⟨rfl, .nil, trivial⟩⟩
    rw [Trie.remove, run_bind_ok (run_get self), run_bind_ok hset, h.root]
    simp [rootRef]
  · obtain ⟨node, hg, hm⟩ := h.rootNode hn
    obtain ⟨res, st', t', hrem, hr⟩ := Node.remove_run hσ h.fit hm h.stored.below (.new hp) hclear he hspare
      (fun _ => hroot) (nibbles_length_lt_depth p)
    obtain ⟨hgone, hkept⟩ := Trie.remove_of_node h.root hn hg hrem
    cases res with
    | none =>
      obtain ⟨rfl, rfl, -⟩ := hr.gone rfl
      exact ⟨Trie.mk none self.state, .nil, hgone rfl, hr.fits, hr.absent, hr.lookups, .refl,
        fun _ => ⟨rfl, .nil, trivial⟩⟩
    | some node' =>
      have hb := hr.built node' rfl
      have hplaced := hb.place hr.fits
      exact ⟨Trie.mk (some (ref t')) (st'.write t' node'), t',
        hkept node' _ _ rfl (hb.insertSelf 0 fun _ _ => rfl), hr.fits, hr.absent, hr.lookups, hplaced.writes,
        fun hcf => ⟨(rootRef_of_ne hb.top.ne_nil).symm, σ.sits hr.fits, hplaced.stored hcf⟩⟩

/-! ## Leaves under their own paths -/

section

theorem Trie.insert_own (h : Holding (.own n) self t) (hp : p.length ≤ n) (v : Value n)
    (hclear : Clear (.own n) 0 t (nibbles p))
    (hm : ∀ k k' w, (t.insert (nibbles p) v).lookup k = some w →
      (t.insert (nibbles p) v).lookup k' = some w → k = k') :
    ∃ self', Trie.insert p v.1 self = (.ok (), self') ∧
      (CollisionFree self'.state → Holding (.own n) self' (t.insert (nibbles p) v)) := by
  have hfits : (Site.entries _ hm).fits [] (t.insert (nibbles p) v) :=
    ⟨Along.ragged (.new hp) h.fit v, fun _ _ hk => hk⟩
  obtain ⟨self', hrun, -, hh⟩ := Trie.insert_run h hp v trivial hclear hfits
  exact ⟨self', hrun, hh⟩

theorem Trie.remove_own (h : Holding (.own n) self t) (hp : p.length ≤ n)
    (hclear : Clear (.own n) 0 t (nibbles p)) (hspare : Spare t (nibbles p))
    (hroot : t.IsBranch → t.lookup [] = none)
    (hm : ∀ k k' w, t.lookup k = some w → t.lookup k' = some w → k = k') :
    ∃ self' t', Trie.remove p self = (.ok ((t.lookup (nibbles p)).map Subtype.val), self') ∧
      (∀ q, t'.lookup q = if q = nibbles p then none else t.lookup q) ∧
      (CollisionFree self'.state → Holding (.own n) self' t') := by
  have howned : (Marks.own n).Owned := ⟨id, Iff.rfl⟩
  obtain ⟨self', t', hrun, -, -, hl, -, hh⟩ := Trie.remove_run (keyed_entries hm) h hp hclear hspare hroot
    fun _ _ hk _ => hk
  exact ⟨self', t', hrun, hl (howned.movable h.stored _), hh⟩

end

/-! ## Paths of one length -/

section

omit [Keccak256] in
theorem Path.size (p : Path n) : ([] : List Nibble).length + (EthereumRust.nibbles p.1).length = 2 * n := by
  rw [List.length_nil, Nat.zero_add]
  exact p.length_nibbles

omit [Keccak256] in
/-- No path of the right length is in the way of another. -/
theorem Path.clear (p : Path n) (hr : ∀ r, μ.reads r) (h : Fit [] t) : Clear μ 0 t p.nibbles :=
  Clear.of_fit hr h p.size

theorem Trie.get_path (h : Holding (.among n P) self t) (p : Path n) :
    self.get p.1 = .ok ((t.lookup p.nibbles).map Subtype.val) :=
  Trie.get_run h p.1 (p.clear (fun _ => trivial) h.fit)

theorem Trie.insert_path (h : Holding (.among n P) self t) (p : Path n) (v : Value n) (hown : P p.1) :
    ∃ self', Trie.insert p.1 v.1 self = (.ok (), self') ∧ Writes (.among n P) self.state self'.state ∧
      (CollisionFree self'.state → Holding (.among n P) self' (t.insert p.nibbles v)) :=
  Trie.insert_run h p.2.le v hown (p.clear (fun _ => trivial) h.fit)
    (h.fit.insert v p.size)

theorem Trie.remove_path (h : Holding (.among n P) self t) (p : Path n) :
    ∃ self' t', Trie.remove p.1 self = (.ok ((t.lookup p.nibbles).map Subtype.val), self') ∧
      Fit [] t' ∧ (t.lookup p.nibbles = none → t' = t) ∧
      (Movable self.state [] t p.nibbles →
        ∀ q, t'.lookup q = if q = p.nibbles then none else t.lookup q) ∧
      Writes (.among n P) self.state self'.state ∧
      (CollisionFree self'.state → Holding (.among n P) self' t') :=
  Trie.remove_run (keyed_among P) h p.2.le (p.clear (fun _ => trivial) h.fit)
    (.of_fit h.fit p.size) h.fit.lookup_branch fun _ _ _ _ => trivial

end

theorem Trie.hash_ok (hput : ∀ (db : δ) key value, (TrieDB.put db key value).1 = .ok ())
    (h : Holding μ self t) :
    (Trie.hash self).1 = .ok (digest (enc t)) := by
  rw [← finalHash_rootRef, Trie.hash]
  obtain ⟨root, st⟩ := self
  obtain rfl : root = rootRef t := h.root
  cases rootRef t with
  | none => rfl
  | some root =>
    obtain ⟨st', hrun, -⟩ := commitNode_ok hput _ root st (Nat.lt_succ_self _)
    have hcommit : TrieState.commit root st = (.ok (), { st' with cache := ∅ }) := by
      rw [TrieState.commit, run_bind_ok (run_get st), run_bind_ok hrun]
      rfl
    exact congrArg Prod.fst (onState_bind hcommit _)

/-- `hash` commits the trie, which holds the same tree afterwards. -/
theorem Trie.hash_run [LawfulTrieDB δ] (h : Holding (.any n) self t)
    (hcl : Closed n self.state) (hcf : CollisionFree self.state) :
    ∃ self', Trie.hash self = (.ok (digest (enc t)), self') ∧ Holding (.any n) self' t ∧
      Closed n self'.state ∧ self'.state.encodings = self.state.encodings ∧
      Puts n {e | e ∈ self.state.encodings} self.state.db self'.state.db ∧
      Stored (.any n) self'.state.flushed [] t := by
  rw [← finalHash_rootRef]
  by_cases hn : t = .nil
  · refine ⟨self, ?_, h, hcl, rfl, .refl, hn ▸ trivial⟩
    subst hn
    rw [Trie.hash, run_bind_ok (run_get self), h.root]
    rfl
  · obtain ⟨st', hrun, hc, henc, hputs, hcl', hst⟩ := commit_run hn h.fit h.stored hcl hcf
    have hflushed : st'.flushed = st' := by rw [TrieState.flushed, ← hc]
    refine ⟨⟨rootRef t, st'⟩, ?_, ⟨rfl, h.fit, hst⟩, hcl', henc, hputs, hflushed.symm ▸ hst⟩
    obtain ⟨root, st⟩ := self
    obtain rfl : root = rootRef t := h.root
    rw [Trie.hash, rootRef_of_ne hn]
    exact onState_bind hrun _

end
end EthereumRust.Mpt
