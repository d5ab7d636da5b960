import EthereumRust.Trie.Encoding

/-! # The tree a state holds

The reference of a leaf covers its rest path and its value, not the path above it, so two
leaves can share one entry, with the path of the one written last. `Marks` says what is
asked of a stored path, and `Site` which trees stand where. Every call on the state writes
nodes of such trees only (`Writes`), and as long as the hash does not collide a write
changes no tree held elsewhere. -/

namespace EthereumRust.Mpt
open Nibble Rlp List

variable {path : ByteString}

/-- A value that is not empty and fits in memory together with a path of `n` bytes. -/
abbrev Value (n : Nat) := { v : ByteString // v ≠ [] ∧ n + v.length < 2 ^ 62 }

/-- The contents of a trie whose paths have `n` bytes. -/
abbrev Contents (n : Nat) := Tree Nibble (Value n)

section

variable [Keccak256]

def kec (b : ByteString) : ByteString := (digest b).1

def enc (t : Contents n) : ByteString := (t.item Subtype.val kec).encode

def ref (t : Contents n) : NodeHash :=
  if t = .nil then .inline [] else NodeHash.fromEncodedRaw (enc t)

theorem length_kec (b : ByteString) : (kec b).length = 32 := (digest b).2

@[simp] theorem ref_nil : ref (.nil : Contents n) = NodeHash.constDefault := by
  rw [ref]; rfl

theorem ref_of_ne (h : t ≠ .nil) : ref t = NodeHash.fromEncodedRaw (enc t) := by
  rw [ref, if_neg h]

theorem enc_ne_nil (t : Contents n) : enc t ≠ [] :=
  length_pos_iff.mp (Item.length_encode_pos _)

theorem isValid_ref (t : Contents n) : (ref t).isValid = true ↔ t ≠ .nil := by
  by_cases h : t = .nil
  · simp [h, NodeHash.isValid, NodeHash.constDefault]
  · simp only [ref_of_ne h, NodeHash.fromEncodedRaw, ne_eq, h, not_false_eq_true, iff_true]
    split
    · rfl
    · simpa [NodeHash.isValid] using enc_ne_nil t

theorem inline_ref (h : ref t = .inline x) : x.length < 32 := by
  unfold ref NodeHash.fromEncodedRaw at h
  split at h
  · cases h; simp
  · split at h
    · cases h
    · cases h; omega

theorem encode_capped (t : Contents n) :
    ((t.item Subtype.val kec).capped kec).encode = (ref t).written := by
  by_cases h : t = .nil
  · subst h; rfl
  · rw [ref_of_ne h, Item.capped, NodeHash.fromEncodedRaw]
    by_cases hl : (enc t).length ≥ 32
    · have hl' : ¬ (t.item Subtype.val kec).encode.length < 32 := by rw [enc] at hl; omega
      rw [if_neg hl', if_pos hl]
      rfl
    · have hl' : (t.item Subtype.val kec).encode.length < 32 := by rw [enc] at hl; omega
      rw [if_pos hl', if_neg hl]
      cases he : enc t with
      | nil => exact absurd he (enc_ne_nil t)
      | cons b bs => exact he

theorem enc_leaf (r : List Nibble) (v : Value n) :
    enc (.leaf r v) = (Item.list [.bytes (hexPrefix r true), .bytes v.1]).encode := rfl

theorem enc_ext (s : List Nibble) (c : Contents n) :
    enc (.ext s c) = rlpList (rlpBytes (hexPrefix s false) ++ (ref c).written) := by
  rw [← encode_capped]
  exact Item.encode_pair _ _

theorem encodeAll_ofFn (f : Nibble → Contents n) :
    Item.encodeAll (List.ofFn fun x => ((f x).item Subtype.val kec).capped kec) =
      (List.ofFn fun x => ref (f x)).flatMap NodeHash.written := by
  have h : ∀ l : List Nibble, Item.encodeAll (l.map fun x => ((f x).item Subtype.val kec).capped kec) =
      (l.map fun x => ref (f x)).flatMap NodeHash.written := by
    intro l
    induction l with
    | nil => rfl
    | cons x l ih => simp only [map_cons, Item.encodeAll_cons, flatMap_cons, encode_capped, ih]
  rw [ofFn_eq_map]
  exact h _

theorem enc_branch (cs : Nibble → Contents n) (w : Option (Value n)) :
    enc (.branch cs w) = rlpList ((List.ofFn fun x => ref (cs x)).flatMap NodeHash.written ++
      rlpBytes ((w.map Subtype.val).getD [])) := by
  change rlpList (Item.encodeAll (_ ++ [Item.bytes ((w.map Subtype.val).getD [])])) = _
  rw [Item.encodeAll_append, encodeAll_ofFn, Item.encodeAll_cons, Item.encodeAll_nil, append_nil]
  rfl

omit [Keccak256] in
theorem length_getD_lt (w : Option (Value n)) : ((w.map Subtype.val).getD []).length < 2 ^ 62 := by
  cases w with
  | none => exact (by norm_num : 0 < 2 ^ 62)
  | some v =>
    simp only [Option.map_some, Option.getD_some]
    omega

end

/-! ## Trees and their places -/

/-- A canonical tree below the half-bytes `pre`; `size` says how long the keys are from the root on. -/
structure Sits {n : Nat} (size : Nat → Prop) (pre : List Nibble) (t : Contents n) : Prop where
  canonical : t.Canonical
  keys : ∀ k v, t.lookup k = some v → size (pre.length + k.length)

/-- Each key completes `pre` to a path of at most `n` bytes. -/
abbrev Ragged {n : Nat} (pre : List Nibble) (t : Contents n) : Prop :=
  Sits (fun l => l % 2 = 0 ∧ l ≤ 2 * n) pre t

/-- Each key completes `pre` to a path of `n` bytes. -/
abbrev Fit {n : Nat} (pre : List Nibble) (t : Contents n) : Prop := Sits (· = 2 * n) pre t

namespace Sits

variable {c t : Contents n} {w : Option (Value n)}

theorem nil : Sits size pre (.nil : Contents n) := ⟨trivial, fun k v hk => by simp at hk⟩

theorem imp {size' : Nat → Prop} (h : Sits size pre t) (hsize : ∀ {l}, size l → size' l) :
    Sits size' pre t := ⟨h.canonical, fun k v hk => hsize (h.keys k v hk)⟩

theorem ext_child (h : Sits size pre (.ext s c)) :
    Sits size (pre ++ s) c := by
  refine ⟨h.canonical.2.2, fun k v hk => ?_⟩
  have := h.keys (s ++ k) v (by simpa using hk)
  rwa [length_append, ← Nat.add_assoc, ← length_append] at this

theorem branch_child (h : Sits size pre (.branch cs w))
    (x : Nibble) : Sits size (pre ++ [x]) (cs x) := by
  refine ⟨h.canonical.2 x, fun k v hk => ?_⟩
  have := h.keys (x :: k) v hk
  rw [length_append, length_singleton, Nat.add_assoc, Nat.add_comm 1]
  exact this

theorem stands {u : Contents n} (h : Sits size pre t) (hk : t.Stands k u) :
    Sits size (pre ++ k) u := by
  induction hk with
  | root => rwa [append_nil]
  | ext _ ih => rw [← append_assoc]; exact ih.ext_child
  | branch x _ ih => rw [← append_assoc]; exact ih.branch_child x

theorem insert (h : Sits size pre t) {p : List Nibble} (v : Value n)
    (hp : size (pre.length + p.length)) : Sits size pre (t.insert p v) := by
  refine ⟨Tree.insert_canonical h.canonical p v, fun k w hk => ?_⟩
  rw [Tree.lookup_insert] at hk
  split at hk
  · rename_i hkp
    rw [hkp]
    exact hp
  · exact h.keys k w hk

theorem leaf (h : Sits size pre (.leaf r v)) : size (pre.length + r.length) :=
  h.keys r v (by simp)

theorem bound (h : Sits size pre t) (hn : t ≠ .nil) : n < 2 ^ 62 := by
  obtain ⟨-, v, -⟩ := h.canonical.exists_key hn
  omega

theorem length_shared (h : Ragged pre (.ext s c)) :
    pre.length + s.length ≤ 2 * n := by
  obtain ⟨-, hb, hc⟩ := h.canonical
  obtain ⟨k, v, hk⟩ := hc.exists_key (by rintro rfl; exact hb)
  have := (h.ext_child.keys k v hk).2
  rw [length_append] at this
  omega

/-- The places where a tree sits are all at an even, or all at an odd depth. -/
theorem parity (h : Ragged pre t) (h' : Ragged pre' t)
    (hn : t ≠ .nil) : pre.length % 2 = pre'.length % 2 := by
  obtain ⟨k, v, hk⟩ := h.canonical.exists_key hn
  have h1 := (h.keys k v hk).1
  have h2 := (h'.keys k v hk).1
  omega

theorem ragged (h : Fit pre t) : Ragged pre t := h.imp fun {l} (hl : l = 2 * n) => by omega

theorem depth_eq (h : Fit pre t) (h' : Fit pre' t)
    (hn : t ≠ .nil) : pre.length = pre'.length := by
  obtain ⟨k, v, hk⟩ := h.canonical.exists_key hn
  have h1 := h.keys k v hk
  have h2 := h'.keys k v hk
  omega

/-- A key ends at a branch only if others are longer. -/
theorem branch_longer (h : Sits size pre (.branch cs (some v))) :
    size pre.length ∧ ∃ i, 0 < i ∧ size (pre.length + i) := by
  refine ⟨h.keys [] v rfl, ?_⟩
  obtain ⟨x, hx⟩ := h.canonical.1.exists_child
  obtain ⟨k, w, hk⟩ := (h.canonical.2 x).exists_key hx
  exact ⟨(x :: k).length, by simp, h.keys (x :: k) w hk⟩

theorem branch_value (h : Fit pre (.branch cs w)) :
    w = none := by
  cases w with
  | none => rfl
  | some v =>
    obtain ⟨h0, i, hi, hlen⟩ := h.branch_longer
    omega

theorem lookup_branch (h : Fit pre t) (hb : t.IsBranch) : t.lookup [] = none := by
  cases t with
  | branch cs w => exact h.branch_value
  | _ => exact hb.elim

theorem length_branch_lt (h : Fit pre (.branch cs w)) :
    pre.length < 2 * n := by
  obtain ⟨x, hx⟩ := h.canonical.1.exists_child
  obtain ⟨k, v, hk⟩ := (h.canonical.2 x).exists_key hx
  have := h.keys (x :: k) v hk
  rw [length_cons] at this
  omega

theorem enc_length_lt [Keccak256] (h : Ragged pre t) : (enc t).length < 2 ^ 64 := by
  cases t with
  | nil => exact (by decide : (rlpBytes []).length < 2 ^ 64)
  | leaf r v =>
    have hr := h.leaf.2
    have h1 := length_rlpBytes_hexPrefix_le (p := r) (t := true) (by omega)
    have h2 := length_rlpBytes_le (b := v.1) (by omega)
    rw [enc_leaf, Item.encode_pair]
    have h3 := length_rlpList_le (p := (Item.bytes (hexPrefix r true)).encode ++ (Item.bytes v.1).encode)
      (by simp only [Item.encode, length_append]; omega)
    simp only [Item.encode, length_append] at h3 ⊢
    omega
  | ext s c =>
    have hb := h.bound (by simp)
    have hs := h.length_shared
    have h1 := length_rlpBytes_hexPrefix_le (p := s) (t := false) (by omega)
    have h2 := NodeHash.length_written_le fun x => inline_ref (t := c) (x := x)
    rw [enc_ext]
    have h3 := length_rlpList_le (p := rlpBytes (hexPrefix s false) ++ (ref c).written)
      (by rw [length_append]; omega)
    rw [length_append] at h3
    omega
  | branch cs w =>
    rw [enc_branch]
    have hall : ∀ l : List NodeHash, (∀ k ∈ l, k.written.length ≤ 41) →
        (l.flatMap NodeHash.written).length ≤ 41 * l.length := by
      intro l
      induction l with
      | nil => intro _; simp
      | cons k l ih =>
        intro hl
        have h1 := ih fun k hk => hl k (mem_cons_of_mem _ hk)
        have h2 := hl k mem_cons_self
        rw [flatMap_cons, length_append, length_cons]
        omega
    have h1 := hall (List.ofFn fun x => ref (cs x)) (by
      intro k hk
      obtain ⟨x, rfl⟩ := mem_ofFn.mp hk
      exact NodeHash.length_written_le fun y => inline_ref)
    rw [length_ofFn] at h1
    have hw := length_getD_lt w
    have h2 := length_rlpBytes_le (b := (w.map Subtype.val).getD []) (by omega)
    have h3 := length_rlpList_le (p := (List.ofFn fun x => ref (cs x)).flatMap NodeHash.written ++
      rlpBytes ((w.map Subtype.val).getD [])) (by rw [length_append]; omega)
    rw [length_append] at h3
    omega

end Sits

/-! ## Equal references, equal trees -/

section

variable [Keccak256]

/-- Each node of the tree has its encoding in `E`. -/
def Seen (E : Set ByteString) (t : Contents n) : Prop := t.Every fun s => enc s ∈ E

theorem Seen.mono (h : E ⊆ E') (ht : Seen E t) : Seen E' t :=
  ht.imp fun _ hs => h hs

theorem Seen.logged (ht : Seen E t) (hf : Ragged pre t) :
    t.Logged Subtype.val kec E := by
  induction t generalizing pre with
  | nil => trivial
  | leaf r v => exact ⟨ht, hf.enc_length_lt⟩
  | ext s c ih => exact ⟨⟨ht.1, hf.enc_length_lt⟩, ih ht.2 hf.ext_child⟩
  | branch cs w ih => exact ⟨⟨ht.1, hf.enc_length_lt⟩, fun x => ih x (ht.2 x) (hf.branch_child x)⟩

theorem ref_inj (hE : Set.InjOn kec E) {u : Contents n} (ht : Seen E t)
    (hu : Seen E u) (hft : Ragged pre t) (hfu : Ragged pre' u) (h : ref t = ref u) : t = u := by
  by_cases htn : t = .nil
  · by_contra hne
    have := (isValid_ref u).mpr (fun hun => hne (htn.trans hun.symm))
    rw [← h, isValid_ref] at this
    exact this htn
  · have hun : u ≠ .nil := by
      rw [← isValid_ref, ← h, isValid_ref]; exact htn
    rw [ref_of_ne htn, ref_of_ne hun, NodeHash.fromEncodedRaw, NodeHash.fromEncodedRaw] at h
    have henc : enc t = enc u := by
      split at h <;> split at h
      · exact hE (ht.self htn) (hu.self hun) (congrArg Subtype.val (NodeHash.hashed.inj h))
      · cases h
      · cases h
      · exact NodeHash.inline.inj h
    refine Tree.item_inj Subtype.val_injective (fun v => v.2.1) length_kec hE (ht.logged hft)
      (hu.logged hfu) ?_
    exact Item.encode_injective hft.enc_length_lt hfu.enc_length_lt henc

end

section

variable [Keccak256]

/-- All nodes below a tree's root have their encodings in `E`. -/
def SeenBelow (E : Set ByteString) : Contents n → Prop
  | .nil => True
  | .leaf _ _ => True
  | .ext _ c => Seen E c
  | .branch cs _ => ∀ x, Seen E (cs x)

theorem seen_of (h : t ≠ .nil → enc t ∈ E) (hb : SeenBelow E t) :
    Seen E t := by
  cases t with
  | nil => trivial
  | leaf r v => exact h (by simp)
  | ext s c => exact ⟨h (by simp), hb⟩
  | branch cs w => exact ⟨h (by simp), hb⟩

theorem SeenBelow.mono (h : E ⊆ E') (ht : SeenBelow E t) :
    SeenBelow E' t := by
  cases t with
  | nil => trivial
  | leaf r v => trivial
  | ext s c => exact Seen.mono h ht
  | branch cs w => exact fun x => Seen.mono h (ht x)

theorem Seen.below (h : Seen E t) : SeenBelow E t := by
  cases t with
  | nil => trivial
  | leaf r v => trivial
  | ext s c => exact h.2
  | branch cs w => exact h.2

end

/-! ## Stored paths -/

/-- A leaf with the rest `r` below `pre` can be read with the stored path. -/
structure Sized (pre r : List Nibble) (path : ByteString) : Prop where
  length : pre.length + r.length = 2 * path.length
  rest : (nibbles path).drop pre.length = r

theorem Sized.own (h : nibbles path = pre ++ r) :
    Sized pre r path := by
  refine ⟨?_, by rw [h, drop_left]⟩
  rw [← length_nibbles, h, length_append]

theorem Sized.down (h : Sized pre (s ++ r) path) :
    Sized (pre ++ s) r path := by
  obtain ⟨hlen, hrest⟩ := h
  rw [length_append] at hlen
  refine ⟨by rw [length_append]; omega, ?_⟩
  rw [length_append, ← drop_drop, hrest, drop_left]

theorem Sized.up (h : Sized (pre ++ s) r path) :
    Sized pre ((nibbles path).drop pre.length) path := by
  have hlen := h.length
  rw [length_append] at hlen
  refine ⟨?_, rfl⟩
  rw [length_drop, length_nibbles]
  omega

theorem Sized.move {pre' : List Nibble} (h : Sized pre r path)
    (hlen : pre.length = pre'.length) : Sized pre' r path :=
  ⟨hlen ▸ h.length, hlen ▸ h.rest⟩

/-- How long the keys are, and what is asked of the paths that leaves and branches are stored with. -/
structure Marks (n : Nat) where
  size : Nat → Prop
  even : ∀ {l}, size l → l % 2 = 0 ∧ l ≤ 2 * n
  leaf : List Nibble → List Nibble → ByteString → Prop
  branch : List Nibble → ByteString → Prop
  /-- The rests that are ever read. -/
  reads : List Nibble → Prop
  /-- The paths that are ever written. -/
  writes : ByteString → Prop
  leaf_own : ∀ {pre r path}, writes path → nibbles path = pre ++ r → leaf pre r path
  leaf_down : ∀ {pre s r path}, leaf pre (s ++ r) path → leaf (pre ++ s) r path
  leaf_sized : ∀ {pre r path}, leaf pre r path → reads r → Sized pre r path
  branch_own : ∀ {pre path}, writes path → nibbles path = pre → branch pre path
  branch_of_leaf : ∀ {pre path}, leaf pre [] path → branch pre path

/-! ## Nodes and trees -/

section

variable [Keccak256] {n : Nat} {δ : Type} [TrieDB δ]

/-- The node is that of the tree's root, below `pre`. -/
inductive Matches (μ : Marks n) (pre : List Nibble) : Contents n → Node → Prop
  | leaf {r : List Nibble} {v : Value n} {path : ByteString} (hpath : μ.leaf pre r path) :
      Matches μ pre (.leaf r v) (.leaf ⟨path, v.1⟩)
  | ext {s : List Nibble} {c : Contents n} {pfx : NibbleVec} (hpfx : pfx.Holds s)
      (half : pfx.firstIsHalf = (pre.length % 2 != 0)) :
      Matches μ pre (.ext s c) (.extension ⟨pfx, ref c⟩)
  | bare {cs : Nibble → Contents n} :
      Matches μ pre (.branch cs none) (.branch ⟨fun x => ref (cs x), [], []⟩)
  | valued {cs : Nibble → Contents n} {v : Value n} {path : ByteString} (hpath : μ.branch pre path) :
      Matches μ pre (.branch cs (some v)) (.branch ⟨fun x => ref (cs x), path, v.1⟩)

theorem Matches.ne_nil {t : Contents n} (h : Matches μ pre t node) :
    t ≠ .nil := by
  cases h <;> simp

theorem Matches.exists_branch {cs : Nibble → Contents n} {w : Option (Value n)}
    (h : Matches μ pre (.branch cs w) node) :
    ∃ b, node = .branch b ∧ b.choices = fun x => ref (cs x) := by
  cases h <;> exact ⟨_, rfl, rfl⟩

/-- The root node of a tree is in the state. -/
structure Held (μ : Marks n) (st : TrieState δ) (pre : List Nibble) (t : Contents n) : Prop where
  seen : enc t ∈ st.encodings
  found : ∃ node, st.getNode (ref t) = .ok (some node) ∧ Matches μ pre t node

/-- All nodes of a tree are in the state. -/
def Stored (μ : Marks n) (st : TrieState δ) : List Nibble → Contents n → Prop
  | _, .nil => True
  | pre, .leaf r v => Held μ st pre (.leaf r v)
  | pre, .ext s c => Held μ st pre (.ext s c) ∧ Stored μ st (pre ++ s) c
  | pre, .branch cs w => Held μ st pre (.branch cs w) ∧ ∀ x, Stored μ st (pre ++ [x]) (cs x)

/-- All nodes of a tree are in the state, its root perhaps not. -/
def StoredBelow (μ : Marks n) (st : TrieState δ) (pre : List Nibble) : Contents n → Prop
  | .nil => True
  | .leaf _ _ => True
  | .ext s c => Stored μ st (pre ++ s) c
  | .branch cs _ => ∀ x, Stored μ st (pre ++ [x]) (cs x)

variable {st : TrieState δ}

theorem stored_of (h : Held μ st pre t) (hb : StoredBelow μ st pre t) : Stored μ st pre t := by
  cases t with
  | nil => trivial
  | leaf r v => exact h
  | ext s c => exact ⟨h, hb⟩
  | branch cs w => exact ⟨h, hb⟩

theorem Stored.held (h : Stored μ st pre t) (hn : t ≠ .nil) : Held μ st pre t := by
  cases t with
  | nil => exact absurd rfl hn
  | leaf r v => exact h
  | ext s c => exact h.1
  | branch cs w => exact h.1

theorem Stored.below (h : Stored μ st pre t) : StoredBelow μ st pre t := by
  cases t with
  | nil => trivial
  | leaf r v => trivial
  | ext s c => exact h.2
  | branch cs w => exact h.2

theorem Stored.seen (h : Stored μ st pre t) : Seen {e | e ∈ st.encodings} t := by
  induction t generalizing pre with
  | nil => trivial
  | leaf r v => exact Held.seen h
  | ext s c ih => exact ⟨h.1.seen, ih h.2⟩
  | branch cs w ih => exact ⟨h.1.seen, fun x => ih x (h.2 x)⟩

theorem StoredBelow.seen (h : StoredBelow μ st pre t) : SeenBelow {e | e ∈ st.encodings} t := by
  cases t with
  | nil => trivial
  | leaf r v => trivial
  | ext s c => exact Stored.seen h
  | branch cs w => exact fun x => Stored.seen (h x)

theorem Stored.stands {u : Contents n} (ht : Stored μ st pre t) (h : t.Stands k u) :
    Stored μ st (pre ++ k) u := by
  induction h with
  | root => rwa [append_nil]
  | ext _ ih => rw [← append_assoc]; exact ih.2
  | branch x _ ih => rw [← append_assoc]; exact ih.2 x

theorem Stored.expectNode (h : Stored μ st pre t) (hn : t ≠ .nil) :
    ∃ node, st.getNode (ref t) = .ok (some node) ∧ st.expectNode (ref t) = .ok node ∧
      Matches μ pre t node := by
  obtain ⟨node, hg, hm⟩ := (h.held hn).found
  exact ⟨node, hg, by rw [TrieState.expectNode, hg]; rfl, hm⟩

end

/-! ## Places -/

/-- The trees that stand at each place. -/
structure Site (n : Nat) (μ : Marks n) where
  fits : List Nibble → Contents n → Prop
  sits : ∀ {pre t}, fits pre t → Sits μ.size pre t
  ext_child : ∀ {pre s c}, fits pre (.ext s c) → fits (pre ++ s) c
  branch_child : ∀ {pre cs w}, fits pre (.branch cs w) → ∀ x, fits (pre ++ [x]) (cs x)
  leaf_move : ∀ {pre pre' r v path}, fits pre (.leaf r v) → fits pre' (.leaf r v) →
    μ.leaf pre' r path → μ.leaf pre r path
  branch_move : ∀ {pre pre' cs v path}, fits pre (.branch cs (some v)) →
    fits pre' (.branch cs (some v)) → μ.branch pre' path → μ.branch pre path

theorem Site.ragged {μ : Marks n} (σ : Site n μ) {t : Contents n}
    (h : σ.fits pre t) : Ragged pre t := (σ.sits h).imp μ.even

/-- Paths of `n` bytes; a leaf may be stored with any path in `P` that has its rest. -/
@[reducible] def Marks.among (n : Nat) (P : ByteString → Prop) : Marks n where
  size l := l = 2 * n
  even h := by omega
  leaf pre r path := Sized pre r path ∧ P path
  branch pre path := Sized pre [] path ∧ P path
  reads _ := True
  writes := P
  leaf_own hw h := ⟨.own h, hw⟩
  leaf_down h := ⟨h.1.down, h.2⟩
  leaf_sized h _ := h.1
  branch_own hw h := ⟨.own (by rw [List.append_nil]; exact h), hw⟩
  branch_of_leaf h := h

abbrev Marks.any (n : Nat) : Marks n := .among n fun _ => True

@[reducible] def Site.among (n : Nat) (P : ByteString → Prop) : Site n (.among n P) where
  fits := Fit
  sits h := h
  ext_child h := h.ext_child
  branch_child h := h.branch_child
  leaf_move h h' hpath := ⟨hpath.1.move (h'.depth_eq h (by simp)), hpath.2⟩
  branch_move h h' hpath := ⟨hpath.1.move (h'.depth_eq h (by simp)), hpath.2⟩

abbrev Site.any (n : Nat) : Site n (.any n) := .among n fun _ => True

/-- A stored path has the right length and the right end, if the rest is ever read. -/
def Marks.sized {n : Nat} (reads : List Nibble → Prop) (h : ∀ s r, reads r → reads (s ++ r)) : Marks n where
  size l := l % 2 = 0 ∧ l ≤ 2 * n
  even h := h
  leaf pre r path := reads r → Sized pre r path
  branch _ _ := True
  reads := reads
  writes _ := True
  leaf_own _ hpath _ := .own hpath
  leaf_down hpath hr := (hpath (h _ _ hr)).down
  leaf_sized hpath hr := hpath hr
  branch_own _ _ := trivial
  branch_of_leaf _ := trivial

/-- Leaves with one rest and one value stand at one depth. -/
def Apart {n : Nat} (reads : List Nibble → Prop) (T : Contents n) : Prop :=
  ∀ {k k' r v}, reads r → T.Stands k (.leaf r v) → T.Stands k' (.leaf r v) → k.length = k'.length

/-- The parts of a tree, where they stand in it. -/
def Site.within {n : Nat} {reads : List Nibble → Prop} {h : ∀ s r, reads r → reads (s ++ r)}
    (T : Contents n) (hT : Ragged [] T) (hapart : Apart reads T) : Site n (.sized reads h) where
  fits := T.Stands
  sits hk := hT.stands hk
  ext_child := .ext
  branch_child hk x := .branch x hk
  leaf_move hk hk' hpath hr := (hpath hr).move (hapart hr hk' hk)
  branch_move _ _ _ := trivial

/-- Each leaf and each branch value is stored under its own path. -/
def Marks.own (n : Nat) : Marks n where
  size l := l % 2 = 0 ∧ l ≤ 2 * n
  even h := h
  leaf pre r path := nibbles path = pre ++ r
  branch pre path := nibbles path = pre
  reads _ := True
  writes _ := True
  leaf_own _ h := h
  leaf_down h := by rw [List.append_assoc]; exact h
  leaf_sized h _ := .own h
  branch_own _ h := h
  branch_of_leaf h := by rwa [List.append_nil] at h

/-- The trees whose entries are in the map; no value stands under two keys. -/
def Site.entries {n : Nat} (m : List Nibble → Option (Value n))
    (hm : ∀ k k' v, m k = some v → m k' = some v → k = k') : Site n (.own n) where
  fits pre t := Ragged pre t ∧ ∀ k v, t.lookup k = some v → m (pre ++ k) = some v
  sits h := h.1
  ext_child h := ⟨h.1.ext_child, fun k v hk => by
    rw [List.append_assoc]
    exact h.2 _ v (by simpa using hk)⟩
  branch_child h x := ⟨h.1.branch_child x, fun k v hk => by
    rw [List.append_assoc]
    exact h.2 (x :: k) v hk⟩
  leaf_move {pre pre' r v path} h h' hpath := by
    have := hm _ _ v (h.2 r v (by simp)) (h'.2 r v (by simp))
    exact Eq.trans hpath this.symm
  branch_move {pre pre' cs v path} h h' hpath := by
    have := hm _ _ v (h.2 [] v rfl) (h'.2 [] v rfl)
    rw [List.append_nil, List.append_nil] at this
    exact Eq.trans hpath this.symm

/-! ## Writes -/

section

variable [Keccak256] {n : Nat} {δ : Type} {μ : Marks n} {σ : Site n μ} {st st' : TrieState δ}

/-- The state after a tree's root node was stored. -/
def TrieState.write (st : TrieState δ) (t : Contents n) (node : Node) : TrieState δ :=
  { st with cache := st.cache.insert (ref t) node, encodings := enc t :: st.encodings }

/-- The hash does not collide on the encodings a state has seen. -/
def CollisionFree (st : TrieState δ) : Prop := Set.InjOn kec {e | e ∈ st.encodings}

/-- From one state to another by storing root nodes of trees whose other nodes were seen. -/
inductive Writes (σ : Site n μ) (st : TrieState δ) : TrieState δ → Prop
  | refl : Writes σ st st
  | write {st' : TrieState δ} {pre : List Nibble} {t : Contents n} {node : Node} :
      Writes σ st st' → σ.fits pre t → Matches μ pre t node → SeenBelow {e | e ∈ st'.encodings} t →
      Writes σ st (st'.write t node)

theorem Writes.trans (h : Writes σ st st') (h' : Writes σ st' st'') : Writes σ st st'' := by
  induction h' with
  | refl => exact h
  | write _ hf hm hs ih => exact ih.write hf hm hs

theorem Writes.encodings (h : Writes σ st st') : {e | e ∈ st.encodings} ⊆ {e | e ∈ st'.encodings} := by
  induction h with
  | refl => exact fun _ h => h
  | write _ _ _ _ ih => exact fun e he => mem_cons_of_mem _ (ih he)

theorem Writes.db (h : Writes σ st st') : st'.db = st.db := by
  induction h with
  | refl => rfl
  | write _ _ _ _ ih => exact ih

theorem CollisionFree.of_writes (h : CollisionFree st') (hw : Writes σ st st') : CollisionFree st :=
  h.mono hw.encodings

/-- The root node of one tree, read at another place where the same tree stands. -/
theorem Matches.move {t : Contents n}
    (h : Matches μ pre t node) (hf : σ.fits pre t) (hf' : σ.fits pre' t) : Matches μ pre' t node := by
  have hpar := (σ.ragged hf).parity (σ.ragged hf') h.ne_nil
  cases h with
  | leaf hpath => exact .leaf (σ.leaf_move hf' hf hpath)
  | ext hpfx half => exact .ext hpfx (by rw [half, hpar])
  | bare => exact .bare
  | valued hpath => exact .valued (σ.branch_move hf' hf hpath)

variable [TrieDB δ]

@[simp] theorem getNode_write (st : TrieState δ) (t : Contents n) (node : Node) :
    (st.write t node).getNode (ref t) = .ok (some node) := by
  simp [TrieState.getNode, TrieState.write]

theorem getNode_write_ne (st : TrieState δ) (node : Node) (hne : h ≠ ref t) :
    (st.write t node).getNode h = st.getNode h := by
  simp [TrieState.getNode, TrieState.write, AList.lookup_insert_ne hne]

theorem Stored.imp {μ μ' : Marks n} (σ : Site n μ') (h : Stored μ st pre t) (hf : σ.fits pre t)
    {μ'' : Marks n} (hkeep : ∀ {pre' : List Nibble} {u : Contents n}, pre.length ≤ pre'.length → u ≠ .nil →
      σ.fits pre' u → Seen {e | e ∈ st.encodings} u → Held μ st pre' u → Held μ'' st' pre' u) :
    Stored μ'' st' pre t := by
  have hseen := h.seen
  induction t generalizing pre with
  | nil => trivial
  | leaf r v => exact hkeep le_rfl (by simp) hf hseen h
  | ext s c ih =>
    refine ⟨hkeep le_rfl (by simp) hf hseen h.1, ih h.2 (σ.ext_child hf) (fun hlen => hkeep ?_) hseen.2⟩
    rw [length_append] at hlen
    omega
  | branch cs w ih =>
    refine ⟨hkeep le_rfl (by simp) hf hseen h.1, fun x =>
      ih x (h.2 x) (σ.branch_child hf x) (fun hlen => hkeep ?_) (hseen.2 x)⟩
    rw [length_append] at hlen
    omega

theorem Held.write (hcf : CollisionFree (st.write u node)) (hf : σ.fits pre t)
    (hs : Seen {e | e ∈ st.encodings} t) (hfu : σ.fits pre' u) (hm : Matches μ pre' u node)
    (hsu : SeenBelow {e | e ∈ st.encodings} u) (h : Held μ st pre t) : Held μ (st.write u node) pre t := by
  have hmono : {e | e ∈ st.encodings} ⊆ {e | e ∈ (st.write u node).encodings} :=
    fun e h => mem_cons_of_mem _ h
  refine ⟨hmono h.seen, ?_⟩
  by_cases hr : ref t = ref u
  · have htu : t = u := by
      refine ref_inj hcf (hs.mono hmono) (seen_of (fun _ => ?_) (hsu.mono hmono)) (σ.ragged hf)
        (σ.ragged hfu) hr
      exact mem_cons_self
    subst htu
    exact ⟨node, getNode_write _ _ _, hm.move hfu hf⟩
  · obtain ⟨node', hg, hm'⟩ := h.found
    exact ⟨node', by rw [getNode_write_ne _ _ hr]; exact hg, hm'⟩

theorem Stored.write (hcf : CollisionFree (st.write u node)) (hf : σ.fits pre t) (hfu : σ.fits pre' u)
    (hm : Matches μ pre' u node) (hsu : SeenBelow {e | e ∈ st.encodings} u) (h : Stored μ st pre t) :
    Stored μ (st.write u node) pre t :=
  h.imp σ hf fun _ _ hf hs h => h.write hcf hf hs hfu hm hsu

/-- Writes keep every tree that stands somewhere, if the hash does not collide. -/
theorem Stored.writes (hw : Writes σ st st') (hcf : CollisionFree st') (hf : σ.fits pre t)
    (h : Stored μ st pre t) : Stored μ st' pre t := by
  induction hw with
  | refl => exact h
  | write hw hfu hm hsu ih =>
    exact (ih (hcf.of_writes (.write .refl hfu hm hsu))).write hcf hf hfu hm hsu

theorem stored_write (hcf : CollisionFree (st.write t node)) (hf : σ.fits pre t)
    (hm : Matches μ pre t node) (hb : StoredBelow μ st pre t) : Stored μ (st.write t node) pre t := by
  refine stored_of ⟨mem_cons_self, node, getNode_write _ _ _, hm⟩ ?_
  cases t with
  | nil => trivial
  | leaf r v => trivial
  | ext s c => exact Stored.write hcf (σ.ext_child hf) hf hm hb.seen hb
  | branch cs w => exact fun x => Stored.write hcf (σ.branch_child hf x) hf hm hb.seen (hb x)

end

/-! ## Storing a node -/

section

variable [Keccak256] {n : Nat} {δ : Type}

omit [Keccak256] in
theorem call_bind {α β : Type} {x : Outcome TrieError α} {a : α} (h : x = .ok a) (f : α → TrieM δ β)
    (st : TrieState δ) : (call x >>= f) st = f a st :=
  Exec.run_bind_ok (by rw [call, h]) f

theorem insertEncoded_run (node : Node) (hn : t ≠ .nil) (st : TrieState δ) :
    insertEncoded node (enc t) st = (.ok (ref t), st.write t node) := by
  rw [TrieState.write, ref_of_ne hn]
  rfl

theorem LeafNode.encodeRaw_enc {v : Value n}
    (hf : Ragged pre (.leaf r v)) (hs : Sized pre r path) :
    LeafNode.encodeRaw ⟨path, v.1⟩ pre.length = .ok (enc (.leaf r v)) := by
  have hr := hf.leaf.2
  have hlen := hs.length
  rw [LeafNode.encodeRaw_eq ⟨path, v.1⟩ pre.length (by simp; omega) (by simp; omega),
    enc_leaf, ← hs.rest]

theorem ExtensionNode.encodeRaw_enc {c : Contents n} {pfx : NibbleVec}
    (hf : Ragged pre (.ext s c)) (hpfx : pfx.Holds s) :
    ExtensionNode.encodeRaw ⟨pfx, ref c⟩ = .ok (enc (.ext s c)) := by
  have hb := hf.bound (by simp)
  have hs := hf.length_shared
  have hc : c ≠ .nil := by
    rintro rfl
    exact hf.canonical.2.1
  rw [ExtensionNode.encodeRaw_eq hpfx (by omega) ((isValid_ref c).mpr hc) (fun x => inline_ref), enc_ext]

theorem BranchNode.encodeRaw_enc (cs : Nibble → Contents n) {w : Option (Value n)} {path value}
    (hvalue : value = (w.map Subtype.val).getD []) :
    BranchNode.encodeRaw ⟨fun x => ref (cs x), path, value⟩ = enc (.branch cs w) := by
  subst hvalue
  rw [BranchNode.encodeRaw_eq ((length_getD_lt w).trans (by norm_num)) fun i x => inline_ref, enc_branch]

/-- The encoding `insert_self` hashes. -/
def Node.encodedAt (node : Node) (offset : Nat) : Outcome TrieError ByteString :=
  match node with
  | .branch b => .ok b.encodeRaw
  | .extension e => e.encodeRaw
  | .leaf l => l.encodeRaw offset

theorem Node.insertSelf_of_encodedAt (hn : t ≠ .nil)
    (h : node.encodedAt offset = .ok (enc t)) (st : TrieState δ) :
    node.insertSelf offset st = (.ok (ref t), st.write t node) := by
  cases node with
  | branch b =>
    rw [Node.insertSelf, BranchNode.insertSelf, Except.ok.inj h]
    exact insertEncoded_run _ hn st
  | extension e =>
    have he : e.encodeRaw = .ok (enc t) := h
    rw [Node.insertSelf, ExtensionNode.insertSelf, call_bind he]
    exact insertEncoded_run _ hn st
  | leaf l =>
    have he : l.encodeRaw offset = .ok (enc t) := h
    rw [Node.insertSelf, LeafNode.insertSelf, call_bind he]
    exact insertEncoded_run _ hn st

/-- `insert_self` hashes the encoding of the tree whose root the node is. -/
theorem Matches.encodes {μ : Marks n}
    (h : Matches μ pre t node) (hf : Ragged pre t) (hreads : ∀ r w, t = .leaf r w → μ.reads r) :
    node.encodedAt pre.length = .ok (enc t) := by
  cases h with
  | leaf hpath => exact LeafNode.encodeRaw_enc hf (μ.leaf_sized hpath (hreads _ _ rfl))
  | ext hpfx half => exact ExtensionNode.encodeRaw_enc hf hpfx
  | bare => exact congrArg Except.ok (BranchNode.encodeRaw_enc _ rfl)
  | valued hpath => exact congrArg Except.ok (BranchNode.encodeRaw_enc _ rfl)

end

/-! ## Nodes that were just made -/

section

variable [Keccak256] {n : Nat} {δ : Type} [TrieDB δ] {μ : Marks n} {σ : Site n μ}

structure Built (σ : Site n μ) (st st' : TrieState δ) (pre : List Nibble) (t : Contents n)
    (node : Node) : Prop where
  top : Matches μ pre t node
  encodes : node.encodedAt pre.length = .ok (enc t)
  writes : Writes σ st st'
  seen : SeenBelow {e | e ∈ st'.encodings} t
  stored : CollisionFree st' → StoredBelow μ st' pre t

structure Placed (σ : Site n μ) (st st' : TrieState δ) (pre : List Nibble) (t : Contents n) : Prop where
  writes : Writes σ st st'
  seen : Seen {e | e ∈ st'.encodings} t
  stored : CollisionFree st' → Stored μ st' pre t

variable {st : TrieState δ}

theorem Placed.refl (h : Stored μ st pre t) : Placed σ st st pre t := ⟨.refl, h.seen, fun _ => h⟩

theorem Placed.nil (h : Writes σ st st') : Placed σ st st' pre .nil := ⟨h, trivial, fun _ => trivial⟩

theorem Placed.mono (h : Placed σ st st' pre t) (hw : Writes σ st' st'') (hf : σ.fits pre t) :
    Placed σ st st'' pre t :=
  ⟨h.writes.trans hw, h.seen.mono hw.encodings,
    fun hcf => (h.stored (hcf.of_writes hw)).writes hw hcf hf⟩

theorem Placed.ext_child (h : Placed σ st st' pre (.ext s c)) :
    Placed σ st st' (pre ++ s) c :=
  ⟨h.writes, h.seen.2, fun hcf => (h.stored hcf).2⟩

theorem Placed.built (h : Placed σ st st' pre t) (hm : Matches μ pre t node)
    (he : node.encodedAt pre.length = .ok (enc t)) : Built σ st st' pre t node :=
  ⟨hm, he, h.writes, h.seen.below, fun hcf => (h.stored hcf).below⟩

theorem Built.place (h : Built σ st st' pre t node) (hf : σ.fits pre t) :
    Placed σ st (st'.write t node) pre t := by
  have hw : Writes σ st' (st'.write t node) := .write .refl hf h.top h.seen
  refine ⟨h.writes.trans hw, seen_of (fun _ => mem_cons_self) (h.seen.mono hw.encodings), ?_⟩
  intro hcf
  exact stored_write hcf hf h.top (h.stored (hcf.of_writes hw))

theorem Built.insertSelf (h : Built σ st st' pre t node) (offset : Nat)
    (hoff : ∀ l, node = .leaf l → offset = pre.length) :
    node.insertSelf offset st' = (.ok (ref t), st'.write t node) := by
  refine Node.insertSelf_of_encodedAt h.top.ne_nil ?_ st'
  have he := h.encodes
  cases node with
  | branch b => exact he
  | extension e => exact he
  | leaf l => rw [hoff l rfl]; exact he

theorem Built.leaf (hf : Ragged pre (.leaf r v))
    (hpath : μ.leaf pre r path) (hsized : Sized pre r path) (hw : Writes σ st st') :
    Built σ st st' pre (.leaf r v) (.leaf ⟨path, v.1⟩) :=
  ⟨.leaf hpath, LeafNode.encodeRaw_enc hf hsized, hw, trivial, fun _ => trivial⟩

theorem Built.ext {pfx : NibbleVec} (hf : Ragged pre (.ext s c))
    (h : Placed σ st st' (pre ++ s) c) (hpfx : pfx.Holds s)
    (half : pfx.firstIsHalf = (pre.length % 2 != 0)) :
    Built σ st st' pre (.ext s c) (.extension ⟨pfx, ref c⟩) :=
  ⟨.ext hpfx half, ExtensionNode.encodeRaw_enc hf hpfx, h.writes, h.seen, h.stored⟩

theorem Built.bare (hw : Writes σ st st')
    (h : ∀ x, Placed σ st st' (pre ++ [x]) (cs x)) :
    Built σ st st' pre (.branch cs none) (.branch ⟨fun x => ref (cs x), [], []⟩) :=
  ⟨.bare, congrArg Except.ok (BranchNode.encodeRaw_enc cs rfl), hw, fun x => (h x).seen,
    fun hcf x => (h x).stored hcf⟩

theorem Built.valued (hw : Writes σ st st')
    (hpath : μ.branch pre path) (h : ∀ x, Placed σ st st' (pre ++ [x]) (cs x)) :
    Built σ st st' pre (.branch cs (some v)) (.branch ⟨fun x => ref (cs x), path, v.1⟩) :=
  ⟨.valued hpath, congrArg Except.ok (BranchNode.encodeRaw_enc cs rfl), hw, fun x => (h x).seen,
    fun hcf x => (h x).stored hcf⟩

end
end EthereumRust.Mpt
