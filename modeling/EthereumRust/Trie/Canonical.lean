import EthereumRust.Trie.Encoding

/-! # The hashed encodings are canonical

The encoding tells which node it was: its kind, the half-bytes of its path that are left,
its references and its value. -/

namespace EthereumRust.Mpt
open Nibble Rlp List

variable {r : NodeHash} {node other : Node}

/-! ## References -/

/-- The item a reference stands for: the string of a hash, the list that a short node is
encoded as, or the empty string where there is no node. -/
inductive NodeHash.Stands : NodeHash → Item → Prop
  | hashed (x : H256) : Stands (.hashed x) (.bytes x.1)
  | none : Stands (.inline []) (.bytes [])
  | node {items : List Item} : (Item.list items).encode.length < 32 →
    Stands (.inline (Item.list items).encode) (.list items)

theorem Item.encode_ne_nil (i : Item) : i.encode ≠ [] := ne_nil_of_length_pos i.length_encode_pos

namespace NodeHash

theorem Stands.short (h : r.Stands i) : ∀ x, r = .inline x → x.length < 32 := by
  rintro x rfl
  cases h with
  | none => decide
  | node hlen => exact hlen

theorem Stands.written (h : r.Stands i) : r.written = i.encode := by
  cases h with
  | hashed x => rfl
  | none => rfl
  | @node items hlen =>
    cases hx : (Item.list items).encode with
    | nil => exact absurd hx (Item.encode_ne_nil _)
    | cons b bs => rfl

theorem length_embedded_le (h : ∀ x, r = .inline x → x.length < 32) : r.embedded.length ≤ 41 := by
  cases r with
  | hashed x => exact length_written_le h
  | inline x => exact (h x rfl).le.trans (by decide)

theorem Stands.inj (h : r.Stands i) (h' : r'.Stands i) : r = r' := by
  cases h with
  | hashed x =>
    obtain ⟨x, hx⟩ := x
    cases h' with
    | hashed y => rfl
    | none => cases hx
  | none =>
    generalize hb : Item.bytes [] = b at h'
    cases h' with
    | hashed y => exact absurd (Item.bytes.inj hb ▸ y.2) nofun
    | none => rfl
    | node => cases hb
  | node => cases h'; rfl

end NodeHash

/-! ## Nodes -/

/-- What the encoding of a node is made from. -/
inductive NodeParts where
  | leaf (remaining : List Nibble) (value : ByteString)
  | extension (remaining : List Nibble) (child : NodeHash)
  | branch (choices : Nibble → NodeHash) (value : ByteString)

def Node.parts (offset : Nat) : Node → NodeParts
  | .leaf l => .leaf ((nibbles l.path).drop offset) l.value
  | .extension e => .extension e.pfx.iter e.child
  | .branch b => .branch b.choices b.value

def Node.encodeRaw (offset : Nat) : Node → Outcome TrieError ByteString
  | .leaf l => l.encodeRaw offset
  | .extension e => e.encodeRaw
  | .branch b => .ok b.encodeRaw

/-- The items of a node. A child that is not there is embedded as no bytes by an extension. -/
inductive NodeParts.Lists : NodeParts → List Item → Prop
  | leaf {p value} : Lists (.leaf p value) [.bytes (hexPrefix p true), .bytes value]
  | extension {p child i} : child.isValid = true → child.Stands i →
    Lists (.extension p child) [.bytes (hexPrefix p false), i]
  | childless {p} : Lists (.extension p (.inline [])) [.bytes (hexPrefix p false)]
  | branch {choices items value} : (∀ x, (choices x).Stands (items x)) →
    Lists (.branch choices value) (List.ofFn items ++ [.bytes value])

/-- A node in memory whose references are references to nodes. -/
def Node.Encodable (offset : Nat) : Node → Prop
  | .leaf l => offset ≤ 2 * l.path.length ∧ l.path.length + l.value.length < 2 ^ 63
  | .extension e => e.pfx.Holds e.pfx.iter ∧ e.pfx.data.length < 2 ^ 63 ∧ ∃ i, e.child.Stands i
  | .branch b => b.value.length < 2 ^ 63 ∧ ∀ x, ∃ i, (b.choices x).Stands i

/-- What is written for the parts of a node, with the length of the payload in front. -/
def NodeParts.rlp : NodeParts → ByteString
  | .leaf p value => rlpList (rlpBytes (hexPrefix p true) ++ rlpBytes value)
  | .extension p child => rlpList (rlpBytes (hexPrefix p false) ++ child.embedded)
  | .branch choices value => rlpList ((List.ofFn choices).flatMap NodeHash.written ++ rlpBytes value)

theorem Node.Encodable.encodeRaw (h : node.Encodable offset) :
    node.encodeRaw offset = .ok (node.parts offset).rlp := by
  cases node with
  | leaf l => exact (LeafNode.encodeRaw_eq l offset h.1 h.2).trans (by rw [Item.encode_pair]; rfl)
  | extension e =>
    obtain ⟨hpfx, hlen, i, hi⟩ := h
    have hsize := hpfx.size
    exact ExtensionNode.encodeRaw_embedded hpfx (by omega)
      ((NodeHash.length_embedded_le hi.short).trans_lt (by norm_num))
  | branch b =>
    obtain ⟨hvalue, hchoices⟩ := h
    choose items hitems using hchoices
    exact congrArg Except.ok (BranchNode.encodeRaw_eq hvalue fun x => (hitems x).short)

theorem Node.Encodable.length_rlp (h : node.Encodable offset) : (node.parts offset).rlp.length < 2 ^ 64 := by
  suffices hp : ∀ {p : ByteString}, p.length + 9 < 2 ^ 64 → (rlpList p).length < 2 ^ 64 by
    cases node with
    | leaf l =>
      obtain ⟨hoff, hlen⟩ := h
      have hp' : ((nibbles l.path).drop offset).length ≤ 2 * l.path.length := by simp
      have h1 := length_rlpBytes_hexPrefix_le (p := (nibbles l.path).drop offset) (t := true) (by omega)
      have h2 := length_rlpBytes_le (b := l.value) (by omega)
      exact hp (by rw [length_append]; omega)
    | extension e =>
      obtain ⟨hpfx, hlen, i, hi⟩ := h
      have hsize := hpfx.size
      have h1 := length_rlpBytes_hexPrefix_le (p := e.pfx.iter) (t := false) (by omega)
      have h2 := NodeHash.length_embedded_le hi.short
      exact hp (by rw [length_append]; omega)
    | branch b =>
      obtain ⟨hvalue, hchoices⟩ := h
      choose items hitems using hchoices
      have h1 := (BranchNode.children_eq (short_ofFn fun x => (hitems x).short)).2.2
      have h2 := length_rlpBytes_le (b := b.value) (by omega)
      rw [length_ofFn] at h1
      exact hp (by rw [length_append]; omega)
  intro p hp
  have := length_rlpList_le (p := p) (by omega)
  omega

theorem Node.Encodable.lists (h : node.Encodable offset) : ∃ items, (node.parts offset).Lists items := by
  cases node with
  | leaf l => exact ⟨_, .leaf⟩
  | extension e =>
    obtain ⟨-, -, i, hi⟩ := h
    obtain ⟨pfx, child⟩ := e
    cases hi with
    | hashed x => exact ⟨_, .extension rfl (.hashed x)⟩
    | none => exact ⟨_, .childless⟩
    | node hlen => exact ⟨_, .extension (by simp [NodeHash.isValid, Item.encode_ne_nil]) (.node hlen)⟩
  | branch b =>
    obtain ⟨-, hchoices⟩ := h
    choose items hitems using hchoices
    exact ⟨_, .branch hitems⟩

theorem NodeParts.Lists.rlp {p : NodeParts} (h : p.Lists items) : p.rlp = (Item.list items).encode := by
  cases h with
  | leaf =>
    rw [Item.encode_pair]
    rfl
  | extension hvalid hi =>
    rw [Item.encode_pair, NodeParts.rlp, ← NodeHash.written_eq_embedded hvalid, hi.written]
    rfl
  | childless => simp [NodeParts.rlp, Item.encode, NodeHash.embedded]
  | @branch choices items value hitems =>
    have hmap : (List.ofFn choices).map NodeHash.written = (List.ofFn items).map Item.encode := by
      exact congrArg List.ofFn (funext fun x => (hitems x).written)
    have hall : ∀ l : List Item, Item.encodeAll l = l.flatMap Item.encode := fun l => by
      induction l with
      | nil => rfl
      | cons i l ih => rw [Item.encodeAll_cons, ih, flatMap_cons]
    rw [NodeParts.rlp, Item.encode, hall, flatMap_def, hmap]
    simp [Item.encode]

/-- The items say which node was encoded: the number of items and the flag of the path tell
the kinds apart. -/
theorem NodeParts.Lists.inj {p p' : NodeParts} (h : p.Lists items) (h' : p'.Lists items) : p = p' := by
  generalize hl : items = l at h'
  have hlen := congrArg List.length hl
  cases h with
  | leaf =>
    cases h' with
    | leaf =>
      simp only [List.cons.injEq, Item.bytes.injEq, and_true] at hl
      rw [(hexPrefix_injective hl.1).1, hl.2]
    | extension =>
      simp only [List.cons.injEq, Item.bytes.injEq] at hl
      cases (hexPrefix_injective hl.1).2
    | childless | branch => simp at hlen
  | extension hvalid hi =>
    cases h' with
    | leaf =>
      simp only [List.cons.injEq, Item.bytes.injEq] at hl
      cases (hexPrefix_injective hl.1).2
    | extension hvalid' hi' =>
      simp only [List.cons.injEq, Item.bytes.injEq, and_true] at hl
      rw [(hexPrefix_injective hl.1).1, hi.inj (hl.2 ▸ hi')]
    | childless | branch => simp at hlen
  | childless =>
    cases h' with
    | childless =>
      simp only [List.cons.injEq, Item.bytes.injEq, and_true] at hl
      rw [(hexPrefix_injective hl).1]
    | leaf | extension | branch => simp at hlen
  | branch hi =>
    cases h' with
    | branch hi' =>
      obtain ⟨hc, hv⟩ := append_inj' hl rfl
      cases ofFn_injective hc
      simp only [List.cons.injEq, Item.bytes.injEq, and_true] at hv
      rw [hv, funext fun x => (hi x).inj (hi' x)]
    | leaf | extension | childless => simp at hlen

/-! ## The whole node -/

theorem NodeHash.stands_fromEncodedRaw [Keccak256] (items : List Item) :
    ∃ i, (NodeHash.fromEncodedRaw (Item.list items).encode).Stands i := by
  rw [NodeHash.fromEncodedRaw]
  split
  · exact ⟨_, .hashed _⟩
  · exact ⟨_, .node (by omega)⟩

/-- `encode_raw` is the list of the items of a node, and the encodings of two nodes are equal
exactly if their kinds, the rest of their paths, their references and their values are. -/
theorem encodeRaw_canonical [Keccak256] (h : node.Encodable offset) (h' : other.Encodable offset') :
    (∃ items, (node.parts offset).Lists items ∧ node.encodeRaw offset = .ok (Item.list items).encode ∧
      ∃ i, (NodeHash.fromEncodedRaw (Item.list items).encode).Stands i) ∧
    (node.encodeRaw offset = other.encodeRaw offset' ↔ node.parts offset = other.parts offset') := by
  obtain ⟨items, hitems⟩ := h.lists
  obtain ⟨items', hitems'⟩ := h'.lists
  have hlen := h.length_rlp
  have hlen' := h'.length_rlp
  rw [h.encodeRaw, h'.encodeRaw]
  refine ⟨⟨items, hitems, by rw [hitems.rlp], NodeHash.stands_fromEncodedRaw items⟩,
    fun heq => ?_, fun heq => by rw [heq]⟩
  rw [hitems.rlp] at hlen heq
  rw [hitems'.rlp] at hlen' heq
  cases Item.encode_injective hlen hlen' (Except.ok.inj heq)
  exact hitems.inj hitems'

/-- Two leaves with the same rest of the path, one walked a half-byte further than the other. -/
theorem encodeRaw_canonical_leaves :
    Node.encodeRaw 1 (.leaf ⟨[0x12, 0x34], [0x56]⟩) = Node.encodeRaw 3 (.leaf ⟨[0xFF, 0x12, 0x34], [0x56]⟩) := by
  have h : Node.Encodable 1 (.leaf ⟨[0x12, 0x34], [0x56]⟩) := ⟨by decide, by decide⟩
  have h' : Node.Encodable 3 (.leaf ⟨[0xFF, 0x12, 0x34], [0x56]⟩) := ⟨by decide, by decide⟩
  let := Keccak256.ofTable []
  exact (encodeRaw_canonical h h').2.mpr rfl

end EthereumRust.Mpt
