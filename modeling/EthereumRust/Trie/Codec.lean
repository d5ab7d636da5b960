import Mathlib.Algebra.Order.BigOperators.Group.List
import EthereumRust.Rlp.Lawful
import EthereumRust.Trie.Node

/-! # Nodes are read back from the database

The references of a node have no tag: a reference of 32 bytes is read as a hash, so
an inline one has to be shorter. -/

namespace EthereumRust.Mpt
open Nibble Rlp List Outcome

variable {h : NodeHash} {v : NibbleVec} {l : LeafNode} {e : ExtensionNode} {b : BranchNode} {node : Node}

/-! ## References and paths -/

theorem fromVec_toVec (hh : ∀ x, h = .inline x → x.length < 32) :
    NodeHash.fromVec h.toVec = h := by
  cases h with
  | hashed x => simp [NodeHash.toVec, NodeHash.fromVec, x.2]
  | inline x =>
    have := hh x rfl
    rw [NodeHash.toVec, NodeHash.fromVec, dif_neg (by omega)]

theorem length_toVec_le (hh : ∀ x, h = .inline x → x.length < 32) :
    h.toVec.length ≤ 32 := by
  cases h with
  | hashed x => exact x.2.le
  | inline x => exact (hh x rfl).le

theorem length_encode_nodeHash_le (hh : ∀ x, h = .inline x → x.length < 32) :
    (encode h).length ≤ 73 := by
  have hlen := length_toVec_le hh
  have := length_encode_vec_le (v := h.toVec) (by omega)
  change (encode h.toVec).length ≤ 73
  omega

theorem roundTrip_nodeHash (hh : ∀ x, h = .inline x → x.length < 32) : RoundTrip h := by
  intro rest
  have hlen := length_encode_nodeHash_le hh
  have hv := roundTrip_vec (v := h.toVec) (Nat.lt_of_le_of_lt (Nat.add_le_add_right hlen 9) (by norm_num)) rest
  change (do let read ← decodeUnfinished (encode h.toVec ++ rest)
             pure (NodeHash.fromVec read.1, read.2)) = _
  rw [hv, bind_ok]
  simp only [fromVec_toVec hh]
  rfl

theorem roundTrip_nibbleVec (h : (encode v).length + 9 < 2 ^ 64) : RoundTrip v := by
  intro rest
  refine roundTrip_fields h fun hlen => ?_
  simp only [tempBuf_encodeField, tempBuf_new, nil_append, append_assoc, length_append] at hlen ⊢
  rw [decodeField_ok (roundTrip_vec (by omega)), bind_ok, decodeField_ok (roundTrip_bool _),
    bind_ok, decodeField_last (roundTrip_bool _)]
  rfl

/-! ## Nodes -/

theorem roundTrip_leaf (h : (encode l).length + 9 < 2 ^ 64) : RoundTrip l := by
  intro rest
  refine roundTrip_fields h fun hlen => ?_
  simp only [tempBuf_encodeField, tempBuf_new, nil_append, length_append] at hlen ⊢
  rw [decodeField_ok (roundTrip_vec (by omega)), bind_ok, decodeField_last (roundTrip_vec (by omega))]
  rfl

theorem roundTrip_extension (hc : ∀ x, e.child = .inline x → x.length < 32)
    (h : (encode e).length + 9 < 2 ^ 64) : RoundTrip e := by
  intro rest
  refine roundTrip_fields h fun hlen => ?_
  simp only [tempBuf_encodeField, tempBuf_new, nil_append, length_append] at hlen ⊢
  rw [decodeField_ok (roundTrip_nibbleVec (by omega)), bind_ok, decodeField_last (roundTrip_nodeHash hc)]
  rfl

theorem roundTrip_choices {choices : Nibble → NodeHash} (hc : ∀ i x, choices i = .inline x → x.length < 32)
    (h : (encode (List.ofFn choices)).length + 9 < 2 ^ 64) : RoundTrip (List.ofFn choices) := by
  have hlen := length_flatMap_le_encode (List.ofFn choices)
  refine roundTrip_list (fun k hk => ?_) (fun k _ => encode_pos k.toVec) (by omega)
  obtain ⟨i, rfl⟩ := mem_ofFn.mp hk
  exact roundTrip_nodeHash (hc i)

theorem tempBuf_branch :
    (((Encoder.new.encodeField (List.ofFn b.choices)).encodeField b.path).encodeField b.value).tempBuf =
    encode (List.ofFn b.choices) ++ (encode b.path ++ encode b.value) := by
  rw [tempBuf_encodeField, tempBuf_encodeField, tempBuf_encodeField, tempBuf_new, nil_append, append_assoc]

theorem roundTrip_branch (hc : ∀ i x, b.choices i = .inline x → x.length < 32)
    (h : (encode b).length + 9 < 2 ^ 64) : RoundTrip b := by
  intro rest
  refine roundTrip_fields h fun hlen => ?_
  rw [tempBuf_branch] at hlen ⊢
  simp only [length_append] at hlen
  rw [decodeField_ok (roundTrip_choices hc (by omega)), bind_ok]
  simp only [length_ofFn, dif_pos]
  rw [decodeField_ok (roundTrip_vec (by omega)), bind_ok, decodeField_last (roundTrip_vec (by omega))]
  simp only [get_ofFn]
  rfl

/-- The inline references of a node are shorter than a hash. -/
def Node.ShortChildren : Node → Prop
  | .branch b => ∀ i x, b.choices i = .inline x → x.length < 32
  | .extension e => ∀ x, e.child = .inline x → x.length < 32
  | .leaf _ => True

theorem Node.roundTrip (hchildren : node.ShortChildren) (h : (encode node).length + 8 < 2 ^ 64) : RoundTrip node := by
  intro rest
  cases node with
  | branch b =>
    change (do let read ← decodeUnfinished (encode b ++ rest); pure (Node.branch read.1, read.2)) = _
    rw [roundTrip_branch hchildren h rest]
    rfl
  | extension e =>
    change (do let read ← decodeUnfinished (encode e ++ rest); pure (Node.extension read.1, read.2)) = _
    rw [roundTrip_extension hchildren h rest]
    rfl
  | leaf l =>
    change (do let read ← decodeUnfinished (encode l ++ rest); pure (Node.leaf read.1, read.2)) = _
    rw [roundTrip_leaf h rest]
    rfl

/-! ## The lengths of the encodings -/

theorem length_finish_le {e : Encoder} (h : e.tempBuf.length ≤ n) (hn : n < 2 ^ 64) :
    e.finish.length ≤ n + 9 := by
  rw [finish_eq (h.trans_lt hn)]
  exact (length_rlpList_le (h.trans_lt hn)).trans (Nat.add_le_add_right h 9)

theorem length_encode_leaf_le (h : 2 * (l.path.length + l.value.length) + 18 < 2 ^ 64) :
    (encode l).length ≤ 2 * (l.path.length + l.value.length) + 18 + 9 := by
  have h1 := length_encode_vec_le (v := l.path) (by omega)
  have h2 := length_encode_vec_le (v := l.value) (by omega)
  refine length_finish_le ?_ h
  simp only [tempBuf_encodeField, tempBuf_new, nil_append, length_append]
  omega

theorem length_encode_nibbleVec_le (h : 2 * v.data.length + 11 < 2 ^ 64) :
    (encode v).length ≤ 2 * v.data.length + 11 + 9 := by
  have h1 := length_encode_vec_le (v := v.data) (by omega)
  have hbool (b : Bool) : (encode b).length = 1 := by cases b <;> rfl
  refine length_finish_le ?_ h
  simp only [tempBuf_encodeField, tempBuf_new, nil_append, length_append, hbool]
  omega

theorem length_encode_extension_le (hc : ∀ x, e.child = .inline x → x.length < 32)
    (h : 2 * e.pfx.data.length + 93 < 2 ^ 64) : (encode e).length ≤ 2 * e.pfx.data.length + 93 + 9 := by
  have h1 := length_encode_nibbleVec_le (v := e.pfx) (by omega)
  have h2 := length_encode_nodeHash_le hc
  refine length_finish_le ?_ h
  simp only [tempBuf_encodeField, tempBuf_new, nil_append, length_append]
  omega

theorem length_encode_choices_le {choices : Nibble → NodeHash}
    (hc : ∀ i x, choices i = .inline x → x.length < 32) : (encode (List.ofFn choices)).length ≤ 1177 := by
  have h1 := sum_le_card_nsmul ((List.ofFn choices).map (List.length ∘ encode)) 73 (by
    intro n hn
    obtain ⟨k, hk, rfl⟩ := mem_map.mp hn
    obtain ⟨i, rfl⟩ := mem_ofFn.mp hk
    exact length_encode_nodeHash_le (hc i))
  have hlen : ((List.ofFn choices).flatMap encode).length ≤ 16 * 73 := length_flatMap.trans_le h1
  have h2 := length_rlpList_le (p := (List.ofFn choices).flatMap encode) (by omega)
  rw [encode_list_eq (by omega)]
  omega

theorem length_encode_branch_le (hc : ∀ i x, b.choices i = .inline x → x.length < 32)
    (h : 2 * (b.path.length + b.value.length) + 1195 < 2 ^ 64) :
    (encode b).length ≤ 2 * (b.path.length + b.value.length) + 1195 + 9 := by
  have h1 := length_encode_choices_le hc
  have h2 := length_encode_vec_le (v := b.path) (by omega)
  have h3 := length_encode_vec_le (v := b.value) (by omega)
  refine length_finish_le ?_ h
  rw [tempBuf_branch, length_append, length_append]
  omega

/-! ## The whole node -/

/-- A node whose encoding fits in memory is read back as it was. -/
theorem node_decode_encode (hchildren : node.ShortChildren) (hsize : (encode node).length < 2 ^ 63) :
    decode (encode node) = .ok node :=
  (Node.roundTrip hchildren (by omega)).decode

/-- An extension that starts on a half-byte, above a node that is referred to by its encoding. -/
def sampleExtension : Node :=
  .extension ⟨⟨[0x01, 0x23, 0x40], true, true⟩, .inline [0xc3, 0x20, 0x81, 0x80]⟩

theorem node_decode_encode_extension :
    sampleExtension.ShortChildren ∧ decode (encode sampleExtension) = .ok sampleExtension := by
  have hchildren : sampleExtension.ShortChildren := by
    rintro x ⟨⟩
    decide
  exact ⟨hchildren, node_decode_encode hchildren (by decide +kernel)⟩

end EthereumRust.Mpt
