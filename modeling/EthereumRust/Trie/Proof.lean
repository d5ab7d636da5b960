import EthereumRust.Lib.MerkleProof
import EthereumRust.Trie.FiniteMap

/-! # The proofs of a trie

`get_proof` lists the nodes that `get` passes. A verifier that only has the root hash
accepts the list and ends with what `get` returns. -/

namespace EthereumRust.Mpt
open Nibble Rlp List Outcome

section

variable [Keccak256] {n : Nat} {δ : Type} [TrieDB δ]

theorem pushEncoded_enc (nodePath : List ByteString) (t : Contents n) :
    pushEncoded nodePath (enc t) = nodePath ++ t.listed Subtype.val kec := by
  rw [pushEncoded, Tree.listed, enc]
  by_cases h : (t.item Subtype.val kec).encode.length < 32
  · rw [if_neg (by omega), if_pos h, append_nil]
  · rw [if_pos (by omega), if_neg h]

/-- The walk to a path appends the root node, if it is long enough, and the nodes listed below it. -/
theorem Node.getPath_run {t : Contents n} {st : TrieState δ} (hf : Fit pre t)
    (hm : Matches (.among n P) pre t node) (hst : StoredBelow (.among n P) st pre t) (hp : Along n path pre p)
    (hfull : pre.length + p.length = 2 * n) (hfuel : p.length < fuel) :
    Node.getPath fuel st node path nodePath =
      .ok (nodePath ++ t.listed Subtype.val kec ++ t.trail Subtype.val kec p) := by
  induction t generalizing pre p path node fuel nodePath with
  | nil => exact absurd rfl hm.ne_nil
  | leaf r v =>
    cases hm with
    | leaf hpath =>
      cases fuel with
      | zero => omega
      | succ fuel =>
        rw [Node.getPath, LeafNode.getPath, hp.offset, LeafNode.encodeRaw_enc hf.ragged hpath.1, bind_ok,
          pushEncoded_enc, Tree.trail_leaf, append_nil]
        rfl
  | ext s c ih =>
    have hclear : Clear (.among n P) pre.length (.ext s c) p := .of_fit (fun _ => trivial) hf hfull
    obtain ⟨hne, hb, -⟩ := hf.canonical
    cases hm with
    | @ext _ _ pfx hpfx half =>
      cases fuel with
      | zero => omega
      | succ fuel =>
        rw [Node.getPath, ExtensionNode.getPath, ExtensionNode.encodeRaw_enc hf.ragged hpfx, bind_ok,
          hp.skipPrefix hpfx half hne (hclear.skips hp), pushEncoded_enc, Tree.trail_ext]
        by_cases h : s <+: p
        · obtain ⟨q, rfl⟩ := h
          obtain ⟨child, -, hc, hmc⟩ := Stored.expectNode (show Stored (.among n P) st (pre ++ s) c from hst)
            (by rintro rfl; exact hb)
          have hspos := length_pos_iff.mpr hne
          rw [length_append] at hfuel hfull
          simp only [prefix_append, if_true, bind_ok, hc, drop_left]
          rw [ih hf.ext_child hmc (Stored.below hst) (hp.step rfl) (by rw [length_append]; omega) (by omega),
            append_assoc]
        · simp [h]
  | branch cs w ih =>
    have hlt := hf.length_branch_lt
    obtain rfl := hf.branch_value
    cases hm with
    | bare =>
      cases p with
      | nil => rw [length_nil] at hfull; omega
      | cons x q =>
        obtain ⟨hnext, hq⟩ := hp.next
        rw [length_cons] at hfuel hfull
        cases fuel with
        | zero => omega
        | succ fuel =>
          rw [Node.getPath, BranchNode.getPath, BranchNode.encodeRaw_enc cs (w := none)
            (show [] = _ from rfl), pushEncoded_enc]
          simp only [hnext, Tree.trail]
          by_cases hx : cs x = .nil
          · have hnv : ¬ (ref (cs x)).isValid = true := by rw [isValid_ref]; exact not_not.mpr hx
            rw [if_neg hnv, hx, Tree.listed_nil, Tree.trail_nil, append_nil, append_nil]
          · obtain ⟨child, -, hc, hmc⟩ :=
              Stored.expectNode (show Stored (.among n P) st (pre ++ [x]) (cs x) from hst x) hx
            rw [if_pos ((isValid_ref (cs x)).mpr hx), hc, bind_ok,
              ih x (hf.branch_child x) hmc (Stored.below (hst x)) hq (by simp; omega) (by omega), append_assoc]

theorem Trie.getProof_run {self : Trie δ} {t : Contents n} (h : Holding (.among n P) self t) (p : Path n) :
    self.getProof p.1 = .ok (t.proof Subtype.val kec p.nibbles) := by
  rw [Trie.getProof, h.root, Tree.proof]
  by_cases hn : t = .nil
  · subst hn; rfl
  · obtain ⟨node, hg, hm⟩ := h.rootNode hn
    rw [rootRef_of_ne hn, if_neg hn]
    simp only [hg, bind_ok, Rust.expect_some]
    rw [Node.getPath_run h.fit hm h.stored.below (.new p.2.le) p.size (nibbles_length_lt_depth p.1),
      ref_of_ne hn, NodeHash.fromEncodedRaw, Tree.listed]
    -- a root that is inlined is listed first; one that is hashed is listed by the walk
    by_cases hlen : (enc t).length ≥ 32
    · rw [if_pos hlen, if_neg (by rw [enc] at hlen; omega)]
      rfl
    · rw [if_neg hlen, if_pos (by rw [enc] at hlen; omega)]
      rfl

end

section

variable [Keccak256] {n : Nat} {δ : Type} [TrieDB δ]

theorem Ragged.every_length {t : Contents n} (h : Ragged pre t) :
    t.Every fun s => (s.item Subtype.val kec).encode.length < 2 ^ 64 := by
  induction t generalizing pre with
  | nil => trivial
  | leaf r v => exact h.enc_length_lt
  | ext s c ih => exact ⟨h.enc_length_lt, ih h.ext_child⟩
  | branch cs w ih => exact ⟨h.enc_length_lt, fun x => ih x (h.branch_child x)⟩

theorem Holding.verifyProof {P : ByteString → Prop} {self : Trie δ} {t : Contents n} (h : Holding (.among n P) self t)
    (p : Path n) :
    EthereumRust.verifyProof kec (kec (enc t)) p.nibbles (t.proof Subtype.val kec p.nibbles) =
      some ((t.lookup p.nibbles).map Subtype.val) :=
  Tree.verifyProof_proof length_kec (fun v => v.2.1) h.fit.canonical h.fit.ragged.every_length p.nibbles

/-- After any run of insertions, with commits among them, the list that `get_proof` returns convinces
a verifier that has the root hash of what `get` returns. -/
theorem getProof_verifies [LawfulTrieDB δ] (db : δ) (hdb : ∀ key, TrieDB.get db key = .ok none)
    (ops : List (Call n)) (hins : ∀ p, .edit (.remove p) ∉ ops)
    (hkec : Set.InjOn kec {e | e ∈ callEncodings db ops}) :
    ∃ root, (Trie.hash (Trie.ofCalls db ops)).1 = .ok root ∧
      (∀ p : Path n, ∃ proof result, (Trie.ofCalls db ops).getProof p.1 = .ok proof ∧
        (Trie.ofCalls db ops).get p.1 = .ok result ∧
        verifyProof kec root.1 p.nibbles proof = some result) ∧
      ((∀ p, (PathMap.ofCalls ops).lookup p = none) →
        ∀ p : Path n, (Trie.ofCalls db ops).getProof p.1 = .ok []) := by
  obtain ⟨self, t, hrun, hcf, hinv⟩ := ofCalls_run hdb hkec
    (fun a p ha => absurd (ha.subset (by simp)) (hins p)) List.prefix_rfl
  have hself : Trie.ofCalls db ops = self := by rw [Trie.ofCalls, hrun]
  obtain ⟨self', hhash, -⟩ := Trie.hash_run hinv.holding hinv.closed hcf
  rw [hself]
  refine ⟨digest (enc t), by rw [hhash], fun p => ?_, fun hempty p => ?_⟩
  · exact ⟨_, _, Trie.getProof_run hinv.holding p, Trie.get_path hinv.holding p,
      hinv.holding.verifyProof p⟩
  · have hn : t = .nil := by
      by_contra hn
      obtain ⟨k, v, hk⟩ := hinv.holding.fit.canonical.exists_key hn
      obtain ⟨q, rfl⟩ := Path.exists_nibbles (by simpa using hinv.holding.fit.keys k v hk)
      rw [hinv.denotes q, hempty q] at hk
      cases hk
    rw [Trie.getProof_run hinv.holding p, Tree.proof, if_pos hn]

end

@[reducible] def proofKeccak : Keccak256 := Keccak256.ofTable [
  (beBytes 37 0xe4822011a00707070707070707070707070707070707070707070707070707070707070707,
    0x1dfe2ced8f8e15cfab80e19e533cf259d54eb151840efdaef1d4428136c33680),
  (beBytes 35 0xe231a00707070707070707070707070707070707070707070707070707070707070707,
    0xf63b766d91502b252b5d05ad1448752af01ce30dd76012908a436a1ebaa8fa6b),
  (beBytes 3 0xc23108, 0x7009b370fdafddbb4ed272099ef9d7f43a95073670cdb11450000c491f9f9598),
  (beBytes 52 0xf380a0f63b766d91502b252b5d05ad1448752af01ce30dd76012908a436a1ebaa8fa6bc231088080808080808080808080808080,
    0x44e1f5b81036082a2bbd3923b5a6bbfdbe06d880f8a99b51f52df6b4f25cf3ea)]

def proofCalls : List (Call 1) :=
  [.edit (.insert (bytePath 0x11) ⟨List.replicate 32 7, by simp⟩),
    .edit (.insert (bytePath 0x21) (byteValue 8)), .hash]

theorem getProof_verifies_sample :
    letI := proofKeccak
    ∃ root, (Trie.hash (Trie.ofCalls (InMemoryTrieDB.mk ∅) proofCalls)).1 = .ok root ∧
      (∃ proof, (Trie.ofCalls (InMemoryTrieDB.mk ∅) proofCalls).getProof [0x11] = .ok proof ∧
        verifyProof kec root.1 (nibbles [0x11]) proof = some (some (List.replicate 32 7))) ∧
      ∃ proof, (Trie.ofCalls (InMemoryTrieDB.mk ∅) proofCalls).getProof [0x12] = .ok proof ∧
        verifyProof kec root.1 (nibbles [0x12]) proof = some none := by
  let := proofKeccak
  have hinj : ∀ x ∈ callEncodings (InMemoryTrieDB.mk ∅) proofCalls,
      ∀ y ∈ callEncodings (InMemoryTrieDB.mk ∅) proofCalls, kec x = kec y → x = y := by
    decide +kernel
  have hget : (Trie.ofCalls (InMemoryTrieDB.mk ∅) proofCalls).get [0x11] =
        .ok (some (List.replicate 32 7)) ∧
      (Trie.ofCalls (InMemoryTrieDB.mk ∅) proofCalls).get [0x12] = .ok none := by
    decide +kernel
  obtain ⟨root, hroot, hproof, -⟩ := getProof_verifies (InMemoryTrieDB.mk ∅) (fun _ => rfl) proofCalls
    (by simp [proofCalls]) (fun x hx y hy => hinj x hx y hy)
  obtain ⟨proof, result, hp, hr, hv⟩ := hproof ⟨[0x11], rfl⟩
  obtain ⟨proof', result', hp', hr', hv'⟩ := hproof ⟨[0x12], rfl⟩
  obtain rfl := Except.ok.inj (hr.symm.trans hget.1)
  obtain rfl := Except.ok.inj (hr'.symm.trans hget.2)
  exact ⟨root, hroot, ⟨proof, hp, hv⟩, proof', hp', hv'⟩

end EthereumRust.Mpt
