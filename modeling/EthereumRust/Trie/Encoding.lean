import EthereumRust.Lib.MerklePatricia
import EthereumRust.Trie.NibbleView
import EthereumRust.Trie.Node

/-! # The hashed encoding is the recursive length prefix of a structure -/

namespace EthereumRust.Mpt
open Nibble Rlp List

/-! ## Lengths -/

theorem computeByteUsage_eq (h : l ≠ 0) : computeByteUsage l = (beMin l).length := by
  apply eq_of_forall_ge_iff
  intro w
  rw [length_beMin_le, computeByteUsage]
  simp only [h, if_false]
  have hlog : l.log2 < 8 * w ↔ l < 2 ^ (8 * w) := Nat.log2_lt h
  rw [show (256 : Nat) ^ w = 2 ^ (8 * w) by rw [pow_mul]; norm_num]
  omega

theorem writeLen_eq {base : Nat} {short long : UInt8} (hs : short = UInt8.ofNat base)
    (hl : long = UInt8.ofNat (base + 55)) {v : Nat} (h : v < 2 ^ 64) :
    NodeEncoder.writeLen short long v = rlpHeader base v := by
  unfold NodeEncoder.writeLen rlpHeader
  split
  · rw [hs, UInt8.ofNat_add]
  · have h8 : (beMin v).length ≤ 8 := length_beMin_le.mpr (by simpa using h)
    have hb : beBytes (beMin v).length v = beMin v := by
      conv_lhs => rw [← beNat_beMin v, beNat_beMin v]
      have := beBytes_beNat (beMin v)
      rwa [beNat_beMin] at this
    simp only [computeByteUsage_eq (l := v) (by omega), hl]
    rw [drop_beBytes v h8, hb, UInt8.ofNat_add (base + 55)]

theorem writeBytes_eq {b : ByteString} (h : b.length < 2 ^ 64) :
    NodeEncoder.writeBytes b = rlpBytes b := by
  have hlen : ∀ v : Nat, v < 2 ^ 64 → NodeEncoder.writeLen 0x80 0xB7 v = rlpHeader 0x80 v :=
    fun v hv => writeLen_eq rfl rfl hv
  match b with
  | [] => rfl
  | [x] =>
    simp only [NodeEncoder.writeBytes, rlpBytes, hlen 1 (by norm_num)]
  | x :: y :: b =>
    simp only [NodeEncoder.writeBytes, rlpBytes]
    rw [hlen _ h]

theorem length_rlpHeader :
    (rlpHeader base v).length = if v < 56 then 1 else computeByteUsage v + 1 := by
  unfold rlpHeader
  split
  · simp
  · rw [computeByteUsage_eq (by omega)]; simp

theorem bytesLen_eq (b : ByteString) :
    NodeEncoder.bytesLen b.length (b.headD 0) = (rlpBytes b).length := by
  by_cases h1 : b.length = 1
  · obtain ⟨x, rfl⟩ := length_eq_one_iff.mp h1
    by_cases hx : x < 0x80
    · rw [rlpBytes_single hx]
      have hx' : x < 128 := hx
      simp [NodeEncoder.bytesLen, hx']
    · rw [rlpBytes_of_ge hx]
      have hx' : ¬ x < 128 := hx
      simp [NodeEncoder.bytesLen, hx', length_rlpHeader]
  · rw [rlpBytes_of_length h1, length_append, length_rlpHeader]
    simp only [NodeEncoder.bytesLen, h1, false_and, if_false]
    split <;> omega

/-! ## Paths -/

/-- The flag byte of a path is below `0x80`, so alone it stands for itself. -/
theorem hexPrefix_head (p : List Nibble) (t : Bool) :
    ∃ x tl, hexPrefix p t = x :: tl ∧ x < 0x80 := by
  have hlow : ∀ (f : Bool) (x : Nibble), join (hexFlag f + 1) x < 0x80 := by decide +kernel
  have heven : ∀ f : Bool, join (hexFlag f) 0 < 0x80 := by decide
  unfold hexPrefix
  split
  · exact ⟨_, _, rfl, heven t⟩
  · exact ⟨_, _, rfl, hlow t _⟩

theorem pathLen_eq (p : List Nibble) (t : Bool) :
    NodeEncoder.pathLen p.length = (rlpBytes (hexPrefix p t)).length := by
  obtain ⟨x, tl, hp, hx⟩ := hexPrefix_head p t
  have hlen := length_hexPrefix p t
  rw [NodeEncoder.pathLen, ← hlen, ← bytesLen_eq, hp]
  cases tl with
  | nil =>
    have hx' : x < 128 := hx
    simp [NodeEncoder.bytesLen, hx']
  | cons y tl => simp [NodeEncoder.bytesLen]

theorem intoFlag_even (kind : PathKind) (t : Bool) (h : t = match kind with | .leaf => true | .extension => false) :
    kind.intoFlag = join (hexFlag t) 0 := by
  subst h; cases kind <;> decide

theorem intoFlag_odd (kind : PathKind) (t : Bool) (h : t = match kind with | .leaf => true | .extension => false)
    (x : Nibble) : (kind.intoFlag ||| 0x10) ||| x.toByte = join (hexFlag t + 1) x := by
  subst h; revert x; cases kind <;> decide +kernel

theorem writePath_eq {ε : Type} (p : List Nibble) (kind : PathKind) (t : Bool)
    (h : t = match kind with | .leaf => true | .extension => false) (hp : p.length < 2 ^ 64) :
    (NodeEncoder.writePath p.length p kind : Outcome ε ByteString) =
      .ok (rlpBytes (hexPrefix p t)) := by
  have hlen := length_hexPrefix p t
  have hhead := hexPrefix_head p t
  have hhdr : ∀ v : Nat, v < 2 ^ 64 → NodeEncoder.writeLen 0x80 0xB7 v = rlpHeader 0x80 v :=
    fun v hv => writeLen_eq rfl rfl hv
  -- a path of at most one half-byte takes one byte and no header
  have hbytes : (if p.length > 1 then NodeEncoder.writeLen 0x80 0xB7 (p.length / 2 + 1) else []) ++
      hexPrefix p t = rlpBytes (hexPrefix p t) := by
    split
    · rw [hhdr _ (by omega), rlpBytes_of_length (by omega), hlen]
    · obtain ⟨x, tl, hx, hlt⟩ := hhead
      have htl : tl = [] := by
        rw [hx, length_cons] at hlen
        exact length_eq_zero_iff.mp (by omega)
      rw [hx, htl, rlpBytes_single hlt, nil_append]
  rw [← hbytes]
  unfold NodeEncoder.writePath hexPrefix
  by_cases he : p.length % 2 = 0
  · simp [he, intoFlag_even kind t h]
  · have ho : p.length % 2 = 1 := by omega
    cases p with
    | nil => simp at ho
    | cons x p =>
      simp only [ho, intoFlag_odd kind t h x]
      rfl

/-! ## Nodes -/

theorem Item.encode_pair (a b : Item) : (Item.list [a, b]).encode = rlpList (a.encode ++ b.encode) := by
  simp [Item.encode]

theorem writeListHeader_append {p : ByteString} (h : p.length < 2 ^ 64) :
    NodeEncoder.writeListHeader p.length ++ p = rlpList p := by
  have : NodeEncoder.writeLen 0xC0 0xF7 p.length = rlpHeader 0xC0 p.length := writeLen_eq rfl rfl h
  rw [NodeEncoder.writeListHeader, this, rlpList]

theorem length_rlpBytes_hexPrefix_le {p : List Nibble} (h : p.length < 2 ^ 64) :
    (rlpBytes (hexPrefix p t)).length ≤ p.length / 2 + 10 := by
  have h1 := length_rlpBytes_le (b := hexPrefix p t) (by rw [length_hexPrefix]; omega)
  rw [length_hexPrefix] at h1
  omega

theorem LeafNode.encodeRaw_eq (self : LeafNode) (offset : Nat) (hoff : offset ≤ 2 * self.path.length)
    (hlen : self.path.length + self.value.length < 2 ^ 63) :
    self.encodeRaw offset = .ok (Item.list [.bytes (hexPrefix ((nibbles self.path).drop offset) true),
      .bytes self.value]).encode := by
  set p := (nibbles self.path).drop offset with hp
  have hrest : ((NibbleSlice.new self.path).offsetAdd offset).rest = p := by
    simp [NibbleSlice.rest, NibbleSlice.offsetAdd, NibbleSlice.new, hp]
  have hplen : p.length = 2 * self.path.length - offset := by simp [hp]
  have hl : (((NibbleSlice.new self.path).offsetAdd offset).len : Outcome TrieError Nat) =
      .ok p.length := by
    have ho : ((NibbleSlice.new self.path).offsetAdd offset).offset = offset := by
      simp [NibbleSlice.offsetAdd, NibbleSlice.new]
    have hd : ((NibbleSlice.new self.path).offsetAdd offset).data = self.path := rfl
    rw [NibbleSlice.len, ho, hd, Rust.sub_ok hoff, hplen]
  have h1 := length_rlpBytes_hexPrefix_le (p := p) (t := true) (by omega)
  have h2 := length_rlpBytes_le (b := self.value) (by omega)
  rw [LeafNode.encodeRaw]
  simp only [hl, Outcome.bind_ok, NodeEncoder.writePathSlice, hrest,
    writePath_eq p .leaf true rfl (by omega), pathLen_eq p true, bytesLen_eq,
    writeBytes_eq (b := self.value) (by omega)]
  rw [← length_append, append_assoc,
    writeListHeader_append (by rw [length_append]; omega), Item.encode_pair]
  rfl

def NodeHash.written : NodeHash → ByteString
  | .hashed h => rlpBytes h.1
  | .inline [] => rlpBytes []
  | .inline (b :: bs) => b :: bs

theorem NodeHash.length_written_le {h : NodeHash} (hinline : ∀ x, h = .inline x → x.length < 32) :
    h.written.length ≤ 41 := by
  cases h with
  | hashed x =>
    have := length_rlpBytes_le (b := x.1) (by rw [x.2]; norm_num)
    rw [x.2] at this
    exact this
  | inline x =>
    have := hinline x rfl
    cases x with
    | nil => simp [NodeHash.written, rlpBytes, rlpHeader]
    | cons b bs => simp only [NodeHash.written]; omega

/-- An extension writes the reference of its child as it is, or the string of its hash. -/
def NodeHash.embedded : NodeHash → ByteString
  | .hashed h => rlpBytes h.1
  | .inline x => x

theorem ExtensionNode.encodeRaw_embedded {self : ExtensionNode} {s : List Nibble} (hs : self.pfx.Holds s)
    (hlen : s.length < 2 ^ 64) (hchild : self.child.embedded.length < 2 ^ 63 - 10) :
    self.encodeRaw = .ok (rlpList (rlpBytes (hexPrefix s false) ++ self.child.embedded)) := by
  have h1 := length_rlpBytes_hexPrefix_le (p := s) (t := false) hlen
  have hheader := writeListHeader_append (p := rlpBytes (hexPrefix s false) ++ self.child.embedded)
    (by rw [length_append]; omega)
  rw [← hheader, length_append, ← append_assoc, ExtensionNode.encodeRaw]
  simp only [hs.len, Outcome.bind_ok, NodeEncoder.writePathVec, hs.iter,
    writePath_eq s .extension false rfl hlen, pathLen_eq s false]
  cases self.child with
  | inline x => rfl
  | hashed x =>
    have hbytes : NodeEncoder.bytesLen 32 (x.1.headD 0) = (rlpBytes x.1).length := by rw [← bytesLen_eq, x.2]
    simp only [hbytes, writeBytes_eq (b := x.1) (by rw [x.2]; norm_num)]
    rfl

theorem NodeHash.written_eq_embedded {h : NodeHash} (hvalid : h.isValid) : h.written = h.embedded := by
  cases h with
  | hashed x => rfl
  | inline x =>
    cases x with
    | nil => simp [NodeHash.isValid] at hvalid
    | cons b bs => rfl

theorem ExtensionNode.encodeRaw_eq {pfx : NibbleVec} {child : NodeHash} {s : List Nibble}
    (hs : pfx.Holds s) (hlen : s.length < 2 ^ 64) (hvalid : child.isValid)
    (hinline : ∀ x, child = .inline x → x.length < 32) :
    (ExtensionNode.mk pfx child).encodeRaw =
      .ok (rlpList (rlpBytes (hexPrefix s false) ++ child.written)) := by
  have h2 := NodeHash.length_written_le hinline
  rw [NodeHash.written_eq_embedded hvalid] at h2 ⊢
  exact ExtensionNode.encodeRaw_embedded hs hlen (by simp only; omega)

theorem BranchNode.writeChild_hashChoice (hinline : ∀ x, h = .inline x → x.length < 32) :
    writeChild (hashChoice h) = h.written ∧ childLen (hashChoice h) = h.written.length := by
  cases h with
  | hashed x =>
    simp only [hashChoice, NodeHash.isValid, if_true, writeChild, NodeHash.written]
    rw [writeBytes_eq (by rw [x.2]; norm_num), ← bytesLen_eq, x.2]
    exact ⟨rfl, rfl⟩
  | inline x =>
    cases x with
    | nil => exact ⟨rfl, rfl⟩
    | cons b bs =>
      have hlt := hinline _ rfl
      simp only [hashChoice, NodeHash.isValid]
      rw [length_cons] at hlt ⊢
      constructor
      · unfold writeChild
        split
        · rename_i heq; simp at heq
        · rename_i heq; simp at heq; omega
        · rename_i heq; exact (Prod.mk.inj heq).1.symm
      · unfold childLen
        split
        · rename_i heq; simp at heq
        · rename_i heq; simp at heq; omega
        · rename_i heq; exact (Prod.mk.inj heq).2.symm

theorem BranchNode.children_eq {l : List NodeHash} (hl : ∀ h ∈ l, ∀ x, h = .inline x → x.length < 32) :
    (l.map hashChoice).flatMap writeChild = l.flatMap NodeHash.written ∧
      ((l.map hashChoice).map childLen).sum = (l.flatMap NodeHash.written).length ∧
      (l.flatMap NodeHash.written).length ≤ 41 * l.length := by
  induction l with
  | nil => exact ⟨rfl, rfl, le_rfl⟩
  | cons h l ih =>
    obtain ⟨i1, i2, i3⟩ := ih fun k hk => hl k (mem_cons_of_mem _ hk)
    obtain ⟨c1, c2⟩ := writeChild_hashChoice (hl h mem_cons_self)
    have hle := NodeHash.length_written_le (hl h mem_cons_self)
    simp only [map_cons, flatMap_cons, sum_cons, c1, c2, i1, i2,
      length_append, length_cons]
    exact ⟨trivial, trivial, by omega⟩

theorem short_ofFn {choices : Nibble → NodeHash} (h : ∀ i x, choices i = .inline x → x.length < 32) :
    ∀ k ∈ List.ofFn choices, ∀ x, k = .inline x → x.length < 32 := by
  intro k hk
  obtain ⟨i, rfl⟩ := mem_ofFn.mp hk
  exact h i

theorem BranchNode.encodeRaw_eq {self : BranchNode} (hvalue : self.value.length < 2 ^ 63)
    (hinline : ∀ i x, self.choices i = .inline x → x.length < 32) :
    self.encodeRaw =
      rlpList ((List.ofFn self.choices).flatMap NodeHash.written ++ rlpBytes self.value) := by
  obtain ⟨h1, h2, h3⟩ := children_eq (short_ofFn hinline)
  rw [length_ofFn] at h3
  have hlen : (if !self.value.isEmpty then NodeEncoder.bytesLen self.value.length (self.value.headD 0)
      else 1) = (rlpBytes self.value).length := by
    cases hv : self.value with
    | nil => rfl
    | cons b bs => exact bytesLen_eq _
  have hbytes : (if !self.value.isEmpty then NodeEncoder.writeBytes self.value
      else NodeEncoder.writeBytes []) = rlpBytes self.value := by
    have hw := writeBytes_eq (b := self.value) (by omega)
    cases hv : self.value with
    | nil => rfl
    | cons b bs => rw [hv] at hw; exact hw
  have hle := length_rlpBytes_le (b := self.value) (by omega)
  simp only [BranchNode.encodeRaw, h1, h2, hlen, hbytes]
  rw [← length_append, append_assoc,
    writeListHeader_append (by rw [length_append]; omega)]

end EthereumRust.Mpt
