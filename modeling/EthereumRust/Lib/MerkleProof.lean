import EthereumRust.Lib.MerklePatricia

/-! # Merkle proofs for Patricia trees

A proof lists the encoded nodes that the key's walk passes; a node shorter than a hash
stands inside its parent and is not listed. The verifier checks each listed node against
the reference that led to it and accepts when the walk ends with the list. -/

namespace EthereumRust
open List

/-- Where a node leads a key: to the end of the walk, or on to the node with a given hash. -/
inductive Lead where
  | ends (value : Option ByteString)
  | next (hash : ByteString) (key : List Nibble)

namespace Lead

/-- The node a reference stands for: none, one with a hash, or one in place. -/
def refer (follow : List Item → List Nibble → Option Lead) (child : Item) (key : List Nibble) :
    Option Lead :=
  match child with
  | .bytes [] => some (.ends none)
  | .bytes hash => if hash.length = 32 then some (.next hash key) else none
  | .list node => if (Item.list node).encode.length < 32 then follow node key else none

/-- A leaf or an extension. -/
def ofPair (follow : List Item → List Nibble → Option Lead) (path : ByteString) (child : Item)
    (key : List Nibble) : Option Lead :=
  match readHexPrefix path with
  | some (p, true) =>
    match child with
    | .bytes value => some (.ends (if key = p then some value else none))
    | .list _ => none
  | some ([], false) => none
  | some (p, false) =>
    if p <+: key then refer follow child (key.drop p.length) else some (.ends none)
  | none => none

def ofBranch (follow : List Item → List Nibble → Option Lead) (node : List Item)
    (key : List Nibble) : Option Lead :=
  match key with
  | [] =>
    match (node[16]? : Option Item) with
    | some (.bytes value) => some (.ends (if value = [] then none else some value))
    | _ => none
  | x :: key => node[x.val]?.bind fun child => refer follow child key

end Lead

/-- A node in place takes at least one half-byte of the key, which bounds the recursion. -/
def follow : Nat → List Item → List Nibble → Option Lead
  | 0, _, _ => none
  | fuel + 1, node, key =>
    match node with
    | [.bytes path, child] => Lead.ofPair (follow fuel) path child key
    | node => if node.length = 17 then Lead.ofBranch (follow fuel) node key else none

/-- Follow a key from the node with the given hash, taking hashed nodes from the list. -/
def verifyFrom (kec : ByteString → ByteString) :
    ByteString → List Nibble → List ByteString → Option (Option ByteString)
  | _, _, [] => none
  | hash, key, e :: proof =>
    if kec e = hash then
      match Item.decode e with
      | some (.list node) =>
        match follow (key.length + 1) node key with
        | some (.ends value) => if proof = [] then some value else none
        | some (.next hash key) => verifyFrom kec hash key proof
        | none => none
      | _ => none
    else none

/-- `none` rejects the proof; otherwise it shows the key's value, or that the key has none. -/
def verifyProof (kec : ByteString → ByteString) (root : ByteString) (key : List Nibble)
    (proof : List ByteString) : Option (Option ByteString) :=
  if proof = [] then
    if root = kec (Item.bytes []).encode then some none else none
  else verifyFrom kec root key proof

def conclude (kec : ByteString → ByteString) (lead : Option Lead) (proof : List ByteString) :
    Option (Option ByteString) :=
  match lead with
  | some (.ends value) => if proof = [] then some value else none
  | some (.next hash key) => verifyFrom kec hash key proof
  | none => none

theorem verifyFrom_cons {kec : ByteString → ByteString}
    (h : Item.decode e = some (.list node)) (key : List Nibble) (proof : List ByteString) :
    verifyFrom kec (kec e) key (e :: proof) =
      conclude kec (follow (key.length + 1) node key) proof := by
  rw [verifyFrom, if_pos rfl, h]
  rfl

namespace Tree

variable {ν : Type} (val : ν → ByteString) (kec : ByteString → ByteString) {t : Tree Nibble ν}

def fields : Tree Nibble ν → List Item
  | nil => []
  | leaf r v => [.bytes (hexPrefix r true), .bytes (val v)]
  | ext s c => [.bytes (hexPrefix s false), (c.item val kec).capped kec]
  | branch cs v =>
    List.ofFn (fun x => ((cs x).item val kec).capped kec) ++ [.bytes ((v.map val).getD [])]

theorem item_eq_list (h : t ≠ nil) : t.item val kec = .list (t.fields val kec) := by
  cases t with
  | nil => exact absurd rfl h
  | _ => rfl

/-- A node that is not in place in its parent is listed. -/
def listed (t : Tree Nibble ν) : List ByteString :=
  if (t.item val kec).encode.length < 32 then [] else [(t.item val kec).encode]

def trail : Tree Nibble ν → List Nibble → List ByteString
  | nil, _ => []
  | leaf _ _, _ => []
  | ext s c, p =>
    if s <+: p then c.listed val kec ++ c.trail (p.drop s.length) else []
  | branch _ _, [] => []
  | branch cs _, x :: p => (cs x).listed val kec ++ (cs x).trail p

def proof (t : Tree Nibble ν) (p : List Nibble) : List ByteString :=
  if t = nil then [] else (t.item val kec).encode :: t.trail val kec p

variable {val kec}

@[simp] theorem listed_nil : (nil : Tree Nibble ν).listed val kec = [] := rfl

theorem trail_nil (p : List Nibble) : (nil : Tree Nibble ν).trail val kec p = [] := by cases p <;> rfl

theorem trail_leaf (r : List Nibble) (v : ν) (p : List Nibble) :
    (leaf r v).trail val kec p = [] := by cases p <;> rfl

theorem trail_ext (s : List Nibble) (c : Tree Nibble ν) (p : List Nibble) :
    (ext s c).trail val kec p =
      if s <+: p then c.listed val kec ++ c.trail val kec (p.drop s.length) else [] := by
  cases p <;> rfl

/-- A reference to a tree is followed as its root node is. -/
theorem conclude_refer (hkec : ∀ b, (kec b).length = 32) {c : Tree Nibble ν}
    (hlen : c ≠ nil → (c.item val kec).encode.length < 2 ^ 64) (hnil : c = nil → r = some none)
    (h : c ≠ nil → ∀ fuel, key.length < fuel →
      conclude kec (follow fuel (c.fields val kec) key) (c.trail val kec key) = r)
    (hfuel : key.length < fuel) :
    conclude kec (Lead.refer (follow fuel) ((c.item val kec).capped kec) key)
      (c.listed val kec ++ c.trail val kec key) = r := by
  by_cases hn : c = nil
  · subst hn
    rw [hnil rfl, listed_nil, trail_nil]
    rfl
  · have hitem := item_eq_list val kec hn
    rw [Item.capped, listed]
    split
    · rename_i hshort
      rw [hitem] at hshort ⊢
      rw [Lead.refer, if_pos hshort]
      exact h hn fuel hfuel
    · -- the node is listed: the verifier finds it at the head of the list
      obtain ⟨b, bs, hb⟩ := exists_cons_of_length_pos
        (l := kec (c.item val kec).encode) (by rw [hkec]; norm_num)
      have hrefer : Lead.refer (follow fuel) (.bytes (kec (c.item val kec).encode)) key =
          some (.next (kec (c.item val kec).encode) key) := by
        have h32 := hkec (c.item val kec).encode
        rw [hb] at h32 ⊢
        rw [Lead.refer, if_pos h32]
        exact nofun
      have hdec := Item.decode_encode (hlen hn)
      rw [hrefer, conclude, cons_append, nil_append, verifyFrom_cons (hdec.trans (by rw [hitem]))]
      exact h hn _ (Nat.lt_succ_self _)

theorem follow_of_length {node : List Item} (h : node.length = 17) (key : List Nibble) :
    follow (fuel + 1) node key = Lead.ofBranch (follow fuel) node key := by
  match node with
  | [] | [_] | [_, _] => simp at h
  | a :: b :: c :: tl => rw [follow, if_pos h]; exact nofun

theorem getElem?_fields_branch (cs : Nibble → Tree Nibble ν) (v : Option ν) (x : Nibble) :
    ((branch cs v).fields val kec)[x.val]? = some (((cs x).item val kec).capped kec) := by
  rw [fields, List.getElem?_append_left (by rw [length_ofFn]; exact x.isLt),
    List.getElem?_ofFn, dif_pos x.isLt]

/-- Following a key from the root node of a tree, with the nodes listed below it, ends with what the
tree holds under the key. -/
theorem conclude_follow (hkec : ∀ b, (kec b).length = 32) (hval : ∀ v, val v ≠ [])
    (hc : t.Canonical) (hn : t ≠ nil)
    (hlen : t.Every fun s => (s.item val kec).encode.length < 2 ^ 64)
    (hfuel : key.length < fuel) :
    conclude kec (follow fuel (t.fields val kec) key) (t.trail val kec key) =
      some ((t.lookup key).map val) := by
  induction t generalizing key fuel with
  | nil => exact absurd rfl hn
  | leaf r v =>
    cases fuel with
    | zero => omega
    | succ fuel =>
      rw [fields, follow, Lead.ofPair, readHexPrefix_hexPrefix, trail_leaf, lookup_leaf]
      by_cases h : key = r <;> simp [conclude, h]
  | ext s c ih =>
    obtain ⟨hs, hb, hcc⟩ := hc
    cases fuel with
    | zero => omega
    | succ fuel =>
      obtain ⟨x, s', rfl⟩ := exists_cons_of_ne_nil hs
      rw [fields, follow, Lead.ofPair, readHexPrefix_hexPrefix, trail_ext, lookup_ext]
      by_cases h : x :: s' <+: key
      · have hle := h.length_le
        simp only [h, if_true]
        rw [length_cons] at hle ⊢
        refine conclude_refer hkec (fun hn => hlen.2.self hn) (fun h0 => ?_)
          (fun hn fuel hfuel => ih hcc hn hlen.2 hfuel) (by rw [length_drop]; omega)
        subst h0
        exact hb.elim
      · simp [h, conclude]
  | branch cs w ih =>
    have h17 : ((branch cs w).fields val kec).length = 17 := by simp [fields]
    cases fuel with
    | zero => omega
    | succ fuel =>
      rw [follow_of_length h17]
      cases key with
      | nil =>
        have h16 : ((branch cs w).fields val kec)[16]? = some (.bytes ((w.map val).getD [])) := by
          rw [fields, List.getElem?_append_right (by simp)]
          simp
        simp only [Lead.ofBranch, h16, lookup_branch_nil, trail, conclude, if_true]
        cases w with
        | none => rfl
        | some v => simp [hval v]
      | cons x key =>
        rw [length_cons] at hfuel
        simp only [Lead.ofBranch, getElem?_fields_branch, Option.bind_some, lookup_branch_cons, trail]
        exact conclude_refer hkec (fun hn => (hlen.2 x).self hn) (fun h0 => by rw [h0]; simp)
          (fun hn fuel hfuel => ih x (hc.2 x) hn (hlen.2 x) hfuel) (by omega)

theorem verifyProof_proof (hkec : ∀ b, (kec b).length = 32) (hval : ∀ v, val v ≠ [])
    (hc : t.Canonical)
    (hlen : t.Every fun s => (s.item val kec).encode.length < 2 ^ 64) (key : List Nibble) :
    verifyProof kec (kec (t.item val kec).encode) key (t.proof val kec key) =
      some ((t.lookup key).map val) := by
  rw [proof]
  by_cases hn : t = nil
  · subst hn
    rw [if_pos rfl, verifyProof, if_pos rfl, item, if_pos rfl]
    simp
  · have hdec := Item.decode_encode (hlen.self hn)
    rw [if_neg hn, verifyProof, if_neg (by simp),
      verifyFrom_cons (hdec.trans (by rw [item_eq_list val kec hn]))]
    exact conclude_follow hkec hval hc hn hlen (Nat.lt_succ_self _)

end Tree
end EthereumRust
