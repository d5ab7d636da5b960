import EthereumRust.Trie.CanonicalRoot

/-! # A trie as a finite map

A removal that leaves a branch with one child moves that child up. Two leaves with the
same rest path and the same value share an entry of the state, which holds the path of
the one written last: moved up, the leaf can stand for another path than its own.
`SafeToRemove` says when that does not happen. -/

namespace EthereumRust.Mpt
open Nibble Rlp List

/-! ## The leaf that answers -/

section

variable {δ : Type} [TrieDB δ]

/-- The walk of `Node::get`, up to the leaf that answers. -/
def Node.leafAt : Nat → TrieState δ → Node → NibbleSlice → Outcome TrieError (Option LeafNode)
  | 0, _, _, _ => .error .diverged
  | _ + 1, _, .leaf l, path => do
    if ← path.cmpRest l.path then pure (some l) else pure none
  | fuel + 1, state, .extension e, path => do
    let (skipped, path) ← path.skipPrefix e.pfx
    if skipped then
      let childNode ← state.expectNode e.child
      Node.leafAt fuel state childNode path
    else pure none
  | fuel + 1, state, .branch b, path =>
    match path.next with
    | some (choice, path) =>
      if (b.choices choice).isValid then do
        let childNode ← state.expectNode (b.choices choice)
        Node.leafAt fuel state childNode path
      else .ok none
    | none => .ok none

def Trie.leafAt (self : Trie δ) (path : ByteString) : Outcome TrieError (Option LeafNode) :=
  match self.root with
  | some root => do
    let rootNode ← self.state.expectNode root
    Node.leafAt (depth path) self.state rootNode (NibbleSlice.new path)
  | none => .ok none

variable [Keccak256]

theorem Node.leafAt_run {t : Contents n} {pre p r} {w : Value n} {path node leaf}
    {st : TrieState δ} {fuel} (hf : Fit pre t)
    (hg : st.getNode (ref t) = .ok (some node)) (hm : Matches (.among n P) pre t node)
    (hst : StoredBelow (.among n P) st pre t) (hp : Along n path pre p) (hfuel : p.length < fuel)
    (hl : t.leafAt p = some (r, w)) (hleaf : st.getNode (ref (.leaf r w)) = .ok (some (.leaf leaf))) :
    Node.leafAt fuel st node path = .ok (some leaf) := by
  induction t generalizing pre p path node fuel with
  | nil => exact absurd rfl hm.ne_nil
  | leaf r' v =>
    rw [Tree.leafAt_leaf] at hl
    split at hl
    · rename_i hq
      cases hl
      rw [hg] at hleaf
      cases hleaf
      cases hm with
      | leaf hpath =>
        cases fuel with
        | zero => omega
        | succ fuel =>
          rw [Node.leafAt, hp.cmpRest hpath.1]
          simp [hq]
    · cases hl
  | ext s c ih =>
    obtain ⟨hne, hb, -⟩ := hf.canonical
    cases hm with
    | @ext _ _ pfx hpfx half =>
      by_cases h : s <+: p
      · obtain ⟨q, rfl⟩ := h
        rw [Tree.leafAt_ext_append] at hl
        obtain ⟨child, hg', hc, hmc⟩ := Stored.expectNode (show Stored (.among n P) st (pre ++ s) c from hst)
          (by rintro rfl; exact hb)
        have hspos := length_pos_iff.mpr hne
        rw [length_append] at hfuel
        cases fuel with
        | zero => omega
        | succ fuel =>
          rw [Node.leafAt, hp.skipPrefix hpfx half hne (.inl (by simp))]
          simp only [prefix_append, hc]
          exact ih hf.ext_child hg' hmc (Stored.below hst) (hp.step rfl) (by omega) hl
      · rw [Tree.leafAt_ext_none h] at hl
        cases hl
  | branch cs v ih =>
    obtain ⟨b, rfl, hchoices⟩ := hm.exists_branch
    cases p with
    | nil => cases hl
    | cons x q =>
      obtain ⟨hnext, hq⟩ := hp.next
      rw [length_cons] at hfuel
      rw [Tree.leafAt_branch_cons] at hl
      have hx : cs x ≠ .nil := by
        intro hx
        rw [hx] at hl
        cases q <;> cases hl
      obtain ⟨child, hg', hc, hmc⟩ :=
        Stored.expectNode (show Stored (.among n P) st (pre ++ [x]) (cs x) from hst x) hx
      cases fuel with
      | zero => omega
      | succ fuel =>
        rw [Node.leafAt]
        simp only [hnext, hchoices]
        rw [if_pos ((isValid_ref (cs x)).mpr hx), hc]
        exact ih x (hf.branch_child x) hg' hmc (Stored.below (hst x)) hq (by omega) hl

theorem Trie.leafAt_run {self : Trie δ} {t : Contents n} (h : Holding (.among n P) self t)
    {q : Path n} (hq : FoundAt self.state t q.nibbles stored) :
    ∃ v, self.leafAt q.1 = .ok (some ⟨stored, v⟩) := by
  obtain ⟨r, w, hl, hleaf⟩ := hq
  have hn : t ≠ .nil := by
    rintro rfl
    cases hk : q.nibbles <;> rw [hk] at hl <;> cases hl
  obtain ⟨node, hg, hm⟩ := h.rootNode hn
  refine ⟨w.1, ?_⟩
  rw [Trie.leafAt, h.root, rootRef_of_ne hn]
  simp only [TrieState.expectNode, hg]
  exact Node.leafAt_run h.fit hg hm h.stored.below (.new q.2.le) (nibbles_length_lt_depth q.1) hl hleaf

end

/-! ## Safe removals -/

section

variable {n : Nat} {δ : Type} [TrieDB δ] {self : Trie δ}

def Trie.Has (self : Trie δ) (p : Path n) : Prop := ∃ v, self.get p.1 = .ok (some v)

/-- Removing `p` moves the leaf of another path `q` up when `q` is closer to `p` than all others.
The leaf then stands just below where `q` parts from the paths that remain; from there on its
stored path has to be that of `q`. -/
def Trie.SafeToRemove (self : Trie δ) (p : Path n) : Prop :=
  self.Has p → ∀ (q : Path n) (leaf : LeafNode), q ≠ p → self.leafAt q.1 = .ok (some leaf) →
    (∀ r : Path n, self.Has r → r ≠ p → r ≠ q → lcp p.nibbles r.nibbles < lcp p.nibbles q.nibbles) →
    ∀ i, (∀ r : Path n, self.Has r → r ≠ p → r ≠ q → lcp q.nibbles r.nibbles < i) →
      (nibbles leaf.path)[i]? = q.nibbles[i]?

theorem Trie.safeToRemove_of_own
    (h : ∀ (q : Path n) (leaf : LeafNode), self.leafAt q.1 = .ok (some leaf) → leaf.path = q.1) (p : Path n) :
    self.SafeToRemove p := by
  intro _ q leaf _ hleaf _ i _
  rw [h q leaf hleaf]
  rfl

variable [Keccak256]

theorem Trie.has_iff (h : Holding (.among n P) self t) (p : Path n) :
    self.Has p ↔ t.lookup p.nibbles ≠ none := by
  rw [Trie.Has, Trie.get_path h]
  cases t.lookup p.nibbles <;> simp

/-- A safe removal moves a leaf only to where its stored path is right. -/
theorem Trie.SafeToRemove.movable {p : Path n}
    (hsafe : self.SafeToRemove p) (h : Holding (.among n P) self t) (hp : t.lookup p.nibbles ≠ none) :
    Movable self.state [] t p.nibbles := by
  have hpath : ∀ {k}, t.lookup k ≠ none → ∃ r : Path n, r.nibbles = k := by
    intro k hk
    obtain ⟨v, hv⟩ := Option.ne_none_iff_exists'.mp hk
    exact Path.exists_nibbles (by simpa using h.fit.keys k v hv)
  have hne : ∀ {r s : Path n}, r.nibbles ≠ s.nibbles → r ≠ s := fun hrs he => hrs (he ▸ rfl)
  intro k stored hkp hk hfound hclose i hi
  obtain ⟨q, rfl⟩ := hpath hk
  obtain ⟨v, hleaf⟩ := Trie.leafAt_run h hfound
  have hlt : ∀ {m : Path n → Nat} {b}, (∀ k, t.lookup k ≠ none → k ≠ p.nibbles → k ≠ q.nibbles →
      ∀ r : Path n, r.nibbles = k → m r < b) → ∀ r : Path n, self.Has r → r ≠ p → r ≠ q → m r < b :=
    fun hall r hr hrp hrq => hall r.nibbles ((Trie.has_iff h r).mp hr)
      (fun he => hrp (Path.nibbles_injective he)) (fun he => hrq (Path.nibbles_injective he)) r rfl
  rw [length_nil, Nat.zero_add]
  exact hsafe ((Trie.has_iff h p).mpr hp) q ⟨stored, v⟩ (hne hkp) hleaf
    (hlt fun k hk hkp hkq r hr => hr ▸ hclose k hk hkp hkq) i
    (hlt fun k hk hkp hkq r hr => hr ▸ hi k hk hkp hkq)

end

/-! ## Runs -/

section

variable {n : Nat}

/-- A call on a trie; `hash` commits it. -/
inductive Call (n : Nat) where
  | edit (e : Edit n)
  | hash

def PathMap.call (m : PathMap n) : Call n → PathMap n
  | .edit e => m.edit e
  | .hash => m

/-- The last value of each path, if it was not removed since. -/
def PathMap.ofCalls (ops : List (Call n)) : PathMap n := ops.foldl PathMap.call ∅

variable [Keccak256] {δ : Type} [TrieDB δ]

def Call.run : Call n → Exec (Trie δ) TrieError (Option ByteString)
  | .edit e => e.call
  | .hash => do
    let _ ← Trie.hash
    pure none

def Trie.ofCalls (db : δ) (ops : List (Call n)) : Trie δ := (Exec.forEach Call.run ops (Trie.new db)).2

def callEncodings (db : δ) (ops : List (Call n)) : List ByteString :=
  ops.inits.flatMap fun a => (Trie.ofCalls db a).state.encodings

/-- The trie holds the map, and its database all nodes below those it has. -/
structure MapInv (m : PathMap n) (trie : Trie δ) (t : Contents n) : Prop where
  holding : Holding (.any n) trie t
  denotes : Denotes t m
  closed : Closed n trie.state

variable [LawfulTrieDB δ]

/-- A call that is safe, if it is a removal, does to the trie what it does to the map. -/
theorem MapInv.step {m : PathMap n} {self : Trie δ} {t : Contents n} (h : MapInv m self t) (op : Call n)
    (hcf : CollisionFree self.state) (hsafe : ∀ p, op = .edit (.remove p) → self.SafeToRemove p) :
    ∃ reply self' t', Call.run op self = (.ok reply, self') ∧
      (CollisionFree self'.state → MapInv (m.call op) self' t') := by
  cases op with
  | hash =>
    obtain ⟨self', hrun, hh, hcl, -⟩ := Trie.hash_run h.holding h.closed hcf
    exact ⟨none, self', t, by rw [Call.run, Exec.run_bind_ok hrun]; rfl, fun _ => ⟨hh, h.denotes, hcl⟩⟩
  | edit e =>
    cases e with
    | insert p v =>
      obtain ⟨self', hrun, hw, hh⟩ := Trie.insert_path h.holding p v trivial
      refine ⟨none, self', _, ?_, fun hcf => ⟨hh hcf, h.denotes.insert p v, h.closed.of_writes hw⟩⟩
      rw [Call.run, Edit.call, Exec.run_bind_ok hrun]
      rfl
    | remove p =>
      obtain ⟨self', t', hrun, -, habs, hl, hw, hh⟩ := Trie.remove_path h.holding p
      refine ⟨_, self', t', hrun, fun hcf => ⟨hh hcf, h.denotes.erase p ?_, h.closed.of_writes hw⟩⟩
      by_cases hp : t.lookup p.nibbles = none
      · intro q
        rw [habs hp]
        split
        · rename_i hq; rw [hq, hp]
        · rfl
      · exact hl ((hsafe p rfl).movable h.holding hp)

/-- In every state of a run whose removals are safe the trie holds the map. -/
theorem ofCalls_run {db : δ} (hdb : ∀ key, TrieDB.get db key = .ok none) {ops : List (Call n)}
    (hkec : Set.InjOn kec {e | e ∈ callEncodings db ops})
    (hsafe : ∀ a p, a ++ [.edit (.remove p)] <+: ops → (Trie.ofCalls db a).SafeToRemove p)
    {a : List (Call n)} (ha : a <+: ops) :
    ∃ self t, Exec.forEach Call.run a (Trie.new db) = (.ok (), self) ∧ CollisionFree self.state ∧
      MapInv (PathMap.ofCalls a) self t := by
  have hcf : ∀ {a self}, a <+: ops → Exec.forEach Call.run a (Trie.new db) = (.ok (), self) →
      CollisionFree self.state := by
    intro a self ha hrun
    refine hkec.mono fun e he => mem_flatMap.mpr ⟨a, (mem_inits _ _).mpr ha, ?_⟩
    rw [Trie.ofCalls, hrun]
    exact he
  have hstep : ∀ as op self, as ++ [op] <+: ops →
      Exec.forEach Call.run as (Trie.new db) = (.ok (), self) →
      (∃ t, MapInv (PathMap.ofCalls as) self t) →
      ∃ reply self', Call.run op self = (.ok reply, self') ∧
        ∃ t, MapInv (PathMap.ofCalls (as ++ [op])) self' t := by
    rintro as op self has hrun ⟨t, hinv⟩
    have hself : Trie.ofCalls db as = self := by rw [Trie.ofCalls, hrun]
    obtain ⟨reply, self', t', hop, hinv'⟩ := hinv.step op
      (hcf ((prefix_append as [op]).trans has) hrun) (by rintro p rfl; exact hself ▸ hsafe as p has)
    refine ⟨reply, self', hop, t', ?_⟩
    rw [PathMap.ofCalls, foldl_append]
    exact hinv' (hcf has (Exec.forEach_snoc hrun hop))
  obtain ⟨self, hrun, t, hinv⟩ := Exec.forEach_invariant _
    ⟨.nil, .new db, .nil, .new hdb⟩ hstep a ha
  exact ⟨self, t, hrun, hcf ha hrun, hinv⟩

/-- A trie is a finite map in every state of a run whose removals are safe. -/
theorem finiteMap {db : δ} (hdb : ∀ key, TrieDB.get db key = .ok none) (ops : List (Call n))
    (hkec : Set.InjOn kec {e | e ∈ callEncodings db ops})
    (hsafe : ∀ a p, a ++ [.edit (.remove p)] <+: ops → (Trie.ofCalls db a).SafeToRemove p)
    (a : List (Call n)) (ha : a <+: ops) :
    (Exec.forEach Call.run a (Trie.new db)).1 = .ok () ∧
    (∀ p : Path n, (Trie.ofCalls db a).get p.1 = .ok (((PathMap.ofCalls a).lookup p).map Subtype.val)) ∧
    ∀ p : Path n, (Trie.remove p.1 (Trie.ofCalls db a)).1 = (Trie.ofCalls db a).get p.1 := by
  obtain ⟨self, t, hrun, -, hinv⟩ := ofCalls_run hdb hkec hsafe ha
  have hself : Trie.ofCalls db a = self := by rw [Trie.ofCalls, hrun]
  have hget := Trie.get_path hinv.holding
  rw [hself, hrun]
  refine ⟨rfl, fun p => ?_, fun p => ?_⟩
  · rw [hget, hinv.denotes p]
  · obtain ⟨self', t', hrem, -⟩ := Trie.remove_path hinv.holding p
    rw [hrem, hget]

def sampleCalls : List (Call 1) :=
  [.edit (.insert (bytePath 0x11) (byteValue 7)), .edit (.insert (bytePath 0x21) (byteValue 8)), .hash,
    .edit (.remove (bytePath 0x11))]

/-- The leaf found for a path of one byte, if any, is stored under it. -/
def ownLeaf (self : Trie InMemoryTrieDB) (b : UInt8) : Bool :=
  match self.leafAt [b] with
  | .ok (some leaf) => leaf.path == [b]
  | _ => true

omit [Keccak256] in
theorem safeToRemove_of_ownLeaf
    (h : ∀ i : Fin 256, ownLeaf self (UInt8.ofNat i) = true) (p : Path 1) : self.SafeToRemove p := by
  refine Trie.safeToRemove_of_own ?_ p
  rintro ⟨q, hq⟩ leaf hleaf
  obtain ⟨b, rfl⟩ := length_eq_one_iff.mp hq
  have hb := h ⟨b.toNat, b.toNat_lt⟩
  rw [UInt8.ofNat_toNat, ownLeaf, hleaf] at hb
  exact beq_iff_eq.mp hb

omit [Keccak256] in
theorem finiteMap_sample :
    letI := sampleKeccak
    (Trie.ofCalls (InMemoryTrieDB.mk ∅) sampleCalls).get [0x11] = .ok none ∧
      (Trie.ofCalls (InMemoryTrieDB.mk ∅) sampleCalls).get [0x21] = .ok (some [8]) := by
  let := sampleKeccak
  have hinj : ∀ x ∈ callEncodings (InMemoryTrieDB.mk ∅) sampleCalls,
      ∀ y ∈ callEncodings (InMemoryTrieDB.mk ∅) sampleCalls, kec x = kec y → x = y := by
    decide +kernel
  have hown : ∀ i : Fin 256, ownLeaf (Trie.ofCalls (InMemoryTrieDB.mk ∅) (sampleCalls.take 3))
      (UInt8.ofNat i) = true := by
    decide +kernel
  have hsafe : ∀ a p, a ++ [.edit (.remove p)] <+: sampleCalls →
      (Trie.ofCalls (InMemoryTrieDB.mk ∅) a).SafeToRemove p := by
    intro a p ha
    have hlen : a = sampleCalls.take 3 := by
      rcases a with _ | ⟨_, _ | ⟨_, _ | ⟨_, _ | ⟨_, a⟩⟩⟩⟩ <;> simp_all [sampleCalls]
    rw [hlen]
    exact safeToRemove_of_ownLeaf hown p
  have h := finiteMap (fun _ => rfl) sampleCalls (fun x hx y hy => hinj x hx y hy) hsafe sampleCalls
    List.prefix_rfl
  exact ⟨h.2.1 ⟨[0x11], rfl⟩, h.2.1 ⟨[0x21], rfl⟩⟩

def aliasCalls : List (Call 1) :=
  [.edit (.insert (bytePath 0x11) (byteValue 7)), .edit (.insert (bytePath 0x21) (byteValue 7)),
    .edit (.remove (bytePath 0x11))]

omit [Keccak256] in
/-- Two paths that differ in their first half-byte and have the same value: after one of them is
removed, the trie holds the value under the removed path, and no longer under the other. -/
theorem finiteMap_aliased :
    letI := sampleKeccak
    (∀ x ∈ callEncodings (InMemoryTrieDB.mk ∅) aliasCalls,
      ∀ y ∈ callEncodings (InMemoryTrieDB.mk ∅) aliasCalls, kec x = kec y → x = y) ∧
    (PathMap.ofCalls aliasCalls).lookup ⟨[0x11], rfl⟩ = none ∧
    (Trie.ofCalls (InMemoryTrieDB.mk ∅) aliasCalls).get [0x11] = .ok (some [7]) ∧
    (PathMap.ofCalls aliasCalls).lookup ⟨[0x21], rfl⟩ = some ⟨[7], by simp⟩ ∧
    (Trie.ofCalls (InMemoryTrieDB.mk ∅) aliasCalls).get [0x21] = .ok none := by
  decide +kernel

end
end EthereumRust.Mpt
