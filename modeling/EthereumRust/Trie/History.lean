import EthereumRust.Trie.FiniteMap

/-! # Tries that share a database

Tries with their own roots and caches are opened at roots that were returned before,
edited and hashed in any order. A root once returned stays readable: what is written
again is the same node up to the stored path of a leaf. -/

namespace EthereumRust.Mpt
open Nibble Rlp List

/-! ## Roots of 32-byte paths are hashes -/

section

variable [Keccak256] {t : Contents n}

theorem le_length_written (hn : t ≠ .nil) (hk : min 32 k ≤ (enc t).length) :
    min 32 k ≤ (ref t).written.length := by
  rw [ref_of_ne hn, NodeHash.fromEncodedRaw]
  split
  · have := le_length_rlpBytes (digest (enc t)).1
    rw [(digest (enc t)).2] at this
    simp only [NodeHash.written]
    omega
  · cases he : enc t with
    | nil => exact absurd he (enc_ne_nil t)
    | cons b bs => rw [he] at hk; exact hk

/-- A node takes a byte for each pair of half-bytes below it, up to a full reference. -/
theorem le_length_enc (hf : Fit pre t) (hn : t ≠ .nil) :
    min 32 ((2 * n - pre.length) / 2 + 2) ≤ (enc t).length := by
  have hlist : ∀ p : ByteString, p.length + 1 ≤ (rlpList p).length := by
    intro p
    have := length_rlpHeader_pos 0xC0 p.length
    rw [rlpList, length_append]
    omega
  induction t generalizing pre with
  | nil => exact absurd rfl hn
  | leaf r v =>
    have hr : pre.length + r.length = 2 * n := hf.leaf
    have h1 := le_length_rlpBytes (hexPrefix r true)
    rw [length_hexPrefix] at h1
    rw [enc_leaf, Item.encode_pair]
    have h3 := hlist ((Item.bytes (hexPrefix r true)).encode ++ (Item.bytes v.1).encode)
    simp only [Item.encode, length_append] at h3 ⊢
    omega
  | ext s c ih =>
    have hc : c ≠ .nil := by rintro rfl; exact hf.canonical.2.1
    have h1 := le_length_rlpBytes (hexPrefix s false)
    have h2 := le_length_written hc (ih hf.ext_child hc)
    rw [length_hexPrefix] at h1
    rw [length_append] at h2
    rw [enc_ext]
    have h3 := hlist (rlpBytes (hexPrefix s false) ++ (ref c).written)
    rw [length_append] at h3
    omega
  | branch cs w ih =>
    obtain ⟨x, hx⟩ := hf.canonical.1.exists_child
    have h1 := le_length_written hx (ih x (hf.branch_child x) hx)
    have h2 : (ref (cs x)).written.length ≤
        ((List.ofFn fun x => ref (cs x)).flatMap NodeHash.written).length := by
      have hmem : ref (cs x) ∈ List.ofFn fun x => ref (cs x) := mem_ofFn.mpr ⟨x, rfl⟩
      exact (sublist_flatten_of_mem (mem_map_of_mem hmem)).length_le
    rw [hf.branch_value, enc_branch, Option.map_none, Option.getD_none]
    have h3 := hlist ((List.ofFn fun x => ref (cs x)).flatMap NodeHash.written ++ rlpBytes [])
    have h4 : (rlpBytes []).length = 1 := rfl
    rw [length_append, h4] at h3
    rw [length_append, length_singleton] at h1
    omega

theorem ref_root {t : Contents 32} (hf : Fit [] t) (hn : t ≠ .nil) : ref t = .hashed (digest (enc t)) := by
  have h := le_length_enc hf hn
  rw [length_nil] at h
  rw [ref_of_ne hn, NodeHash.fromEncodedRaw, if_pos (by omega)]

end

/-! ## Tries over one database -/

/-- A database, the tries that are open on it, each with its own root and cache, and the roots that
`hash` returned so far. As in `TrieState`, the record of encodings is not the program's. -/
structure Shared (δ : Type) where
  db : δ
  encodings : List ByteString
  tries : List (Option NodeHash × HashMap NodeHash Node)
  roots : List H256

/-- A command names a trie by its position, and the root at which a trie is opened by the position
of the root among those returned. -/
inductive Command where
  | new
  | openAt (k : Nat)
  | edit (i : Nat) (e : Edit 32)
  | hash (i : Nat)

namespace Shared

variable {δ : Type}

def start (db : δ) : Shared δ := ⟨db, [], [], []⟩

/-- The state a trie works on. -/
def state (s : Shared δ) (cache : HashMap NodeHash Node) : TrieState δ := ⟨s.db, cache, s.encodings⟩

def trie (s : Shared δ) (i : Nat) : Option (Trie δ) :=
  s.tries[i]?.map fun (root, cache) => ⟨root, s.state cache⟩

/-- What a call on a trie leaves behind. -/
def update (s : Shared δ) (i : Nat) (trie : Trie δ) : Shared δ :=
  { s with
    db := trie.state.db
    encodings := trie.state.encodings
    tries := s.tries.set i (trie.root, trie.state.cache) }

variable [TrieDB δ] [Keccak256]

def step (s : Shared δ) : Command → Shared δ
  | .new => { s with tries := s.tries ++ [((Trie.new s.db).root, (Trie.new s.db).state.cache)] }
  | .openAt k =>
    match s.roots[k]? with
    | some root =>
      { s with tries := s.tries ++ [((Trie.openAt s.db root).root, (Trie.openAt s.db root).state.cache)] }
    | none => s
  | .edit i e =>
    match s.trie i with
    | some trie => s.update i (e.call trie).2
    | none => s
  | .hash i =>
    match s.trie i with
    | some trie =>
      match Trie.hash trie with
      | (.ok root, trie) => { s.update i trie with roots := s.roots ++ [root] }
      | (.error _, trie) => s.update i trie
    | none => s

def run (db : δ) (cmds : List Command) : Shared δ := cmds.foldl step (start db)

def occurring (db : δ) (cmds : List Command) : List ByteString :=
  [RLP_NULL] :: cmds.inits.flatMap fun a => (run db a).encodings

end Shared

/-! ## What the commands keep -/

section

variable [Keccak256] {δ : Type} [TrieDB δ] {s : Shared δ} {root : H256} {trie : Trie δ}

structure Kept (s : Shared δ) (root : H256) (t : Contents 32) : Prop where
  fit : Fit [] t
  root : root = digest (enc t)
  stored : Stored (.any 32) (s.state ∅) [] t

structure SharedInv (s : Shared δ) : Prop where
  closed : Closed 32 (s.state ∅)
  tries : ∀ i trie, s.trie i = some trie → ∃ t : Contents 32, Holding (.any 32) trie t
  roots : ∀ root ∈ s.roots, ∃ t, Kept s root t

/-- From one state to a later one: the record grows, the database gains nodes of trees that were
seen. -/
structure Later (s s' : Shared δ) : Prop where
  encodings : {e | e ∈ s.encodings} ⊆ {e | e ∈ s'.encodings}
  puts : Puts 32 {e | e ∈ s'.encodings} s.db s'.db

variable [LawfulTrieDB δ]

/-- A tree in the database or in a trie's cache stays there while others work. -/
theorem Later.stored (h : Later s s')
    (hcf : Set.InjOn kec {e | e ∈ s'.encodings})
    (hf : Fit [] t) (ht : Stored (.any 32) (s.state cache) [] t) :
    Stored (.any 32) (s'.state cache) [] t := by
  have h1 : Stored (.any 32) ⟨s.db, cache, s'.encodings⟩ [] t := ht.longer rfl rfl h.encodings hf
  exact h1.puts h.puts hcf hf

theorem Later.kept (h : Later s s') (hcf : Set.InjOn kec {e | e ∈ s'.encodings})
    (hk : Kept s root t) : Kept s' root t :=
  ⟨hk.fit, hk.root, h.stored hcf hk.fit hk.stored⟩

omit [TrieDB δ] [LawfulTrieDB δ] in
theorem enc_ne_null {t : Contents n} (hf : Fit pre t) (hn : t ≠ .nil) :
    enc t ≠ [RLP_NULL] := by
  intro he
  have := le_length_enc hf hn
  rw [he, length_singleton] at this
  omega

omit [LawfulTrieDB δ] in
theorem Kept.holding (h : Kept s root t)
    (hcf : Set.InjOn kec ({e | e ∈ s.encodings} ∪ {[RLP_NULL]})) :
    Holding (.any 32) ⟨(Trie.openAt s.db root).root, s.state ∅⟩ t := by
  refine ⟨?_, h.fit, h.stored⟩
  simp only [Trie.openAt, h.root]
  by_cases hn : t = .nil
  · subst hn
    rw [if_neg (by simp [EMPTY_TRIE_HASH]; rfl)]
    rfl
  · have hne : digest (enc t) ≠ EMPTY_TRIE_HASH := by
      intro he
      exact enc_ne_null h.fit hn (hcf (.inl (h.stored.held hn).seen) (.inr rfl) (congrArg Subtype.val he))
    rw [if_pos hne, rootRef_of_ne hn, ref_root h.fit hn]

omit [LawfulTrieDB δ] [Keccak256] in
theorem Node.get_record (fuel : Nat) (st : TrieState δ) (E : List ByteString) (node : Node)
    (path : NibbleSlice) : Node.get fuel { st with encodings := E } node path = Node.get fuel st node path := by
  induction fuel generalizing node path with
  | zero => rfl
  | succ fuel ih =>
    cases node with
    | leaf l => rfl
    | extension e =>
      have hexp : TrieState.expectNode { st with encodings := E } e.child = st.expectNode e.child := rfl
      simp only [Node.get, ExtensionNode.get, hexp, ih]
    | branch b =>
      have hexp : ∀ k, TrieState.expectNode { st with encodings := E } k = st.expectNode k := fun _ => rfl
      simp only [Node.get, BranchNode.get, hexp, ih]

omit [LawfulTrieDB δ] in
theorem Kept.get (h : Kept s root t)
    (hcf : Set.InjOn kec ({e | e ∈ s.encodings} ∪ {[RLP_NULL]})) (p : Path 32) :
    (Trie.openAt s.db root).get p.1 = .ok ((t.lookup p.nibbles).map Subtype.val) := by
  rw [← Trie.get_path (h.holding hcf) p, Trie.get]
  cases (Trie.openAt s.db root).root with
  | none => rfl
  | some k =>
    dsimp only
    congr 1
    funext node
    exact Node.get_record _ (s.state ∅) [] node _

/-- A call on one trie, seen from the others. -/
theorem SharedInv.update (h : SharedInv s)
    (hl : Later s (s.update i trie)) (hcf : CollisionFree trie.state) (hh : Holding (.any 32) trie t)
    (hcl : Closed 32 trie.state) : SharedInv (s.update i trie) := by
  refine ⟨hcl, ?_, fun root hr => ?_⟩
  · intro j trie' hj
    simp only [Shared.trie, Shared.update, List.getElem?_set] at hj
    split at hj
    · split at hj
      · cases hj
        exact ⟨t, hh⟩
      · cases hj
    · obtain ⟨⟨root, cache⟩, hget, rfl⟩ := Option.map_eq_some_iff.mp hj
      obtain ⟨u, hu⟩ := h.tries j ⟨root, s.state cache⟩ (by rw [Shared.trie, hget]; rfl)
      exact ⟨u, hu.root, hu.fit, hl.stored hcf hu.fit hu.stored⟩
  · obtain ⟨u, hu⟩ := h.roots root hr
    exact ⟨u, hl.kept hcf hu⟩

omit [LawfulTrieDB δ] in
theorem SharedInv.append (h : SharedInv s) {root}
    (hh : Holding (.any 32) ⟨root, s.state ∅⟩ t) :
    SharedInv { s with tries := s.tries ++ [(root, ∅)] } := by
  refine ⟨h.closed, ?_, fun r hr => ?_⟩
  rotate_left
  · obtain ⟨u, hu⟩ := h.roots r hr
    exact ⟨u, hu.fit, hu.root, hu.stored⟩
  intro j trie hj
  obtain ⟨⟨root', cache⟩, hget, rfl⟩ := Option.map_eq_some_iff.mp hj
  rw [List.getElem?_append] at hget
  split at hget
  · exact h.tries j _ (by rw [Shared.trie, hget]; rfl)
  · obtain ⟨hlt, he⟩ := List.getElem?_eq_some_iff.mp hget
    simp only [getElem_singleton, Prod.mk.injEq] at he
    obtain ⟨rfl, rfl⟩ := he
    exact ⟨t, hh⟩

omit [LawfulTrieDB δ] in
theorem Later.refl (hdb : s'.db = s.db) (he : s'.encodings = s.encodings) : Later s s' :=
  ⟨by rw [he], by rw [hdb]; exact .refl⟩

omit [TrieDB δ] [LawfulTrieDB δ] [Keccak256] in
theorem Shared.trie_state (hi : s.trie i = some trie) :
    trie.state.db = s.db ∧ trie.state.encodings = s.encodings := by
  obtain ⟨x, -, rfl⟩ := Option.map_eq_some_iff.mp hi
  exact ⟨rfl, rfl⟩

omit [LawfulTrieDB δ] in
theorem SharedInv.closed_trie (h : SharedInv s)
    (hi : s.trie i = some trie) : Closed 32 trie.state :=
  h.closed.longer (Shared.trie_state hi).1 (by rw [(Shared.trie_state hi).2]; exact subset_rfl)

omit [LawfulTrieDB δ] in
theorem Edit.call_run (ht : Holding (.any 32) trie t) (e : Edit 32) :
    ∃ reply trie' t', e.call trie = (.ok reply, trie') ∧ Writes (.any 32) trie.state trie'.state ∧
      (CollisionFree trie'.state → Holding (.any 32) trie' t') := by
  cases e with
  | insert p v =>
    obtain ⟨trie', hrun, hw, hh⟩ := Trie.insert_path ht p v trivial
    exact ⟨none, trie', _, by rw [Edit.call, Exec.run_bind_ok hrun]; rfl, hw, hh⟩
  | remove p =>
    obtain ⟨trie', t', hrun, -, -, -, hw, hh⟩ := Trie.remove_path ht p
    exact ⟨_, trie', t', hrun, hw, hh⟩

theorem SharedInv.edit (h : SharedInv s)
    (hi : s.trie i = some trie) (e : Edit 32) (hcf : CollisionFree (e.call trie).2.state) :
    SharedInv (s.update i (e.call trie).2) ∧ Later s (s.update i (e.call trie).2) := by
  obtain ⟨t, ht⟩ := h.tries i trie hi
  obtain ⟨hdb, henc⟩ := Shared.trie_state hi
  obtain ⟨reply, trie', t', hrun, hw, hh⟩ := Edit.call_run ht e
  rw [hrun] at hcf ⊢
  have hl : Later s (s.update i trie') := by
    refine ⟨?_, ?_⟩
    · have := hw.encodings
      rw [henc] at this
      exact this
    · rw [show (s.update i trie').db = s.db from hw.db.trans hdb]
      exact .refl
  exact ⟨h.update hl hcf (hh hcf) ((h.closed_trie hi).of_writes hw), hl⟩

theorem SharedInv.hash (h : SharedInv s)
    (hi : s.trie i = some trie) (hcf : Set.InjOn kec {e | e ∈ s.encodings}) :
    ∃ t, Holding (.any 32) trie t ∧ (Trie.hash trie).1 = .ok (digest (enc t)) ∧
      (s.step (.hash i)).encodings = s.encodings ∧ SharedInv (s.step (.hash i)) ∧
      Later s (s.step (.hash i)) ∧ Kept (s.step (.hash i)) (digest (enc t)) t := by
  obtain ⟨t, ht⟩ := h.tries i trie hi
  obtain ⟨hdb, henc⟩ := Shared.trie_state hi
  have hcf' : CollisionFree trie.state := by rw [CollisionFree, henc]; exact hcf
  obtain ⟨trie', hrun, hh, hcl, henc', hputs, hst⟩ := Trie.hash_run ht (h.closed_trie hi) hcf'
  have hstep : s.step (.hash i) = { s.update i trie' with roots := s.roots ++ [digest (enc t)] } := by
    simp only [Shared.step, hi, hrun]
  have hupd : (s.update i trie').encodings = s.encodings := henc'.trans henc
  have hl : Later s (s.update i trie') := by
    refine ⟨by rw [hupd], ?_⟩
    rw [hupd]
    rw [henc, hdb] at hputs
    exact hputs
  have hcf'' : CollisionFree trie'.state := by rw [CollisionFree, henc']; exact hcf'
  have hinv := h.update hl hcf'' hh hcl
  have hkept : Kept (s.step (.hash i)) (digest (enc t)) t := by
    rw [hstep]
    exact ⟨ht.fit, rfl, hst⟩
  refine ⟨t, ht, by rw [hrun], by rw [hstep]; exact hupd, ?_, by rw [hstep]; exact ⟨hl.1, hl.2⟩, hkept⟩
  rw [hstep] at hkept ⊢
  refine ⟨hinv.closed, hinv.tries, fun root hr => ?_⟩
  rcases mem_append.mp hr with hr | hr
  · obtain ⟨u, hu⟩ := hinv.roots root hr
    exact ⟨u, hu.fit, hu.root, hu.stored⟩
  · rw [mem_singleton] at hr
    subst hr
    exact ⟨t, hkept⟩

theorem SharedInv.step (h : SharedInv s) (cmd : Command)
    (hcf : Set.InjOn kec ({e | e ∈ s.encodings} ∪ {[RLP_NULL]}))
    (hcf' : Set.InjOn kec {e | e ∈ (s.step cmd).encodings}) :
    SharedInv (s.step cmd) ∧ Later s (s.step cmd) := by
  cases cmd with
  | new =>
    have hnew : Holding (.any 32) ⟨none, s.state ∅⟩ .nil := ⟨rfl, .nil, trivial⟩
    exact ⟨h.append hnew, .refl rfl rfl⟩
  | openAt k =>
    cases hk : s.roots[k]? with
    | none =>
      simp only [Shared.step, hk]
      exact ⟨h, .refl rfl rfl⟩
    | some root =>
      obtain ⟨t, ht⟩ := h.roots root (mem_of_getElem? hk)
      simp only [Shared.step, hk]
      exact ⟨h.append (ht.holding hcf), .refl rfl rfl⟩
  | edit i e =>
    cases hi : s.trie i with
    | none =>
      simp only [Shared.step, hi]
      exact ⟨h, .refl rfl rfl⟩
    | some trie =>
      simp only [Shared.step, hi] at hcf' ⊢
      exact h.edit hi e hcf'
  | hash i =>
    cases hi : s.trie i with
    | none =>
      simp only [Shared.step, hi]
      exact ⟨h, .refl rfl rfl⟩
    | some trie =>
      obtain ⟨t, -, -, -, hinv, hl, -⟩ := h.hash hi (hcf.mono Set.subset_union_left)
      exact ⟨hinv, hl⟩

end

/-! ## Runs -/

section

variable [Keccak256] {δ : Type} [TrieDB δ] [LawfulTrieDB δ] {db : δ}

omit [LawfulTrieDB δ] in
theorem Shared.run_append (db : δ) (a : List Command) (cmd : Command) :
    Shared.run db (a ++ [cmd]) = (Shared.run db a).step cmd := by
  rw [Shared.run, foldl_append]; rfl

omit [LawfulTrieDB δ] in
theorem Shared.occurring_run (ha : a <+: cmds)
    (h : Set.InjOn kec {e | e ∈ Shared.occurring db cmds}) :
    Set.InjOn kec ({e | e ∈ (Shared.run db a).encodings} ∪ {[RLP_NULL]}) := by
  refine h.mono ?_
  rintro e (he | rfl)
  · exact mem_cons_of_mem _ (mem_flatMap.mpr ⟨a, (mem_inits _ _).mpr ha, he⟩)
  · exact mem_cons_self

theorem SharedInv.run (hdb : ∀ key, TrieDB.get db key = .ok none)
    (hkec : Set.InjOn kec {e | e ∈ Shared.occurring db cmds}) (a : List Command) (ha : a <+: cmds) :
    SharedInv (Shared.run db a) := by
  induction a using List.reverseRecOn with
  | nil =>
    exact ⟨.new hdb, fun i trie h => (by simp [Shared.run, Shared.start, Shared.trie] at h), nofun⟩
  | append_singleton a cmd ih =>
    have ha' := (prefix_append a [cmd]).trans ha
    have hcf := Shared.occurring_run ha hkec
    rw [Shared.run_append] at hcf ⊢
    exact ((ih ha').step cmd (Shared.occurring_run ha' hkec) (hcf.mono Set.subset_union_left)).1

theorem Kept.run (hdb : ∀ key, TrieDB.get db key = .ok none)
    (hkec : Set.InjOn kec {e | e ∈ Shared.occurring db cmds}) {root t}
    (hk : Kept (Shared.run db a) root t) (b : List Command) (hb : a ++ b <+: cmds) :
    Kept (Shared.run db (a ++ b)) root t := by
  induction b using List.reverseRecOn with
  | nil => rwa [append_nil]
  | append_singleton b cmd ih =>
    rw [← append_assoc] at hb ⊢
    have hb' := (prefix_append (a ++ b) [cmd]).trans hb
    have hcf := Shared.occurring_run hb hkec
    rw [Shared.run_append] at hcf ⊢
    have hcf' := hcf.mono Set.subset_union_left
    exact ((SharedInv.run hdb hkec _ hb').step cmd (Shared.occurring_run hb' hkec) hcf').2.kept hcf' (ih hb')

/-- A root returned by `hash` opens to the map the trie had, then and ever after. -/
theorem history_readable {db : δ} (hdb : ∀ key, TrieDB.get db key = .ok none) (cmds : List Command)
    (hkec : Set.InjOn kec {e | e ∈ Shared.occurring db cmds}) (a b : List Command) (i : Nat)
    (hcmds : cmds = a ++ .hash i :: b) (trie : Trie δ) (hi : (Shared.run db a).trie i = some trie) :
    ∃ root, (Trie.hash trie).1 = .ok root ∧ ∀ later, later <+: b → ∀ p : Path 32,
      (Trie.openAt (Shared.run db (a ++ .hash i :: later)).db root).get p.1 = trie.get p.1 := by
  subst hcmds
  have hinv := SharedInv.run hdb hkec a (List.prefix_append _ _)
  have hcf := Shared.occurring_run (List.prefix_append a (.hash i :: b)) hkec
  obtain ⟨t, ht, hrun, -, -, -, hkept⟩ := hinv.hash hi (hcf.mono Set.subset_union_left)
  refine ⟨digest (enc t), hrun, fun later hlater p => ?_⟩
  rw [← Shared.run_append] at hkept
  have hpre : a ++ [.hash i] ++ later <+: a ++ .hash i :: b := by
    rw [List.append_assoc]
    exact List.prefix_append_right_inj a |>.mpr (by simpa using hlater)
  have hk := hkept.run hdb hkec later hpre
  have hcf' := Shared.occurring_run hpre hkec
  rw [List.append_assoc, List.singleton_append] at hk hcf'
  rw [hk.get hcf' p, Trie.get_path ht]

@[reducible] def sharedKeccak : Keccak256 := Keccak256.ofTable [
  (beBytes 1 0x80, 0x56e81f171bcc55a6ff8345e692c0f86e5b48e01b996cadc001622fb5e363b421),
  (beBytes 36 0xe3a120111111111111111111111111111111111111111111111111111111111111111107,
    0x1724f0973abc5b7cb925553c9d1978c3145f80587b58d9763d62cd19dc02eba8),
  (beBytes 35 0xe2a0311111111111111111111111111111111111111111111111111111111111111107,
    0x181ad2057167bf56d24c7f0bac4f2beaee1ae2c1bd9f57a5039dbe5d1371ee80),
  (beBytes 35 0xe2a0322222222222222222222222222222222222222222222222222222222222222208,
    0x2d69ef3d8a3679fb389ce3f5c2f1813316d265c21dcc95ddf25c2feefe3ace16),
  (0xf8 :: 0x51 :: 0x80 :: 0xa0 ::
      beBytes 32 0x181ad2057167bf56d24c7f0bac4f2beaee1ae2c1bd9f57a5039dbe5d1371ee80 ++ 0xa0 ::
      beBytes 32 0x2d69ef3d8a3679fb389ce3f5c2f1813316d265c21dcc95ddf25c2feefe3ace16 ++
      List.replicate 14 0x80,
    0x28529c22c5b33242b55c50661ed49426c99bc392d8104a0868d5f18b52736e58)]

def samplePath : Path 32 := ⟨List.replicate 32 0x11, rfl⟩
def samplePath' : Path 32 := ⟨List.replicate 32 0x22, rfl⟩

def sampleCommands : List Command :=
  [.new, .edit 0 (.insert samplePath ⟨[7], by simp⟩)] ++ .hash 0 ::
    [.openAt 0, .edit 1 (.insert samplePath' ⟨[8], by simp⟩), .hash 1]

omit [Keccak256] in
theorem history_readable_sample :
    letI := sharedKeccak
    ∃ root, (Shared.run (InMemoryTrieDB.mk ∅) sampleCommands).roots[0]? = some root ∧
      (Trie.openAt (Shared.run (InMemoryTrieDB.mk ∅) sampleCommands).db root).get samplePath.1 =
        .ok (some [7]) ∧
      (Trie.openAt (Shared.run (InMemoryTrieDB.mk ∅) sampleCommands).db root).get samplePath'.1 =
        .ok none := by
  let := sharedKeccak
  have hinj : ∀ x ∈ Shared.occurring (InMemoryTrieDB.mk ∅) sampleCommands,
      ∀ y ∈ Shared.occurring (InMemoryTrieDB.mk ∅) sampleCommands, kec x = kec y → x = y := by
    decide +kernel
  have hget : ((Shared.run (InMemoryTrieDB.mk ∅) (sampleCommands.take 2)).trie 0).map
      (·.get samplePath.1) = some (.ok (some [7])) := by decide +kernel
  have hget' : ((Shared.run (InMemoryTrieDB.mk ∅) (sampleCommands.take 2)).trie 0).map
      (·.get samplePath'.1) = some (.ok none) := by decide +kernel
  have hroot : ((Shared.run (InMemoryTrieDB.mk ∅) (sampleCommands.take 2)).trie 0).map
      (fun trie => (Trie.hash trie).1.toOption) =
      some (Shared.run (InMemoryTrieDB.mk ∅) sampleCommands).roots[0]? := by decide +kernel
  obtain ⟨trie, hi, hread⟩ := Option.map_eq_some_iff.mp hget
  obtain ⟨root, hrun, h⟩ := history_readable (fun _ => rfl) sampleCommands
    (fun x hx y hy => hinj x hx y hy) _ _ 0 rfl trie hi
  rw [hi, Option.map_some, Option.some.injEq] at hroot hget'
  refine ⟨root, ?_, (h _ List.prefix_rfl samplePath).trans hread,
    (h _ List.prefix_rfl samplePath').trans hget'⟩
  rw [← hroot, hrun]
  rfl

end
end EthereumRust.Mpt
