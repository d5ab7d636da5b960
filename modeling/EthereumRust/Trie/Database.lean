import EthereumRust.Trie.Codec
import EthereumRust.Trie.Insert

/-! # Commits to the database

What a commit leaves out it takes to be in the database already, which holds because the
database is closed: with a node it has all nodes below it. -/

namespace EthereumRust.Mpt
open Nibble Rlp List Exec

/-! ## Nodes are read back -/

theorem Matches.roundTrip [Keccak256] {t : Contents n}
    (hm : Matches (.any n) pre t node) (hf : Fit pre t) : RoundTrip node := by
  have hb := hf.bound hm.ne_nil
  cases hm with
  | @leaf r v path hpath =>
    have hlen := hpath.1.length
    have hkey := hf.leaf
    have hvalue := v.2.2
    have := length_encode_leaf_le (l := ⟨path, v.1⟩) (by simp only; omega)
    refine Node.roundTrip trivial (?_ : (encode (⟨path, v.1⟩ : LeafNode)).length + 1 + 8 < _)
    simp only at this
    omega
  | @ext s c pfx hpfx half =>
    have hs := hf.ragged.length_shared
    have hsize := hpfx.size
    have h1 := Bool.toNat_le pfx.firstIsHalf
    have h2 := Bool.toNat_le pfx.lastIsHalf
    have hc : ∀ x, ref c = .inline x → x.length < 32 := fun x => inline_ref
    have := length_encode_extension_le (e := ⟨pfx, ref c⟩) hc (by simp only; omega)
    refine Node.roundTrip hc (?_ : (encode (⟨pfx, ref c⟩ : ExtensionNode)).length + 1 + 8 < _)
    simp only at this
    omega
  | @bare cs =>
    have hc : ∀ i x, ref (cs i) = .inline x → x.length < 32 := fun i x => inline_ref
    have := length_encode_branch_le (b := ⟨fun i => ref (cs i), [], []⟩) hc (by simp)
    exact Node.roundTrip hc (Nat.lt_of_le_of_lt (Nat.add_le_add_right (Nat.succ_le_succ this) 8) (by simp))
  | valued => cases hf.branch_value

/-! ## The database -/

/-- A faithful key-value store. -/
class LawfulTrieDB (δ : Type) [TrieDB δ] : Prop where
  get_ok : ∀ (db : δ) key, ∃ value, TrieDB.get db key = .ok value
  put_ok : ∀ (db : δ) key value, (TrieDB.put db key value).1 = .ok ()
  get_put_self : ∀ (db : δ) key value, TrieDB.get (TrieDB.put db key value).2 key = .ok (some value)
  get_put_ne : ∀ (db : δ) {key key'} value, key' ≠ key →
    TrieDB.get (TrieDB.put db key value).2 key' = TrieDB.get db key'

instance : LawfulTrieDB InMemoryTrieDB where
  get_ok _ _ := ⟨_, rfl⟩
  put_ok _ _ _ := rfl
  get_put_self db key value := by simp [TrieDB.get, TrieDB.put]
  get_put_ne db _ _ value h := by simp [TrieDB.get, TrieDB.put, AList.lookup_insert_ne h]

section

variable [Keccak256] {n : Nat} {δ : Type} [TrieDB δ] [LawfulTrieDB δ] {u : Contents n} {st : TrieState δ}

/-- The state as it is once the cache was cleared. -/
def TrieState.flushed (st : TrieState δ) : TrieState δ := { st with cache := ∅ }

/-- The state after a tree's root node was written to the database. -/
def TrieState.put (st : TrieState δ) (t : Contents n) (node : Node) : TrieState δ :=
  { st with db := (TrieDB.put st.db (ref t).toVec (encode node)).2 }

omit [LawfulTrieDB δ] in
theorem flushed_put (st : TrieState δ) (t : Contents n) (node : Node) :
    (st.put t node).flushed = st.flushed.put t node := rfl

omit [TrieDB δ] [LawfulTrieDB δ] in
theorem toVec_ref_inj (h : (ref t).toVec = (ref u).toVec) : ref t = ref u := by
  have := congrArg NodeHash.fromVec h
  rwa [fromVec_toVec fun x => inline_ref, fromVec_toVec fun x => inline_ref] at this

theorem getNode_put_self
    (hc : st.cache.lookup (ref t) = none) (hr : RoundTrip node) :
    (st.put t node).getNode (ref t) = .ok (some node) := by
  simp only [TrieState.getNode, TrieState.put, hc, LawfulTrieDB.get_put_self, Outcome.bind_ok, hr.decode]
  rfl

theorem getNode_put_ne (node : Node)
    (h : st.cache.lookup (ref u) ≠ none ∨ ref u ≠ ref t) :
    (st.put t node).getNode (ref u) = st.getNode (ref u) := by
  cases hc : st.cache.lookup (ref u) with
  | some x => simp only [TrieState.getNode, TrieState.put, hc]
  | none =>
    have hne : (ref u).toVec ≠ (ref t).toVec :=
      fun he => h.elim (fun h => h hc) fun h => h (toVec_ref_inj he)
    simp only [TrieState.getNode, TrieState.put, hc, LawfulTrieDB.get_put_ne _ _ hne]

/-- A write to the database keeps the nodes that are held, if the hash does not collide. -/
theorem Held.put
    (hcf : CollisionFree st) (hf : Fit pre u) (hs : Seen {e | e ∈ st.encodings} u)
    (hft : Fit pre' t) (hm : Matches (.any n) pre' t node) (hst : Seen {e | e ∈ st.encodings} t)
    (h : Held (.any n) st pre u) : Held (.any n) (st.put t node) pre u := by
  obtain ⟨hseen, node', hg, hm'⟩ := h
  refine ⟨hseen, ?_⟩
  by_cases hkeep : st.cache.lookup (ref u) ≠ none ∨ ref u ≠ ref t
  · exact ⟨node', by rw [getNode_put_ne _ hkeep]; exact hg, hm'⟩
  · simp only [not_or, ne_eq, not_not] at hkeep
    obtain rfl := ref_inj hcf hs hst hf.ragged hft.ragged hkeep.2
    exact ⟨node, getNode_put_self hkeep.1 (hm.roundTrip hft),
      hm.move (σ := .any n) hft hf⟩

theorem Stored.put
    (hcf : CollisionFree st) (hf : Fit pre u) (hft : Fit pre' t) (hm : Matches (.any n) pre' t node)
    (hst : Seen {e | e ∈ st.encodings} t) (h : Stored (.any n) st pre u) :
    Stored (.any n) (st.put t node) pre u :=
  h.imp (.any n) hf fun _ _ hf hs h => h.put hcf hf hs hft hm hst

theorem StoredBelow.put
    (hcf : CollisionFree st) (hf : Fit pre u) (hft : Fit pre' t) (hm : Matches (.any n) pre' t node)
    (hst : Seen {e | e ∈ st.encodings} t) (h : StoredBelow (.any n) st pre u) :
    StoredBelow (.any n) (st.put t node) pre u := by
  cases u with
  | nil => trivial
  | leaf r v => trivial
  | ext s c => exact Stored.put hcf hf.ext_child hft hm hst h
  | branch cs w => exact fun x => Stored.put hcf (hf.branch_child x) hft hm hst (h x)

omit [LawfulTrieDB δ] in
/-- A tree is stored wherever it stands. -/
theorem Stored.relocate (hf : Fit pre t)
    (hf' : Fit pre' t) (h : Stored (.any n) st pre t) : Stored (.any n) st pre' t := by
  have hheld : ∀ {pre pre' : List Nibble} {u : Contents n}, Fit pre u → Fit pre' u →
      Held (.any n) st pre u → Held (.any n) st pre' u := by
    rintro pre pre' u hf hf' ⟨hseen, node, hg, hm⟩
    exact ⟨hseen, node, hg, hm.move (σ := .any n) hf hf'⟩
  induction t generalizing pre pre' with
  | nil => trivial
  | leaf r v => exact hheld hf hf' h
  | ext s c ih => exact ⟨hheld hf hf' h.1, ih hf.ext_child hf'.ext_child h.2⟩
  | branch cs w ih =>
    exact ⟨hheld hf hf' h.1, fun x => ih x (hf.branch_child x) (hf'.branch_child x) (h.2 x)⟩

/-- With a node the database has all nodes below it. -/
def Closed (n : Nat) (st : TrieState δ) : Prop :=
  ∀ key value, TrieDB.get st.db key = .ok (some value) → ∃ (pre : List Nibble) (t : Contents n),
    key = (ref t).toVec ∧ Fit pre t ∧ Stored (.any n) st.flushed pre t

omit [LawfulTrieDB δ] in
theorem Stored.longer
    (h : Stored (.any n) st pre t) (hdb : st'.db = st.db) (hc : st'.cache = st.cache)
    (hle : {e | e ∈ st.encodings} ⊆ {e | e ∈ st'.encodings}) (hf : Fit pre t) :
    Stored (.any n) st' pre t := by
  refine h.imp (.any n) hf ?_
  rintro _ u - - - - ⟨hs, node, hg, hm⟩
  refine ⟨hle hs, node, ?_, hm⟩
  rw [TrieState.getNode, hc, hdb]
  exact hg

omit [LawfulTrieDB δ] in
theorem Closed.longer (hdb : st'.db = st.db)
    (hle : {e | e ∈ st.encodings} ⊆ {e | e ∈ st'.encodings}) (h : Closed n st) : Closed n st' := by
  intro key value hk
  rw [hdb] at hk
  obtain ⟨pre, t, hkey, hf, ht⟩ := h key value hk
  exact ⟨pre, t, hkey, hf, ht.longer hdb rfl hle hf⟩

omit [LawfulTrieDB δ] in
theorem Closed.of_writes {μ : Marks n} {σ : Site n μ} (h : Closed n st)
    (hw : Writes σ st st') : Closed n st' := h.longer hw.db hw.encodings

omit [LawfulTrieDB δ] in
theorem Closed.new {db : δ} (hdb : ∀ key, TrieDB.get db key = .ok none) : Closed n (TrieState.new db) := by
  intro key value hk
  rw [TrieState.new, hdb] at hk
  cases hk

theorem Closed.put
    (h : Closed n st) (hcf : CollisionFree st) (hf : Fit pre t) (hm : Matches (.any n) pre t node)
    (hs : Seen {e | e ∈ st.encodings} t) (hb : StoredBelow (.any n) st.flushed pre t) :
    Closed n (st.put t node) ∧ Stored (.any n) (st.put t node).flushed pre t := by
  have hcf' : CollisionFree st.flushed := hcf
  have hself : Stored (.any n) (st.put t node).flushed pre t := by
    rw [flushed_put]
    exact stored_of ⟨hs.self hm.ne_nil, node, getNode_put_self rfl (hm.roundTrip hf), hm⟩
      (hb.put hcf' hf hf hm hs)
  refine ⟨fun key value hk => ?_, hself⟩
  by_cases hkey : key = (ref t).toVec
  · exact ⟨pre, t, hkey, hf, hself⟩
  · rw [TrieState.put, LawfulTrieDB.get_put_ne _ _ hkey] at hk
    obtain ⟨pre', u, rfl, hfu, hu⟩ := h key value hk
    exact ⟨pre', u, rfl, hfu, hu.put hcf' hfu hf hm hs⟩

end

/-! ## Commits -/

section

variable {δ : Type} [TrieDB δ]

omit [TrieDB δ] in
theorem commitAll_ok {commitNode : NodeHash → TrieM δ Unit}
    (h : ∀ k st, st.cache.entries.length < size →
      ∃ st', commitNode k st = (.ok (), st') ∧ st'.cache.entries.length ≤ st.cache.entries.length)
    (l : List NodeHash) {st : TrieState δ} (hst : st.cache.entries.length < size) :
    ∃ st', TrieState.commitAll commitNode l st = (.ok (), st') ∧
      st'.cache.entries.length ≤ st.cache.entries.length := by
  induction l generalizing st with
  | nil => exact ⟨st, rfl, le_rfl⟩
  | cons k l ih =>
    obtain ⟨st₁, h₁, hle₁⟩ := h k st hst
    obtain ⟨st₂, h₂, hle₂⟩ := ih (lt_of_le_of_lt hle₁ hst)
    exact ⟨st₂, by rw [TrieState.commitAll, run_bind_ok h₁, h₂], hle₂.trans hle₁⟩

theorem commitNode_ok (hput : ∀ (db : δ) key value, (TrieDB.put db key value).1 = .ok ()) (fuel : Nat)
    (k : NodeHash) (st : TrieState δ) (hfuel : st.cache.entries.length < fuel) :
    ∃ st', TrieState.commitNode fuel k st = (.ok (), st') ∧
      st'.cache.entries.length ≤ st.cache.entries.length := by
  induction fuel generalizing k st with
  | zero => omega
  | succ fuel ih =>
    rw [TrieState.commitNode, run_bind_ok (run_get st)]
    cases hc : st.cache.lookup k with
    | none => exact ⟨st, rfl, le_rfl⟩
    | some node =>
      have hlt := HashMap.length_erase_lt hc
      have herase : TrieState.removeCached k st = (.ok (), { st with cache := st.cache.erase k }) := rfl
      obtain ⟨st', hrun, hle⟩ : ∃ st', TrieState.commitChildren (TrieState.commitNode fuel) node
          { st with cache := st.cache.erase k } = (.ok (), st') ∧
          st'.cache.entries.length ≤ (st.cache.erase k).entries.length := by
        have hsize : (st.cache.erase k).entries.length < fuel := by omega
        cases node with
        | branch n => exact commitAll_ok ih _ hsize
        | extension n => exact ih n.child { st with cache := st.cache.erase k } hsize
        | leaf n => exact ⟨_, rfl, le_rfl⟩
      refine ⟨{ st' with db := (TrieDB.put st'.db k.toVec (encode node)).2 }, ?_, hle.trans hlt.le⟩
      simp only []
      rw [run_bind_ok herase, run_bind_ok hrun, TrieState.putNode,
        ← hput st'.db k.toVec (encode node)]

end

section

variable [Keccak256] {n : Nat} {δ : Type} [TrieDB δ] [LawfulTrieDB δ] {st : TrieState δ} {t : Contents n}

/-- From one database to another by writing root nodes of trees that were seen. -/
inductive Puts (n : Nat) (E : Set ByteString) (db : δ) : δ → Prop
  | refl : Puts n E db db
  | put {db' : δ} {pre : List Nibble} {t : Contents n} {node : Node} : Puts n E db db' → Fit pre t →
      Matches (.any n) pre t node → Seen E t →
      Puts n E db (TrieDB.put db' (ref t).toVec (encode node)).2

omit [LawfulTrieDB δ] in
theorem Puts.trans {db' db'' : δ} (h : Puts n E db db') (h' : Puts n E db' db'') :
    Puts n E db db'' := by
  induction h' with
  | refl => exact h
  | put _ hf hm hs ih => exact ih.put hf hm hs

theorem Held.puts
    (h : Held (.any n) st pre u) (hp : Puts n {e | e ∈ st.encodings} st.db db) (hcf : CollisionFree st)
    (hf : Fit pre u) (hs : Seen {e | e ∈ st.encodings} u) : Held (.any n) { st with db := db } pre u := by
  induction hp with
  | refl => exact h
  | @put db' _ _ _ _ hft hm hst ih =>
    have hcf' : CollisionFree { st with db := db' } := hcf
    exact ih.put hcf' hf hs hft hm hst

theorem Stored.puts
    (h : Stored (.any n) st pre u) (hp : Puts n {e | e ∈ st.encodings} st.db db)
    (hcf : CollisionFree st) (hf : Fit pre u) : Stored (.any n) { st with db := db } pre u :=
  h.imp (.any n) hf fun _ _ hf hs h => h.puts hp hcf hf hs

/-- What a commit leaves behind: nodes taken out of the cache, others written to the database,
none lost. -/
structure Committed (n : Nat) (st st' : TrieState δ) : Prop where
  encodings : st'.encodings = st.encodings
  cache : ∀ h, st'.cache.lookup h = none ∨ st'.cache.lookup h = st.cache.lookup h
  size : st'.cache.entries.length ≤ st.cache.entries.length
  puts : Puts n {e | e ∈ st.encodings} st.db st'.db
  closed : Closed n st'
  keeps : ∀ {pre : List Nibble} {u : Contents n}, u ≠ .nil → Fit pre u →
    Seen {e | e ∈ st.encodings} u → Held (.any n) st pre u → Held (.any n) st' pre u

namespace Committed

omit [LawfulTrieDB δ] in
theorem refl (h : Closed n st) : Committed n st st :=
  ⟨rfl, fun _ => .inr rfl, le_rfl, .refl, h, fun _ _ _ h => h⟩

omit [LawfulTrieDB δ] in
theorem trans (h : Committed n st st') (h' : Committed n st' st'') : Committed n st st'' where
  encodings := h'.encodings.trans h.encodings
  cache k := by
    rcases h'.cache k with hk | hk
    · exact .inl hk
    · rw [hk]; exact h.cache k
  size := h'.size.trans h.size
  puts := h.puts.trans (h.encodings ▸ h'.puts)
  closed := h'.closed
  keeps hn hf hs hu := h'.keeps hn hf (h.encodings ▸ hs) (h.keeps hn hf hs hu)

omit [LawfulTrieDB δ] in
theorem stored (h : Committed n st st') (hf : Fit pre u)
    (hu : Stored (.any n) st pre u) : Stored (.any n) st' pre u :=
  hu.imp (.any n) hf fun _ hn hf hs hu => h.keeps hn hf hs hu

theorem flushed (h : Committed n st st') (hcf : CollisionFree st)
    (hf : Fit pre u) (hu : Stored (.any n) st.flushed pre u) : Stored (.any n) st'.flushed pre u := by
  have hflush : st'.flushed = { st.flushed with db := st'.db } := by
    rw [TrieState.flushed, TrieState.flushed, h.encodings]
  rw [hflush]
  exact hu.puts h.puts hcf hf

end Committed

theorem Closed.flushed (h : Closed n st)
    (hcf : CollisionFree st) (hn : t ≠ .nil) (hf : Fit pre t) (ht : Stored (.any n) st pre t)
    (hc : st.cache.lookup (ref t) = none) : Stored (.any n) st.flushed pre t := by
  obtain ⟨node, hg, -⟩ := (ht.held hn).found
  obtain ⟨value, hv⟩ := LawfulTrieDB.get_ok st.db (ref t).toVec
  simp only [TrieState.getNode, hc, hv] at hg
  cases value with
  | none => cases hg
  | some value =>
    obtain ⟨pre', u, hkey, hfu, hu⟩ := h _ value hv
    obtain rfl := ref_inj hcf ht.seen hu.seen hf.ragged hfu.ragged (toVec_ref_inj hkey)
    exact hu.relocate hfu hf

/-- The last step of committing a node: its children are committed, it was taken out of the cache
and is now written to the database. -/
theorem Committed.put {st' : TrieState δ}
    (h : Committed n { st with cache := st.cache.erase (ref t) } st') (hcf : CollisionFree st)
    (hf : Fit pre t) (hm : Matches (.any n) pre t node) (hs : Seen {e | e ∈ st.encodings} t)
    (hb : StoredBelow (.any n) st'.flushed pre t) :
    Committed n st (st'.put t node) ∧ Stored (.any n) (st'.put t node).flushed pre t := by
  have henc : st'.encodings = st.encodings := h.encodings
  have hcf' : CollisionFree st' := by rw [CollisionFree, henc]; exact hcf
  have hs' : Seen {e | e ∈ st'.encodings} t := by rw [henc]; exact hs
  obtain ⟨hclosed, hself⟩ := h.closed.put hcf' hf hm hs' hb
  have hgone : st'.cache.lookup (ref t) = none :=
    (h.cache (ref t)).elim id fun he => he.trans (AList.lookup_erase _ _)
  refine ⟨⟨henc, ?_, ?_, h.puts.put hf hm hs, hclosed, ?_⟩, hself⟩
  · intro k
    by_cases hk : k = ref t
    · rw [hk]; exact .inl hgone
    · rcases h.cache k with h | h
      · exact .inl h
      · exact .inr (h.trans (AList.lookup_erase_ne hk))
  · exact h.size.trans (kerase_sublist _ _).length_le
  · intro pre' u hn hfu hsu hu
    by_cases hr : ref u = ref t
    · obtain rfl := ref_inj hcf hsu hs hfu.ragged hf.ragged hr
      exact ⟨by rw [TrieState.put, henc]; exact hu.seen, node, getNode_put_self hgone (hm.roundTrip hf),
        hm.move (σ := .any n) hf hfu⟩
    · have hu' : Held (.any n) { st with cache := st.cache.erase (ref t) } pre' u := by
        obtain ⟨hseen, node', hg, hm'⟩ := hu
        refine ⟨hseen, node', ?_, hm'⟩
        simp only [TrieState.getNode, AList.lookup_erase_ne hr]
        exact hg
      exact (h.keeps hn hfu hsu hu').put hcf' hfu (henc ▸ hsu) hf hm hs'

/-- What committing a tree does, from any state that holds it. -/
def Commits (fuel : Nat) (pre : List Nibble) (t : Contents n) (st : TrieState δ) : Prop :=
  ∃ st', TrieState.commitNode fuel (ref t) st = (.ok (), st') ∧ Committed n st st' ∧
    Stored (.any n) st'.flushed pre t

theorem commitAll_run {cs : Nibble → Contents n}
    (hf : ∀ x, Fit (pre ++ [x]) (cs x))
    (hrun : ∀ x (st : TrieState δ), cs x ≠ .nil → Stored (.any n) st (pre ++ [x]) (cs x) →
      Closed n st → CollisionFree st → st.cache.entries.length < fuel → Commits fuel (pre ++ [x]) (cs x) st)
    (l : List Nibble) (hst : ∀ x, Stored (.any n) st (pre ++ [x]) (cs x))
    (hcl : Closed n st) (hcf : CollisionFree st) (hfuel : st.cache.entries.length < fuel) :
    ∃ st', TrieState.commitAll (TrieState.commitNode fuel)
        ((l.map fun x => ref (cs x)).filter (·.isValid)) st = (.ok (), st') ∧ Committed n st st' ∧
      ∀ x ∈ l, Stored (.any n) st'.flushed (pre ++ [x]) (cs x) := by
  induction l generalizing st with
  | nil => exact ⟨st, rfl, .refl hcl, by simp⟩
  | cons x l ih =>
    rw [map_cons, filter_cons]
    by_cases hx : cs x = .nil
    · have hv : (ref (cs x)).isValid = false := by rw [hx, ref_nil]; rfl
      rw [hv]
      obtain ⟨st', hl, hc, hs⟩ := ih hst hcl hcf hfuel
      refine ⟨st', hl, hc, ?_⟩
      intro y hy
      rcases mem_cons.mp hy with rfl | hy
      · rw [hx]; trivial
      · exact hs y hy
    · rw [if_pos ((isValid_ref (cs x)).mpr hx)]
      obtain ⟨st₁, h₁, hc₁, hs₁⟩ := hrun x st hx (hst x) hcl hcf hfuel
      have hcf₁ : CollisionFree st₁ := by rw [CollisionFree, hc₁.encodings]; exact hcf
      obtain ⟨st', hl, hc, hs⟩ := ih (fun y => hc₁.stored (hf y) (hst y)) hc₁.closed hcf₁
        (lt_of_le_of_lt hc₁.size hfuel)
      refine ⟨st', ?_, hc₁.trans hc, ?_⟩
      · rw [TrieState.commitAll, run_bind_ok h₁]
        exact hl
      · intro y hy
        rcases mem_cons.mp hy with rfl | hy
        · exact hc.flushed hcf₁ (hf y) hs₁
        · exact hs y hy

omit [LawfulTrieDB δ] in
theorem Stored.erase
    (h : Stored (.any n) st pre' u) (hcf : CollisionFree st) (hf : Fit pre t)
    (hs : Seen {e | e ∈ st.encodings} t) (hfu : Fit pre' u) (hlen : pre.length < pre'.length) :
    Stored (.any n) { st with cache := st.cache.erase (ref t) } pre' u := by
  refine h.imp (.any n) hfu fun {_ w} hlen' hn hfu hsu hu => ?_
  have hr : ref w ≠ ref t := by
    intro hr
    obtain rfl := ref_inj hcf hsu hs hfu.ragged hf.ragged hr
    have := hf.depth_eq hfu hn
    omega
  obtain ⟨hseen, node, hg, hm⟩ := hu
  refine ⟨hseen, node, ?_, hm⟩
  simp only [TrieState.getNode, AList.lookup_erase_ne hr]
  exact hg

theorem commitNode_step
    (hn : t ≠ .nil) (hf : Fit pre t) (hst : Stored (.any n) st pre t) (hcl : Closed n st)
    (hcf : CollisionFree st)
    (hchildren : ∀ node, st.cache.lookup (ref t) = some node → Matches (.any n) pre t node →
      ∃ st', TrieState.commitChildren (TrieState.commitNode fuel) node
          { st with cache := st.cache.erase (ref t) } = (.ok (), st') ∧
        Committed n { st with cache := st.cache.erase (ref t) } st' ∧
        StoredBelow (.any n) st'.flushed pre t) : Commits (fuel + 1) pre t st := by
  cases hc : st.cache.lookup (ref t) with
  | none =>
    refine ⟨st, ?_, .refl hcl, hcl.flushed hcf hn hf hst hc⟩
    rw [TrieState.commitNode, run_bind_ok (run_get st)]
    simp only [hc]
    rfl
  | some node =>
    obtain ⟨node', hg, hm⟩ := (hst.held hn).found
    simp only [TrieState.getNode, hc] at hg
    cases hg
    obtain ⟨st', hrun, hcom, hbelow⟩ := hchildren node hc hm
    obtain ⟨hcom', hself⟩ := hcom.put hcf hf hm hst.seen hbelow
    refine ⟨st'.put t node, ?_, hcom', hself⟩
    have hput : TrieState.putNode (ref t) node st' = (.ok (), st'.put t node) := by
      rw [TrieState.putNode, TrieState.put, ← LawfulTrieDB.put_ok st'.db (ref t).toVec (encode node)]
    rw [TrieState.commitNode, run_bind_ok (run_get st)]
    simp only [hc]
    have herase : TrieState.removeCached (ref t) st =
      (.ok (), { st with cache := st.cache.erase (ref t) }) := rfl
    rw [run_bind_ok herase, run_bind_ok hrun]
    exact hput

/-- A commit writes the whole tree to the database. -/
theorem commitNode_run
    (hn : t ≠ .nil) (hf : Fit pre t) (hst : Stored (.any n) st pre t) (hcl : Closed n st)
    (hcf : CollisionFree st) (hfuel : st.cache.entries.length < fuel) : Commits fuel pre t st := by
  induction t generalizing pre st fuel with
  | nil => exact absurd rfl hn
  | leaf r v =>
    cases fuel with
    | zero => omega
    | succ fuel =>
      refine commitNode_step hn hf hst hcl hcf fun node _ hm => ?_
      cases hm
      exact ⟨_, rfl, .refl hcl, trivial⟩
  | ext s c ih =>
    cases fuel with
    | zero => omega
    | succ fuel =>
      refine commitNode_step hn hf hst hcl hcf fun node hc hm => ?_
      have hsize := HashMap.length_erase_lt hc
      have hs := length_pos_iff.mpr hf.canonical.1
      cases hm
      exact ih (by rintro rfl; exact hf.canonical.2.1) hf.ext_child
        (Stored.erase hst.2 hcf hf hst.seen hf.ext_child (by rw [length_append]; omega)) hcl hcf
        (show (st.cache.erase _).entries.length < fuel by omega)
  | branch cs w ih =>
    cases fuel with
    | zero => omega
    | succ fuel =>
      refine commitNode_step hn hf hst hcl hcf fun node hc hm => ?_
      have hsize := HashMap.length_erase_lt hc
      obtain ⟨b, rfl, hchoices⟩ := hm.exists_branch
      obtain ⟨st', hrun, hcom, hs⟩ := commitAll_run (hf.branch_child)
        (fun x st hx hst hcl hcf hfuel => ih x hx (hf.branch_child x) hst hcl hcf hfuel)
        (List.finRange 16)
        (fun x => Stored.erase (hst.2 x) hcf hf hst.seen (hf.branch_child x) (by simp)) hcl hcf
        (show (st.cache.erase _).entries.length < fuel by omega)
      refine ⟨st', ?_, hcom, fun x => hs x (mem_finRange x)⟩
      rw [TrieState.commitChildren, hchoices]
      exact hrun

theorem commit_run (hn : t ≠ .nil) (hf : Fit [] t)
    (hst : Stored (.any n) st [] t) (hcl : Closed n st) (hcf : CollisionFree st) :
    ∃ st', TrieState.commit (ref t) st = (.ok (), st') ∧ st'.cache = ∅ ∧
      st'.encodings = st.encodings ∧ Puts n {e | e ∈ st.encodings} st.db st'.db ∧ Closed n st' ∧
      Stored (.any n) st' [] t := by
  obtain ⟨st', hrun, hcom, hs⟩ := commitNode_run hn hf hst hcl hcf (Nat.lt_succ_self _)
  refine ⟨st'.flushed, ?_, rfl, hcom.encodings, hcom.puts, hcom.closed, hs⟩
  rw [TrieState.commit, run_bind_ok (run_get st), run_bind_ok hrun]
  rfl

end

end EthereumRust.Mpt
