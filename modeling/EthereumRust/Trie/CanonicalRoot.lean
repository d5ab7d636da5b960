import EthereumRust.Trie.Operations

/-! # The root of a trie is that of its map

For runs of insertions, and for runs with removals in which no two paths share a value: a
leaf that a removal moves up is then read under its own path. -/

namespace EthereumRust.Mpt
open Nibble Rlp List AList

/-! ## Maps from paths to values -/

/-- The map that a run of calls describes. -/
abbrev PathMap (n : Nat) := HashMap (Path n) (Value n)

namespace PathMap

def items (m : PathMap n) : Finset (List Nibble × ByteString) :=
  (m.entries.map fun e => (e.1.nibbles, e.2.1)).toFinset

theorem mem_items {m : PathMap n} :
    I ∈ m.items ↔ ∃ p v, m.lookup p = some v ∧ I = (p.nibbles, v.1) := by
  simp only [items, mem_toFinset, mem_map]
  constructor
  · rintro ⟨⟨p, v⟩, hmem, rfl⟩
    exact ⟨p, v, mem_lookup_iff.mpr hmem, rfl⟩
  · rintro ⟨p, v, hl, rfl⟩
    exact ⟨⟨p, v⟩, mem_lookup_iff.mp hl, rfl⟩

theorem items_congr {m m' : PathMap n} (h : ∀ p, m.lookup p = m'.lookup p) : m.items = m'.items := by
  ext I
  simp only [mem_items, h]

end PathMap

theorem Path.exists_nibbles {k : List Nibble} (h : k.length = 2 * n) :
    ∃ p : Path n, p.nibbles = k :=
  ⟨⟨packPairs k, by rw [length_packPairs, h]; omega⟩, nibbles_packPairs k (by omega)⟩

/-- The tree holds the pairs of the map. -/
def Denotes {n : Nat} (t : Contents n) (m : PathMap n) : Prop := ∀ p : Path n, t.lookup p.nibbles = m.lookup p

section

variable {m : PathMap n}

theorem Denotes.nil : Denotes (.nil : Contents n) ∅ := fun _ => rfl

theorem Denotes.insert (h : Denotes t m) (p : Path n) (v : Value n) :
    Denotes (t.insert p.nibbles v) (m.insert p v) := by
  intro q
  rw [Tree.lookup_insert]
  by_cases hq : q = p
  · subst hq
    rw [if_pos rfl, lookup_insert]
  · rw [if_neg fun he => hq (Path.nibbles_injective he), lookup_insert_ne hq, h q]

theorem Denotes.erase {t' : Contents n} (h : Denotes t m) (p : Path n)
    (ht : ∀ q, t'.lookup q = if q = p.nibbles then none else t.lookup q) : Denotes t' (m.erase p) := by
  intro q
  rw [ht]
  by_cases hq : q = p
  · subst hq
    rw [if_pos rfl, lookup_erase]
  · rw [if_neg fun he => hq (Path.nibbles_injective he), lookup_erase_ne hq, h q]

theorem Denotes.represents (h : Denotes t m) (hf : Fit [] t) :
    t.Represents Subtype.val [] m.items := by
  intro I
  rw [PathMap.mem_items]
  constructor
  · rintro ⟨p, v, hl, rfl⟩
    exact ⟨p.nibbles, v, (h p).trans hl, rfl⟩
  · rintro ⟨k, v, hk, rfl⟩
    obtain ⟨p, rfl⟩ := Path.exists_nibbles (by simpa using hf.keys k v hk)
    exact ⟨p, v, (h p).symm.trans hk, rfl⟩

/-- The hash of the root node is the root of the map. -/
theorem Denotes.root [Keccak256] (h : Denotes t m) (hf : Fit [] t) :
    (digest (enc t)).1 = trieRoot kec m.items := by
  rw [Tree.trieRoot_eq hf.canonical (h.represents hf)]
  rfl

end

/-! ## Insertions in any order -/

section

variable [Keccak256]

/-- The elements as the program is given them. -/
def rawPairs (iter : List (Path n × Value n)) : List (ByteString × ByteString) :=
  iter.map fun (p, v) => (p.1, v.1)

/-- The last value of each path. -/
def PathMap.ofPairs (iter : List (Path n × Value n)) : PathMap n :=
  iter.foldl (fun m (p, v) => m.insert p v) ∅

def insertEncodings (iter : List (Path n × Value n)) : List ByteString :=
  iter.inits.flatMap fun a => (Trie.insertAll (rawPairs a) (Trie.new NullTrieDB.mk)).2.state.encodings

theorem insertUnwrap_run {δ : Type} [TrieDB δ] {self self' : Trie δ}
    (h : Trie.insert path value self = (.ok (), self')) :
    Trie.insertUnwrap path value self = (.ok (), self') := by
  rw [Trie.insertUnwrap, h]

theorem insertAll_run (iter : List (Path n × Value n))
    (hkec : Set.InjOn kec {e | e ∈ insertEncodings iter}) :
    ∃ self' t, Trie.insertAll (rawPairs iter) (Trie.new NullTrieDB.mk) = (.ok (), self') ∧
      Holding (.any n) self' t ∧ Denotes t (PathMap.ofPairs iter) := by
  let f : Path n × Value n → Exec (Trie NullTrieDB) TrieError Unit := fun a =>
    Trie.insertUnwrap a.1.1 a.2.1
  have hall : ∀ as, Trie.insertAll (rawPairs as) = Exec.forEach f as := fun as => Exec.forEach_map _ _ as
  have hstep : ∀ as a self, as ++ [a] <+: iter →
      Exec.forEach f as (Trie.new NullTrieDB.mk) = (.ok (), self) →
      (∃ t, Holding (.any n) self t ∧ Denotes t (PathMap.ofPairs as)) →
      ∃ b self', f a self = (.ok b, self') ∧
        ∃ t, Holding (.any n) self' t ∧ Denotes t (PathMap.ofPairs (as ++ [a])) := by
    rintro as ⟨p, v⟩ self has hrun ⟨t, hh, hd⟩
    obtain ⟨self', hins, -, hh'⟩ := Trie.insert_path hh p v trivial
    have hf : f (p, v) self = (.ok (), self') := insertUnwrap_run hins
    refine ⟨(), self', hf, t.insert p.nibbles v, hh' ?_, ?_⟩
    · refine hkec.mono fun e he => mem_flatMap.mpr ⟨as ++ [(p, v)], (mem_inits _ _).mpr has, ?_⟩
      rw [hall, Exec.forEach_snoc hrun hf]
      exact he
    · rw [PathMap.ofPairs, foldl_append]
      exact hd.insert p v
  obtain ⟨self', hrun, t, ht⟩ := Exec.forEach_invariant _
    ⟨.nil, .new _, .nil⟩ hstep iter prefix_rfl
  exact ⟨self', t, by rw [hall]; exact hrun, ht⟩

/-- Whatever the order of the insertions, the root is that of the resulting map. -/
theorem computeHashFromUnsortedIter_canonical :
    (∀ iter : List (Path n × Value n), Set.InjOn kec {e | e ∈ insertEncodings iter} →
      ∃ root, Trie.computeHashFromUnsortedIter (rawPairs iter) = .ok root ∧
        root.1 = trieRoot kec (PathMap.ofPairs iter).items) ∧
    ∀ iter iter' : List (Path n × Value n), Set.InjOn kec {e | e ∈ insertEncodings iter} →
      Set.InjOn kec {e | e ∈ insertEncodings iter'} →
      (∀ p, (PathMap.ofPairs iter).lookup p = (PathMap.ofPairs iter').lookup p) →
      Trie.computeHashFromUnsortedIter (rawPairs iter) =
        Trie.computeHashFromUnsortedIter (rawPairs iter') := by
  have hroot : ∀ iter : List (Path n × Value n), Set.InjOn kec {e | e ∈ insertEncodings iter} →
      ∃ root, Trie.computeHashFromUnsortedIter (rawPairs iter) = .ok root ∧
        root.1 = trieRoot kec (PathMap.ofPairs iter).items := by
    intro iter hkec
    obtain ⟨self', t, hrun, hh, hd⟩ := insertAll_run iter hkec
    refine ⟨digest (enc t), ?_, hd.root hh.fit⟩
    rw [Trie.computeHashFromUnsortedIter, hrun]
    simp only [hh.root, finalHash_rootRef]
  refine ⟨hroot, fun iter iter' hkec hkec' hsame => ?_⟩
  obtain ⟨root, hrun, hr⟩ := hroot iter hkec
  obtain ⟨root', hrun', hr'⟩ := hroot iter' hkec'
  rw [hrun, hrun', Subtype.ext (hr.trans ((congrArg _ (PathMap.items_congr hsame)).trans hr'.symm))]

@[reducible] def sampleKeccak : Keccak256 := Keccak256.ofTable [
  (beBytes 5 0xc482201107, 0x855be18ce0be73a1f424d8277112c74c1100b73e7b3c29fd2ebe36122342cc4a),
  (beBytes 5 0xc482202108, 0xa336aa75db6fcea376431ac9793b528e69fe7f8fc8ba6498bd1bfc30fa112f6a),
  (beBytes 3 0xc23107, 0x855254d805691f5b6720341f62de881f1620369ec8b57605928d0a3fdef8bc56),
  (beBytes 3 0xc23108, 0x7009b370fdafddbb4ed272099ef9d7f43a95073670cdb11450000c491f9f9598),
  (beBytes 22 0xd580c23107c231088080808080808080808080808080,
    0x6dc0e717ed37bb13cfd92fb63db7f30cc17f9f6399428fa4537be3e055d5c4c2),
  (beBytes 22 0xd580c23107c231078080808080808080808080808080,
    0xe53675b411f4908f98c66fe25622227ec2332c2fd43f8399096117e91e93130b)]

def bytePath (b : UInt8) : Path 1 := ⟨[b], rfl⟩
def byteValue (b : UInt8) : Value 1 := ⟨[b], by simp⟩

def samplePairs : List (Path 1 × Value 1) :=
  [(bytePath 0x11, byteValue 7), (bytePath 0x21, byteValue 8)]

omit [Keccak256] in
theorem computeHashFromUnsortedIter_sample :
    letI := sampleKeccak
    ∃ root, Trie.computeHashFromUnsortedIter (rawPairs samplePairs) = .ok root ∧
      root.1 = trieRoot kec (PathMap.ofPairs samplePairs).items := by
  let := sampleKeccak
  have hinj : ∀ x ∈ insertEncodings samplePairs, ∀ y ∈ insertEncodings samplePairs,
      kec x = kec y → x = y := by decide +kernel
  exact computeHashFromUnsortedIter_canonical.1 samplePairs fun x hx y hy => hinj x hx y hy

end

/-! ## Removals -/

section

variable {n : Nat}

/-- An insertion or a removal. -/
inductive Edit (n : Nat) where
  | insert (path : Path n) (value : Value n)
  | remove (path : Path n)

def Edit.call [Keccak256] {δ : Type} [TrieDB δ] : Edit n → Exec (Trie δ) TrieError (Option ByteString)
  | .insert path value => do
    Trie.insert path.1 value.1
    pure none
  | .remove path => Trie.remove path.1

def PathMap.edit (m : PathMap n) : Edit n → PathMap n
  | .insert path value => m.insert path value
  | .remove path => m.erase path

def PathMap.ofEdits (ops : List (Edit n)) : PathMap n := ops.foldl PathMap.edit ∅

/-- Different paths have different values. -/
def PathMap.Distinct (m : PathMap n) : Prop := ∀ p q v, m.lookup p = some v → m.lookup q = some v → p = q

instance (m : PathMap n) : Decidable m.Distinct := decidable_of_iff _ HashMap.injective_iff_nodup.symm

variable [Keccak256] {δ : Type} [TrieDB δ]

def Trie.ofEdits (db : δ) (ops : List (Edit n)) : Trie δ := (Exec.forEach Edit.call ops (Trie.new db)).2

def editEncodings (db : δ) (ops : List (Edit n)) : List ByteString :=
  ops.inits.flatMap fun a => (Trie.ofEdits db a).state.encodings

omit [Keccak256] in
theorem Denotes.distinct {t : Contents n} {m : PathMap n} (hd : Denotes t m) (hf : Fit [] t)
    (hm : m.Distinct) (k k' : List Nibble) (v : Value n) (hk : t.lookup k = some v)
    (hk' : t.lookup k' = some v) : k = k' := by
  obtain ⟨p, rfl⟩ := Path.exists_nibbles (by simpa using hf.keys k v hk)
  obtain ⟨q, rfl⟩ := Path.exists_nibbles (by simpa using hf.keys k' v hk')
  rw [hm p q v ((hd p).symm.trans hk) ((hd q).symm.trans hk')]

/-- At every moment of the run the values of different paths are different, and the hash does not
collide on the encodings that occur. -/
structure DistinctRun (db : δ) (ops : List (Edit n)) : Prop where
  distinct : ∀ a, a <+: ops → (PathMap.ofEdits a).Distinct
  injective : Set.InjOn kec {e | e ∈ editEncodings db ops}

theorem ofEdits_run {db : δ} {ops : List (Edit n)} (hops : DistinctRun db ops) :
    ∃ self t, Exec.forEach Edit.call ops (Trie.new db) = (.ok (), self) ∧ Holding (.own n) self t ∧
      Fit [] t ∧ Denotes t (PathMap.ofEdits ops) := by
  have hcf : ∀ {a self}, a <+: ops → Exec.forEach Edit.call a (Trie.new db) = (.ok (), self) →
      CollisionFree self.state := by
    intro a self ha hrun
    refine hops.injective.mono fun e he => mem_flatMap.mpr ⟨a, (mem_inits _ _).mpr ha, ?_⟩
    rw [Trie.ofEdits, hrun]
    exact he
  have hstep : ∀ as a self, as ++ [a] <+: ops →
      Exec.forEach Edit.call as (Trie.new db) = (.ok (), self) →
      (∃ t, Holding (.own n) self t ∧ Fit [] t ∧ Denotes t (PathMap.ofEdits as)) →
      ∃ b self', Edit.call a self = (.ok b, self') ∧
        ∃ t, Holding (.own n) self' t ∧ Fit [] t ∧ Denotes t (PathMap.ofEdits (as ++ [a])) := by
    rintro as a self has hrun ⟨t, hh, hf, hd⟩
    have hm := hops.distinct _ has
    have hmap : PathMap.ofEdits (as ++ [a]) = (PathMap.ofEdits as).edit a := by
      rw [PathMap.ofEdits, foldl_append]; rfl
    rw [hmap] at hm ⊢
    cases a with
    | insert p v =>
      have hf' : Fit [] (t.insert p.nibbles v) := hf.insert v p.size
      have hd' := hd.insert p v
      obtain ⟨self', hins, hh'⟩ := Trie.insert_own hh p.2.le v (p.clear (fun _ => trivial) hf)
        (hd'.distinct hf' hm)
      have hcall : Edit.call (.insert p v) self = (.ok none, self') := by
        rw [Edit.call, Exec.run_bind_ok hins]; rfl
      exact ⟨none, self', hcall, _, hh' (hcf has (Exec.forEach_snoc hrun hcall)), hf', hd'⟩
    | remove p =>
      obtain ⟨self', t', hrem, hl, hh'⟩ := Trie.remove_own hh p.2.le (p.clear (fun _ => trivial) hf)
        (.of_fit hf p.size) hf.lookup_branch
        (hd.distinct hf (hops.distinct as ((prefix_append as _).trans has)))
      have hcall : Edit.call (.remove p) self = _ := hrem
      have hh'' := hh' (hcf has (Exec.forEach_snoc hrun hcall))
      refine ⟨_, self', hcall, t', hh'', ⟨hh''.fit.canonical, fun k v hk => ?_⟩, hd.erase p hl⟩
      rw [hl] at hk
      split at hk
      · cases hk
      · exact hf.keys k v hk
  obtain ⟨self, hrun, t, hh, hf, hd⟩ := Exec.forEach_invariant _
    ⟨.nil, .new db, .nil, .nil⟩ hstep ops prefix_rfl
  exact ⟨self, t, hrun, hh, hf, hd⟩

theorem hash_ofEdits (hput : ∀ (db : δ) key value, (TrieDB.put db key value).1 = .ok ())
    {db : δ} {ops : List (Edit n)} (hops : DistinctRun db ops) :
    ∃ root, (Trie.hash (Trie.ofEdits db ops)).1 = .ok root ∧
      root.1 = trieRoot kec (PathMap.ofEdits ops).items := by
  obtain ⟨self, t, hrun, hh, hf, hd⟩ := ofEdits_run hops
  exact ⟨digest (enc t), by rw [Trie.ofEdits, hrun]; exact Trie.hash_ok hput hh, hd.root hf⟩

/-- The root after insertions and removals is that of the remaining map, whatever the history. -/
theorem hash_canonical_of_distinct
    (hput : ∀ (db : δ) key value, (TrieDB.put db key value).1 = .ok ()) (db : δ) :
    (∀ ops : List (Edit n), DistinctRun db ops →
      ∃ root, (Trie.hash (Trie.ofEdits db ops)).1 = .ok root ∧
        root.1 = trieRoot kec (PathMap.ofEdits ops).items ∧
        ((∀ p, (PathMap.ofEdits ops).lookup p = none) → root = EMPTY_TRIE_HASH)) ∧
    (∀ ops ops' : List (Edit n), DistinctRun db ops → DistinctRun db ops' →
      (∀ p, (PathMap.ofEdits ops).lookup p = (PathMap.ofEdits ops').lookup p) →
      (Trie.hash (Trie.ofEdits db ops)).1 = (Trie.hash (Trie.ofEdits db ops')).1) ∧
    (∀ (ops : List (Edit n)) (p : Path n) (v : Value n), (PathMap.ofEdits ops).lookup p = none →
      DistinctRun db ops → DistinctRun db (ops ++ [.insert p v, .remove p]) →
      (Trie.hash (Trie.ofEdits db (ops ++ [.insert p v, .remove p]))).1 =
        (Trie.hash (Trie.ofEdits db ops)).1) ∧
    ∀ (ops : List (Edit n)) (p : Path n), (PathMap.ofEdits ops).lookup p = none →
      DistinctRun db ops → DistinctRun db (ops ++ [.remove p]) →
      (Trie.hash (Trie.ofEdits db (ops ++ [.remove p]))).1 = (Trie.hash (Trie.ofEdits db ops)).1 := by
  have hsame : ∀ ops ops' : List (Edit n), DistinctRun db ops → DistinctRun db ops' →
      (∀ p, (PathMap.ofEdits ops).lookup p = (PathMap.ofEdits ops').lookup p) →
      (Trie.hash (Trie.ofEdits db ops)).1 = (Trie.hash (Trie.ofEdits db ops')).1 := by
    intro ops ops' hops hops' hmap
    obtain ⟨root, hrun, hr⟩ := hash_ofEdits hput hops
    obtain ⟨root', hrun', hr'⟩ := hash_ofEdits hput hops'
    rw [hrun, hrun', Subtype.ext (hr.trans ((congrArg _ (PathMap.items_congr hmap)).trans hr'.symm))]
  refine ⟨fun ops hops => ?_, hsame, fun ops p v hp hops hops' => hsame _ _ hops' hops fun q => ?_,
    fun ops p hp hops hops' => hsame _ _ hops' hops fun q => ?_⟩
  · obtain ⟨root, hrun, hr⟩ := hash_ofEdits hput hops
    refine ⟨root, hrun, hr, fun hempty => Subtype.ext ?_⟩
    rw [hr, show _ = (∅ : PathMap n).items from PathMap.items_congr hempty]
    rfl
  · rw [PathMap.ofEdits, List.foldl_append]
    change (((PathMap.ofEdits ops).insert p v).erase p).lookup q = _
    by_cases hq : q = p
    · rw [hq, lookup_erase, hp]
    · rw [lookup_erase_ne hq, lookup_insert_ne hq]
  · rw [PathMap.ofEdits, List.foldl_append]
    change ((PathMap.ofEdits ops).erase p).lookup q = _
    by_cases hq : q = p
    · rw [hq, lookup_erase, hp]
    · rw [lookup_erase_ne hq]

def sampleEdits : List (Edit 1) :=
  [.insert (bytePath 0x11) (byteValue 7), .insert (bytePath 0x21) (byteValue 8), .remove (bytePath 0x11)]

omit [Keccak256] in
theorem hash_canonical_of_distinct_sample :
    letI := sampleKeccak
    ∃ root, (Trie.hash (Trie.ofEdits (InMemoryTrieDB.mk ∅) sampleEdits)).1 = .ok root ∧
      root.1 = trieRoot kec (PathMap.ofEdits sampleEdits).items := by
  let := sampleKeccak
  have hinj : ∀ x ∈ editEncodings (InMemoryTrieDB.mk ∅) sampleEdits,
      ∀ y ∈ editEncodings (InMemoryTrieDB.mk ∅) sampleEdits, kec x = kec y → x = y := by
    decide +kernel
  have hdist : ∀ a ∈ sampleEdits.inits, (PathMap.ofEdits a).Distinct := by decide +kernel
  have hrun : DistinctRun (InMemoryTrieDB.mk ∅) sampleEdits :=
    ⟨fun a ha => hdist a ((List.mem_inits _ _).mpr ha), fun x hx y hy => hinj x hx y hy⟩
  obtain ⟨root, h, hr, -⟩ :=
    (hash_canonical_of_distinct (fun _ _ _ => rfl) (InMemoryTrieDB.mk ∅)).1 sampleEdits hrun
  exact ⟨root, h, hr⟩

end
end EthereumRust.Mpt
