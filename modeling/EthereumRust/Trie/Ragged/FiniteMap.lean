import EthereumRust.Trie.Operations

/-! # Insertions of paths of any length

Two things can go wrong. A path that ends inside an extension is looked up with a slice
that runs past its end, which is a panic for some path when the extension does not start
within the first byte. And two leaves with the same rest and the same value share an
entry of the state: at different depths only one of them can be read. -/

namespace EthereumRust.Mpt
open Nibble Rlp List AList

/-- The map that a run of calls describes. -/
abbrev ShortMap (n : Nat) := HashMap (ShortPath n) (Value n)

/-! ## Legible maps -/

/-- Two stored paths go on after `p`, all that do so with one half-byte, and another parts from `p`
after the first half-byte. -/
def Snag (ks : List (List Nibble)) (p : List Nibble) : Prop :=
  (∃ q ∈ ks, ∃ q' ∈ ks, q ≠ q' ∧ p <+: q ∧ p <+: q') ∧
  (∃ x, ∀ q ∈ ks, p <+: q → p ++ [x] <+: q) ∧
  ∃ q ∈ ks, q.head? = p.head? ∧ ¬ p <+: q

/-- The leaf of the stored path `p` holds what follows its first `i` half-bytes: just enough to
part it from the other stored paths. -/
def LeafDepth (ks : List (List Nibble)) (p : List Nibble) (i : Nat) : Prop :=
  i ≤ p.length ∧ (∀ q ∈ ks, p.take i <+: q → q = p) ∧
  (i = 0 ∨ ∃ q ∈ ks, q ≠ p ∧ p.take (i - 1) <+: q)

namespace ShortMap

variable {m : ShortMap n}

def paths (m : ShortMap n) : List (List Nibble) := m.keys.map ShortPath.nibbles

/-- No path is looked up past its end, and no two leaves at different depths share an entry. -/
structure Legible (m : ShortMap n) : Prop where
  unsnagged : ∀ p : ByteString, ¬ Snag m.paths (nibbles p)
  unaliased : ∀ p q v, m.lookup p = some v → m.lookup q = some v →
    ∀ i j, LeafDepth m.paths p.nibbles i → LeafDepth m.paths q.nibbles j →
      p.nibbles.drop i = q.nibbles.drop j → i = j

theorem mem_paths :
    k ∈ m.paths ↔ ∃ p v, m.lookup p = some v ∧ p.nibbles = k := by
  rw [paths, mem_map]
  constructor
  · rintro ⟨p, hp, rfl⟩
    obtain ⟨v, hv⟩ := Option.isSome_iff_exists.mp (lookup_isSome.mpr (mem_keys.mpr hp))
    exact ⟨p, v, hv, rfl⟩
  · rintro ⟨p, v, hv, rfl⟩
    exact ⟨p, mem_keys.mp (lookup_isSome.mp (by rw [hv]; rfl)), rfl⟩

instance (ks : List (List Nibble)) (p : List Nibble) : Decidable (Snag ks p) := by
  unfold Snag; infer_instance

instance (ks : List (List Nibble)) (p : List Nibble) (i : Nat) : Decidable (LeafDepth ks p i) := by
  unfold LeafDepth; infer_instance

/-- Only initial parts of stored paths can snag, and a leaf is no deeper than its path is long. -/
theorem legible_iff : m.Legible ↔
    (∀ q ∈ m.paths, ∀ p ∈ q.inits, p.length % 2 = 0 → ¬ Snag m.paths p) ∧
    ∀ e ∈ m.entries, ∀ e' ∈ m.entries, e.2 = e'.2 → ∀ i < e.1.nibbles.length + 1,
      ∀ j < e'.1.nibbles.length + 1, LeafDepth m.paths e.1.nibbles i →
        LeafDepth m.paths e'.1.nibbles j → e.1.nibbles.drop i = e'.1.nibbles.drop j → i = j := by
  constructor
  · rintro ⟨hs, ha⟩
    refine ⟨fun q _ p _ heven => ?_, ?_⟩
    · rw [← nibbles_packPairs p heven]
      exact hs _
    · rintro ⟨p, v⟩ hp ⟨q, w⟩ hq (rfl : v = w) i _ j _
      exact ha p q v (mem_lookup_iff.mpr hp) (mem_lookup_iff.mpr hq) i j
  · rintro ⟨hs, ha⟩
    refine ⟨fun p hsnag => ?_, fun p q v hp hq i j hi hj => ?_⟩
    · obtain ⟨q, hq, -, -, -, hpre, -⟩ := hsnag.1
      exact hs q hq _ ((mem_inits _ _).mpr hpre) (by rw [length_nibbles]; omega) hsnag
    · exact ha ⟨p, v⟩ (mem_lookup_iff.mp hp) ⟨q, v⟩ (mem_lookup_iff.mp hq) rfl i
        (Nat.lt_succ_of_le hi.1) j (Nat.lt_succ_of_le hj.1) hi hj

instance (m : ShortMap n) : Decidable m.Legible := decidable_of_iff _ legible_iff.symm

end ShortMap

/-- Any leaf may be read. -/
def Marks.all (n : Nat) : Marks n := .sized (fun _ => True) fun _ _ _ => trivial

/-- The tree holds the pairs of the map, and nothing under the empty path. -/
structure Spells {n : Nat} (t : Contents n) (m : ShortMap n) : Prop where
  lookup : ∀ p : ShortPath n, t.lookup p.nibbles = m.lookup p
  empty : t.lookup [] = none

namespace Spells

variable {v : Value n}

theorem nil : Spells (.nil : Contents n) ∅ := ⟨fun _ => by simp, rfl⟩

theorem insert (h : Spells t m) (p : ShortPath n) (v : Value n) :
    Spells (t.insert p.nibbles v) (m.insert p v) := by
  constructor
  · intro q
    rw [Tree.lookup_insert]
    by_cases hq : q = p
    · subst hq
      rw [if_pos rfl, lookup_insert]
    · rw [if_neg fun he => hq (ShortPath.nibbles_injective he), lookup_insert_ne hq, h.lookup q]
  · have hne : ¬ [] = p.nibbles := by
      intro he
      exact p.2.1 (nibbles_injective (he.symm.trans nibbles_nil.symm))
    rw [Tree.lookup_insert, if_neg hne]
    exact h.empty

theorem exists_path (h : Spells t m) (hr : Ragged [] t)
    (hk : t.lookup k = some v) : ∃ p : ShortPath n, p.nibbles = k ∧ m.lookup p = some v := by
  obtain ⟨heven, hle⟩ := hr.keys k v hk
  rw [length_nil, Nat.zero_add] at heven hle
  have hn := nibbles_packPairs k heven
  have hlen := length_packPairs k
  have hne : packPairs k ≠ [] := by
    intro he
    rw [he, nibbles_nil] at hn
    rw [← hn, h.empty] at hk
    cases hk
  exact ⟨⟨packPairs k, hne, by omega⟩, hn, (h.lookup _).symm.trans ((congrArg t.lookup hn).trans hk)⟩

theorem mem_paths (h : Spells t m) (hr : Ragged [] t) :
    k ∈ m.paths ↔ ∃ v, t.lookup k = some v := by
  rw [ShortMap.mem_paths]
  constructor
  · rintro ⟨p, v, hv, rfl⟩
    exact ⟨v, (h.lookup p).trans hv⟩
  · rintro ⟨v, hv⟩
    obtain ⟨p, hp, hm⟩ := h.exists_path hr hv
    exact ⟨p, v, hm, hp⟩

theorem exists_beside (h : Spells t m) (hr : Ragged [] t) {u : Contents n}
    (hk : t.Stands k u) (hu : ¬ u.IsBranch) (hne : k ≠ []) :
    ∃ q ∈ m.paths, k.dropLast <+: q ∧ ¬ k <+: q := by
  obtain ⟨k', x, cs, w, rfl, hb, -⟩ := hk.above hr.canonical hu hne
  obtain ⟨q, v, hv, hbeside⟩ := (hb.canonical hr.canonical).exists_key_beside x
  refine ⟨k' ++ q, (h.mem_paths hr).mpr ⟨v, (hb.lookup q).trans hv⟩, by simp, ?_⟩
  rintro ⟨r, hr⟩
  rw [append_assoc] at hr
  exact hbeside r (append_cancel_left hr).symm

/-- A byte ends inside an extension that does not start within the first byte. -/
theorem snag (h : Spells t m) (hr : Ragged [] t) {c : Contents n}
    (hk : t.Stands k (.ext s c)) (hdeep : 2 ≤ k.length) (hlo : k.length ≤ b)
    (hhi : b < k.length + s.length) : Snag m.paths ((k ++ s).take b) := by
  obtain ⟨-, hcb, hcc⟩ := hk.canonical hr.canonical
  have hkp : k <+: (k ++ s).take b := by
    rw [take_append]
    exact ⟨_, by rw [take_of_length_le hlo]⟩
  refine ⟨?_, ?_, ?_⟩
  · -- two keys below the branch the extension leads to
    obtain ⟨q, q', v, v', hne, hq, hq'⟩ := hcc.exists_two_keys hcb
    have hmem : ∀ {q v}, c.lookup q = some v → k ++ s ++ q ∈ m.paths := fun hq =>
      (h.mem_paths hr).mpr ⟨_, (hk.ext.lookup _).trans hq⟩
    have hpre : ∀ q, (k ++ s).take b <+: k ++ s ++ q := fun q =>
      ( take_prefix b _).trans (prefix_append _ q)
    exact ⟨_, hmem hq, _, hmem hq', fun he => hne (append_cancel_left he), hpre q, hpre q'⟩
  · -- a key that starts with `k` goes through the whole extension
    refine ⟨(k ++ s).get ⟨b, by simpa using hhi⟩, fun q hq hpre => ?_⟩
    obtain ⟨q', rfl⟩ := hkp.trans hpre
    obtain ⟨v, hv⟩ := (h.mem_paths hr).mp hq
    rw [hk.lookup, Tree.lookup_ext] at hv
    have hsq : s <+: q' := by
      by_contra hn
      rw [if_neg hn] at hv
      cases hv
    rw [get_eq_getElem, take_append_getElem]
    exact ( take_prefix _ _).trans ((prefix_append_right_inj k).mpr hsq)
  · have hne : k ≠ [] := by rintro rfl; simp at hdeep
    obtain ⟨q, hq, hpre, hnot⟩ := h.exists_beside hr hk (by exact id) hne
    refine ⟨q, hq, ?_, fun hp => hnot (hkp.trans hp)⟩
    have hpos : k.dropLast ≠ [] := by
      intro he
      have := congrArg List.length he
      rw [length_dropLast, length_nil] at this
      omega
    obtain ⟨x, l, hx⟩ := exists_cons_of_ne_nil hpos
    obtain ⟨q', rfl⟩ := hpre
    obtain ⟨p', hp'⟩ := ( dropLast_prefix k).trans hkp
    rw [← hp', hx]
    rfl

theorem leafDepth (h : Spells t m) (hr : Ragged [] t)
    (hk : t.Stands k (.leaf r v)) : LeafDepth m.paths (k ++ r) k.length := by
  refine ⟨by simp, fun q hq hpre => ?_, ?_⟩
  · rw [take_left] at hpre
    obtain ⟨q', rfl⟩ := hpre
    obtain ⟨w, hw⟩ := (h.mem_paths hr).mp hq
    rw [hk.lookup, Tree.lookup_leaf] at hw
    split at hw
    · rename_i he; rw [he]
    · cases hw
  · by_cases hne : k = []
    · exact .inl (by rw [hne]; rfl)
    · obtain ⟨q, hq, hpre, hnot⟩ := h.exists_beside hr hk (by exact id) hne
      refine .inr ⟨q, hq, fun he => hnot (he ▸ prefix_append k r), ?_⟩
      rwa [take_append_of_le_length (by omega), ← dropLast_eq_take]

theorem apart (h : Spells t m) (hr : Ragged [] t) (hm : m.Legible) :
    Apart (fun _ => True) t := by
  intro k k' r v _ hk hk'
  have hkey : ∀ {k}, t.Stands k (.leaf r v) → t.lookup (k ++ r) = some v := fun hk => by
    rw [hk.lookup, Tree.lookup_leaf, if_pos rfl]
  obtain ⟨p, hp, hmp⟩ := h.exists_path hr (hkey hk)
  obtain ⟨q, hq, hmq⟩ := h.exists_path hr (hkey hk')
  refine hm.unaliased p q v hmp hmq _ _ (hp ▸ h.leafDepth hr hk) (hq ▸ h.leafDepth hr hk') ?_
  rw [hp, hq, drop_left, drop_left]

theorem clear (h : Spells t m) (hr : Ragged [] t) (hm : m.Legible) (p : ByteString) :
    Clear (.all n) 0 t (nibbles p) := by
  refine ⟨fun _ _ => trivial, fun {k s c} hk hpre => ?_⟩
  by_contra hstuck
  have hle := hpre.length_le
  rw [length_nibbles] at hstuck hle
  -- only an extension within the first byte takes more bytes than the path
  have hsnag := h.snag hr hk (b := 2 * p.length) (by omega) (by omega) (by omega)
  refine hm.unsnagged (packPairs ((k ++ s).take (2 * p.length))) ?_
  rwa [nibbles_packPairs _ (by rw [length_take, length_append]; omega)]

end Spells

/-! ## Runs -/

section

variable {n : Nat}

/-- The last value of each path. -/
def ShortMap.ofInserts (iter : List (ShortPath n × Value n)) : ShortMap n :=
  iter.foldl (fun m (p, v) => m.insert p v) ∅

/-- The value that was inserted last at a path. -/
def lastInserted (iter : List (ShortPath n × Value n)) (p : ByteString) : Option ByteString :=
  (iter.reverse.find? fun e => e.1.1 == p).map fun e => e.2.1

variable [Keccak256] {δ : Type} [TrieDB δ]

def insertPair : ShortPath n × Value n → Exec (Trie δ) TrieError Unit
  | (p, v) => Trie.insert p.1 v.1

def Trie.ofInserts (db : δ) (iter : List (ShortPath n × Value n)) : Trie δ :=
  (Exec.forEach insertPair iter (Trie.new db)).2

def insertsEncodings (db : δ) (iter : List (ShortPath n × Value n)) : List ByteString :=
  iter.inits.flatMap fun a => (Trie.ofInserts db a).state.encodings

omit [Keccak256] in
theorem lastInserted_eq (iter : List (ShortPath n × Value n)) {p : ByteString} (hp : p ≠ []) :
    lastInserted iter p = if h : p.length ≤ n then
      ((ShortMap.ofInserts iter).lookup ⟨p, hp, h⟩).map Subtype.val else none := by
  induction iter using List.reverseRecOn with
  | nil => split <;> rfl
  | append_singleton iter e ih =>
    obtain ⟨q, v⟩ := e
    have hmap : ShortMap.ofInserts (iter ++ [(q, v)]) = (ShortMap.ofInserts iter).insert q v := by
      rw [ShortMap.ofInserts, foldl_append]; rfl
    have hlast : lastInserted (iter ++ [(q, v)]) p = if q.1 = p then some v.1 else lastInserted iter p := by
      rw [lastInserted, reverse_append, reverse_singleton, singleton_append,
        List.find?_cons]
      by_cases hq : q.1 = p
      · simp [hq]
      · have hb : (q.1 == p) = false := by simpa using hq
        simp only [hb, if_neg hq]
        rfl
    rw [hmap, hlast, ih]
    by_cases hq : q.1 = p
    · subst hq
      rw [if_pos rfl, dif_pos q.2.2, lookup_insert]
      rfl
    · rw [if_neg hq]
      split
      · rw [lookup_insert_ne fun he => hq (congrArg Subtype.val he).symm]
      · rfl

/-- A trie into which paths of any length are inserted is a finite map and never panics, while
the map is legible. -/
theorem ofInserts_finiteMap (db : δ) (iter : List (ShortPath n × Value n))
    (hkec : Set.InjOn kec {e | e ∈ insertsEncodings db iter})
    (hlegible : ∀ a, a <+: iter → (ShortMap.ofInserts a).Legible) (a : List (ShortPath n × Value n))
    (ha : a <+: iter) :
    (Exec.forEach insertPair a (Trie.new db)).1 = .ok () ∧
    ∀ p : ByteString, p ≠ [] → (Trie.ofInserts db a).get p = .ok (lastInserted a p) := by
  have hstep : ∀ as e self, as ++ [e] <+: iter →
      Exec.forEach insertPair as (Trie.new db) = (.ok (), self) →
      (∃ t : Contents n, Holding (.all n) self t ∧ Spells t (ShortMap.ofInserts as)) →
      ∃ b self', insertPair e self = (.ok b, self') ∧
        ∃ t : Contents n, Holding (.all n) self' t ∧ Spells t (ShortMap.ofInserts (as ++ [e])) := by
    rintro as ⟨p, v⟩ self has hrun ⟨t, hc, hs⟩
    have hmap : ShortMap.ofInserts (as ++ [(p, v)]) = (ShortMap.ofInserts as).insert p v := by
      rw [ShortMap.ofInserts, List.foldl_append]; rfl
    have hs' := hs.insert p v
    have hr' : Ragged [] (t.insert p.nibbles v) :=
      Along.ragged (.new p.2.2) hc.fit v
    have hclear := hs.clear hc.fit (hlegible as ((List.prefix_append as _).trans has)) p.1
    rw [← hmap] at hs'
    let σ : Site n (.all n) := .within (t.insert p.nibbles v) hr' (hs'.apart hr' (hlegible _ has))
    have hfits : σ.fits [] (t.insert p.nibbles v) := .root
    obtain ⟨self', hins, -, hcarry⟩ := Trie.insert_run hc p.2.2 v trivial hclear hfits
    have hpair : insertPair (p, v) self = (.ok (), self') := hins
    refine ⟨(), self', hpair, _, hcarry ?_, hs'⟩
    refine hkec.mono fun e he => List.mem_flatMap.mpr ⟨as ++ [(p, v)], (List.mem_inits _ _).mpr has, ?_⟩
    rw [Trie.ofInserts, Exec.forEach_snoc hrun hpair]
    exact he
  obtain ⟨self, hrun, t, hc, hs⟩ := Exec.forEach_invariant _ ⟨.nil, .new db, .nil⟩ hstep a ha
  refine ⟨by rw [hrun], fun p hp => ?_⟩
  rw [Trie.ofInserts, hrun, Trie.get_run hc p (hs.clear hc.fit (hlegible a ha) p),
    lastInserted_eq a hp]
  split
  · rw [← hs.lookup]
  · rename_i hlen
    cases hl : t.lookup (nibbles p) with
    | none => rfl
    | some v =>
      have := (hc.fit.keys _ v hl).2
      exact absurd (show p.length ≤ n by simp at this; omega) hlen

@[reducible] def shortKeccak : Keccak256 := Keccak256.ofTable [
  (beBytes 5 0xc482201107, 0x855be18ce0be73a1f424d8277112c74c1100b73e7b3c29fd2ebe36122342cc4a),
  (beBytes 24 0xd7820011d38080c232088080808080808080808080808007,
    0x3a0709b90870f5223998156886e93c462a54134ef5570012313ddeaa9860c2e0),
  (beBytes 20 0xd38080c232088080808080808080808080808007,
    0x73bc5d7ae826b00817e94b7ce6320408cdfc79d306d0fefee34ee91f18ea0b36),
  (beBytes 3 0xc23208, 0xfdcd8a5c492cd3bab3ce62bb0545c2abd3f204a740095ea5293cfe56a9628c16),
  (beBytes 41 0xe880d511d38080c232088080808080808080808080808007c231098080808080808080808080808080,
    0xc2a3a5a4fa7d5c02aded67839881a55cc1f901555ef472d9a19480ec8faa8338),
  (beBytes 3 0xc23109, 0x19fadfc7fa07d016de6a12e476256e79741e331ff0808362f2c1535cc62c0502),
  (beBytes 22 0xd511d38080c232088080808080808080808080808007,
    0xe26c8a064da390fb06371ede1c7e9f470e46e341f2ca736d1c9465e51d65f4c3),
  (beBytes 8 0xc785201122334407, 0x5aa5b149f641c4e5309446f44add14adbe749799fad3830eeded86ad895fc2f5),
  (beBytes 28 0xdb8400112233d580808080c23407c235088080808080808080808080,
    0x0f71c15c769a2c6f46de0730bd8e09cb945ebdc21e2de998921d473eb55f9f38),
  (beBytes 22 0xd580808080c23407c235088080808080808080808080,
    0x5aafdd0ecb702a386e536a62c52dd1861e379ba6066c9b6aff8ec5d214f640d6),
  (beBytes 3 0xc23407, 0xb0c902174c29549e8400c7ee1374eb0eb7902e4a941f1a889d50986a92627ed3),
  (beBytes 3 0xc23508, 0xafdcb7598672b38b58ba1d8e60678a1ed954f50759469f4bd9e76db54a0701e5),
  (beBytes 37 0xe4820011a038122f1bcb90ec3601c3e6a02e4d4349f27dba9face4198611d99616cc5f6460,
    0xa9c4c4747933904e72fd9b3e72c71ad78ba7c1e0e6b586c00b1ecee0a45a2078),
  (beBytes 45
      0xec8080d9821233d580808080c23407c235088080808080808080808080808080808080c2390980808080808080,
    0x38122f1bcb90ec3601c3e6a02e4d4349f27dba9face4198611d99616cc5f6460),
  (beBytes 3 0xc23909, 0x8f579ad3307152827be87c2f7b75ec5cbbd8193ebf7edf9e8227864583d0aca4),
  (beBytes 26 0xd9821233d580808080c23407c235088080808080808080808080,
    0xaef69cf47bfd3317c67570b9dc70f079ba654b586dc1d0798d06cb973ec2a95a),
  (beBytes 24 0xd780c23107c4823221078080808080808080808080808080,
    0x6c6724105d23d1966a27c373e6e37c7d86635b85181d97d1040ad7e076bbbc9b),
  (beBytes 3 0xc23107, 0x855254d805691f5b6720341f62de881f1620369ec8b57605928d0a3fdef8bc56),
  (beBytes 5 0xc482322107, 0x779343acfd53a58d1827b98ff95eaef853d34dd97581d569071f115b6bd44cc4),
  (beBytes 43
      0xea80c23107d712d58080c23107c23108808080808080808080808080808080808080808080808080808080,
    0xa184aaa50f0ba833c4b8e4b090bbead721c3e685a69638df2fc17415568a9e00),
  (beBytes 24 0xd712d58080c23107c2310880808080808080808080808080,
    0xd80b6ef6b315f68551fdf67ff42382ae88db2fd3b68c588ce72c316cf899e876),
  (beBytes 22 0xd58080c23107c2310880808080808080808080808080,
    0x96eed1d1897e37d057138caaebe60839cd1fc8022d042d219330a38e8c180171),
  (beBytes 3 0xc23108, 0x7009b370fdafddbb4ed272099ef9d7f43a95073670cdb11450000c491f9f9598)]

def oneByte (b : UInt8) : ShortPath 2 := ⟨[b], by simp⟩
def twoBytes (b c : UInt8) : ShortPath 2 := ⟨[b, c], by simp⟩
def shortValue (b : UInt8) : Value 2 := ⟨[b], by simp⟩

def sampleInserts : List (ShortPath 2 × Value 2) :=
  [(oneByte 0x11, shortValue 7), (twoBytes 0x11 0x22, shortValue 8),
    (oneByte 0x21, shortValue 9)]

omit [Keccak256] in
theorem ofInserts_finiteMap_sample :
    letI := shortKeccak
    (Exec.forEach insertPair sampleInserts (Trie.new NullTrieDB.mk)).1 = .ok () ∧
      (Trie.ofInserts NullTrieDB.mk sampleInserts).get [0x11] = .ok (some [7]) ∧
      (Trie.ofInserts NullTrieDB.mk sampleInserts).get [0x11, 0x22] = .ok (some [8]) := by
  let := shortKeccak
  have hinj : ∀ x ∈ insertsEncodings NullTrieDB.mk sampleInserts,
      ∀ y ∈ insertsEncodings NullTrieDB.mk sampleInserts, kec x = kec y → x = y := by decide +kernel
  have hlegible : ∀ a ∈ sampleInserts.inits, (ShortMap.ofInserts a).Legible := by decide +kernel
  obtain ⟨hrun, hget⟩ := ofInserts_finiteMap NullTrieDB.mk sampleInserts
    (fun x hx y hy => hinj x hx y hy) (fun a ha => hlegible a ((List.mem_inits _ _).mpr ha))
    sampleInserts List.prefix_rfl
  exact ⟨hrun, hget [0x11] (by simp), hget [0x11, 0x22] (by simp)⟩

def snagInserts : List (ShortPath 4 × Value 4) :=
  [(⟨[0x11, 0x22, 0x33, 0x44], by simp⟩, ⟨[7], by simp⟩),
    (⟨[0x11, 0x22, 0x33, 0x55], by simp⟩, ⟨[8], by simp⟩), (⟨[0x11, 0x99], by simp⟩, ⟨[9], by simp⟩)]

def sharedInserts : List (ShortPath 2 × Value 2) :=
  [(oneByte 0x11, shortValue 7), (twoBytes 0x22 0x21, shortValue 7),
    (twoBytes 0x22 0x31, shortValue 8)]

omit [Keccak256] in
/-- After three insertions a path that ends inside an extension can be neither looked up nor
inserted; and in another run a value is lost to a deeper leaf with the same rest and value. -/
theorem ofInserts_snag :
    letI := shortKeccak
    ((∀ x ∈ insertsEncodings NullTrieDB.mk snagInserts,
        ∀ y ∈ insertsEncodings NullTrieDB.mk snagInserts, kec x = kec y → x = y) ∧
      (Exec.forEach insertPair snagInserts (Trie.new NullTrieDB.mk)).1 = .ok () ∧
      (Trie.ofInserts NullTrieDB.mk snagInserts).get [0x11, 0x22] =
        .error (.panic "range out of bounds for slice") ∧
      (Trie.insert [0x11, 0x22] [7] (Trie.ofInserts NullTrieDB.mk snagInserts)).1 =
        .error (.panic "range out of bounds for slice")) ∧
    (∀ x ∈ insertsEncodings NullTrieDB.mk sharedInserts,
        ∀ y ∈ insertsEncodings NullTrieDB.mk sharedInserts, kec x = kec y → x = y) ∧
      lastInserted sharedInserts [0x11] = some [7] ∧
      (Trie.ofInserts NullTrieDB.mk sharedInserts).get [0x11] = .ok none := by
  decide +kernel

end
end EthereumRust.Mpt
