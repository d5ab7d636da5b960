import EthereumRust.Trie.Ragged.FiniteMap

/-! # Insertions and removals of paths of any length

A call that returns has walked the trie clear of what would make it panic, so all that is
asked of a run is that its calls return and that no removal passes a branch with a value
below which two other paths stay (`ShortMap.Removable`). -/

namespace EthereumRust.Mpt
open Nibble Rlp List

/-! ## Calls that return -/

section

variable [Keccak256] {n : Nat} {δ : Type} [TrieDB δ] {t : Contents n} {st : TrieState δ}

omit [Keccak256] in
theorem Clear.of_lookup {v : Value n}
    (h : t.lookup p = some v) : Clear (.own n) o t p := by
  induction t generalizing p o with
  | nil => exact .of_nil
  | leaf r w => exact .of_leaf trivial
  | ext s c ih =>
    have hsp : s <+: p := by
      by_contra hsp
      rw [Tree.lookup_ext_none hsp] at h
      cases h
    refine .of_ext (.inl hsp.length_le) ?_
    rintro q rfl
    exact ih (by simpa using h)
  | branch cs w ih =>
    refine .of_branch ?_
    rintro x q rfl
    exact ih x h

omit [Keccak256] in
theorem Clear.of_skipPrefix {μ : Marks n} {c : Contents n} {pfx : NibbleVec}
    (hp : Along m path pre p) (hpfx : pfx.Holds s)
    (half : pfx.firstIsHalf = (pre.length % 2 != 0))
    (hskip : ∀ msg, (path.skipPrefix pfx : Outcome TrieError _) ≠ .error (.panic msg))
    (h : ∀ q, p = s ++ q → Clear μ (pre ++ s).length c q) : Clear μ pre.length (.ext s c) p := by
  have hsize := hp.size
  refine .of_ext ?_ fun q hq => by rw [← length_append]; exact h q hq
  by_contra hstuck
  refine hskip _ (hp.skipPrefix_stuck hpfx half fun hs => hstuck ?_)
  omega

/-- Calls on the nodes of a state that survive only if the rest of the walk does. -/
structure Walks (st : TrieState δ) (survives : Nat → Node → NibbleSlice → Prop) : Prop where
  skips : ∀ {fuel e path}, survives (fuel + 1) (.extension e) path →
    ∀ msg, (path.skipPrefix e.pfx : Outcome TrieError (Bool × NibbleSlice)) ≠ .error (.panic msg)
  ext : ∀ {fuel e path path'}, survives (fuel + 1) (.extension e) path →
    (path.skipPrefix e.pfx : Outcome TrieError _) = .ok (true, path') →
    ∀ child, st.expectNode e.child = .ok child → survives fuel child path'
  branch : ∀ {fuel b path x path'}, survives (fuel + 1) (.branch b) path → path.next = some (x, path') →
    (b.choices x).isValid = true → ∀ child, st.expectNode (b.choices x) = .ok child →
      survives fuel child path'

/-- A call that survived had a clear walk. -/
theorem Walks.clear {survives : Nat → Node → NibbleSlice → Prop} (hw : Walks st survives)
    (hr : Ragged pre t) (hs : Matches (.own n) pre t node) (hk : StoredBelow (.own n) st pre t)
    (hp : Along m path pre p) (hfuel : p.length < fuel) (h : survives fuel node path) :
    Clear (.own n) pre.length t p := by
  induction t generalizing pre p path node fuel with
  | nil => exact absurd rfl hs.ne_nil
  | leaf r w => exact .of_leaf trivial
  | ext s c ih =>
    obtain ⟨hne, hb, -⟩ := hr.canonical
    cases fuel with
    | zero => omega
    | succ fuel =>
      cases hs with
      | ext hpfx half =>
        refine .of_skipPrefix hp hpfx half (hw.skips h) ?_
        rintro q rfl
        obtain ⟨child, -, hc, hsc⟩ := Stored.expectNode (show Stored (.own n) st (pre ++ s) c from hk)
          (by rintro rfl; exact hb)
        have hskip := hp.skipPrefix hpfx half hne (.inl (by simp))
        rw [if_pos (prefix_append s q)] at hskip
        have hspos := length_pos_iff.mpr hne
        rw [length_append] at hfuel
        exact ih hr.ext_child hsc (Stored.below hk) (hp.step rfl) (by omega) (hw.ext h hskip child hc)
  | branch cs w ih =>
    obtain ⟨b, rfl, hchoices⟩ := hs.exists_branch
    cases fuel with
    | zero => omega
    | succ fuel =>
      refine .of_branch ?_
      rintro x q rfl
      obtain ⟨hnext, hq⟩ := hp.next
      rw [length_cons] at hfuel
      by_cases hx : cs x = .nil
      · rw [hx]
        exact .of_nil
      · obtain ⟨child, -, hc, hsc⟩ :=
          Stored.expectNode (show Stored (.own n) st (pre ++ [x]) (cs x) from hk x) hx
        have hrec := hw.branch h hnext (by rw [hchoices]; exact (isValid_ref (cs x)).mpr hx) child
          (by rw [hchoices]; exact hc)
        have := ih x (hr.branch_child x) hsc (Stored.below (hk x)) hq (by omega) hrec
        rwa [length_append] at this

omit [Keccak256] in
theorem Node.get_walks (st : TrieState δ) :
    Walks st fun fuel node path => ∃ r, Node.get fuel st node path = .ok r where
  skips := by
    rintro fuel e path ⟨r, h⟩ msg hskip
    rw [Node.get, ExtensionNode.get, hskip] at h
    cases h
  ext := by
    rintro fuel e path path' ⟨r, h⟩ hskip child hc
    rw [Node.get, ExtensionNode.get, hskip] at h
    exact ⟨r, by simpa [hc] using h⟩
  branch := by
    rintro fuel b path x path' ⟨r, h⟩ hnext hvalid child hc
    rw [Node.get, BranchNode.get] at h
    exact ⟨r, by simpa [hnext, hvalid, hc] using h⟩

omit [Keccak256] in
theorem expectNode_of_expect
    (hc : st.expectNode h = .ok child) : expectNode h st = (.ok child, st) := by
  rw [expectNode, hc]

theorem Node.insert_walks (v : ByteString) (st : TrieState δ) :
    Walks st fun fuel node path => (Node.insert fuel node path v).Survives st where
  skips := by
    intro fuel e path h msg hskip
    exact h.first msg hskip
  ext := by
    intro fuel e path path' h hskip child hc
    have hcall : call (path.skipPrefix e.pfx) st = (.ok (true, path'), st) := by rw [call, hskip]
    have h := h.rest hcall
    exact (h.rest (expectNode_of_expect hc)).first
  branch := by
    intro fuel b path x path' h hnext hvalid child hc
    rw [Node.insert, BranchNode.insert, hnext] at h
    simp only [hvalid] at h
    exact (h.rest (expectNode_of_expect hc)).first

theorem Node.remove_walks (st : TrieState δ) :
    Walks st fun fuel node path => (Node.remove fuel node path).Survives st where
  skips := by
    intro fuel e path h msg hskip
    exact h.first msg hskip
  ext := by
    intro fuel e path path' h hskip child hc
    have hcall : call (path.skipPrefix e.pfx) st = (.ok (true, path'), st) := by rw [call, hskip]
    have h := h.rest hcall
    exact (h.rest (expectNode_of_expect hc)).first
  branch := by
    intro fuel b path x path' h hnext hvalid child hc
    rw [Node.remove, BranchNode.remove, BranchNode.removeValue, hnext] at h
    simp only [hvalid] at h
    exact (h.first.rest (expectNode_of_expect hc)).first

end

section

variable [Keccak256] {n : Nat} {δ : Type} [TrieDB δ] {self : Trie δ}

omit [TrieDB δ] [Keccak256] in
theorem survives_of_onState {α β : Type} {x : TrieM δ α} {f : α → Exec (Trie δ) TrieError β}
    {st : TrieState δ} (h : (Trie.onState x >>= f).Survives ⟨root, st⟩) :
    x.Survives st := fun msg hm => h.first msg (by rw [Trie.onState, Exec.run_zoom, hm])

theorem Holding.get_clear (h : Holding (.own n) self t) (hget : self.get p = .ok r) :
    Clear (.own n) 0 t (nibbles p) := by
  by_cases hn : t = .nil
  · subst hn
    exact .of_nil
  · obtain ⟨node, hg, hs⟩ := h.rootNode hn
    rw [Trie.get, h.root, rootRef_of_ne hn] at hget
    simp only [TrieState.expectNode, hg] at hget
    exact (Node.get_walks self.state).clear h.fit hs h.stored.below (.new le_rfl)
      (nibbles_length_lt_depth p) ⟨r, hget⟩

theorem Holding.insert_clear (h : Holding (.own n) self t)
    (hins : (Trie.insert p v).Survives self) : Clear (.own n) 0 t (nibbles p) := by
  by_cases hn : t = .nil
  · subst hn
    exact .of_nil
  · obtain ⟨node, hg, hs⟩ := h.rootNode hn
    have hset : Trie.setRoot none self = (.ok (), Trie.mk none self.state) := rfl
    have hroot : Trie.rootNode self.root (Trie.mk none self.state) =
        (.ok (some node), Trie.mk none self.state) := by
      rw [h.root, rootRef_of_ne hn, Trie.rootNode, hg]
    have hins := ((hins.rest (Exec.run_get self)).rest hset).rest hroot
    exact (Node.insert_walks v self.state).clear h.fit hs h.stored.below (.new le_rfl)
      (nibbles_length_lt_depth p) (survives_of_onState hins)

theorem Holding.remove_clear (h : Holding (.own n) self t) (hrem : (Trie.remove p).Survives self) :
    Clear (.own n) 0 t (nibbles p) := by
  by_cases hn : t = .nil
  · subst hn
    exact .of_nil
  · obtain ⟨node, hg, hs⟩ := h.rootNode hn
    have hset : Trie.setRoot none self = (.ok (), Trie.mk none self.state) := rfl
    have hexp : Trie.onState (expectNode (ref t)) (Trie.mk none self.state) =
        (.ok node, Trie.mk none self.state) := by
      rw [Trie.onState, Exec.run_zoom, expectNode_run hg]
    have hrem := (hrem.rest (Exec.run_get self)).rest hset
    rw [h.root, rootRef_of_ne hn] at hrem
    exact (Node.remove_walks self.state).clear h.fit hs h.stored.below (.new le_rfl)
      (nibbles_length_lt_depth p) (survives_of_onState (hrem.rest hexp))

end

/-! ## Runs -/

section

variable {n : Nat}

/-- An insertion or a removal, for a path of any length. -/
inductive ShortEdit (n : Nat) where
  | insert (path : ShortPath n) (value : Value n)
  | remove (path : ShortPath n)

namespace ShortEdit

def path : ShortEdit n → ShortPath n
  | .insert path _ => path
  | .remove path => path

def value : ShortEdit n → Option ByteString
  | .insert _ value => some value.1
  | .remove _ => none

def call [Keccak256] {δ : Type} [TrieDB δ] : ShortEdit n → Exec (Trie δ) TrieError (Option ByteString)
  | .insert path value => do
    Trie.insert path.1 value.1
    pure none
  | .remove path => Trie.remove path.1

end ShortEdit

def lastEdit (ops : List (ShortEdit n)) (p : ByteString) : Option (ShortEdit n) :=
  ops.reverse.find? fun e => e.path.1 == p

namespace ShortMap

def edit (m : ShortMap n) : ShortEdit n → ShortMap n
  | .insert path value => m.insert path value
  | .remove path => m.erase path

def ofEdits (ops : List (ShortEdit n)) : ShortMap n := ops.foldl edit ∅

def Distinct (m : ShortMap n) : Prop := ∀ p q v, m.lookup p = some v → m.lookup q = some v → p = q

instance (m : ShortMap n) : Decidable m.Distinct := decidable_of_iff _ HashMap.injective_iff_nodup.symm

/-- Below a stored path that `p` goes on from, at most one other path is stored. -/
def Removable (m : ShortMap n) (p : ByteString) : Prop :=
  ∀ q ∈ m.keys, q.1 <+: p → q.1 ≠ p → ∀ r ∈ m.keys, ∀ r' ∈ m.keys, q.1 <+: r.1 → q.1 <+: r'.1 →
    r.1 ≠ p → r'.1 ≠ p → r ≠ q → r' ≠ q → r = r'

instance (m : ShortMap n) (p : ByteString) : Decidable (m.Removable p) := by
  unfold Removable; infer_instance

theorem ofEdits_snoc (ops : List (ShortEdit n)) (e : ShortEdit n) :
    ofEdits (ops ++ [e]) = (ofEdits ops).edit e := by
  rw [ofEdits, foldl_append]
  rfl

theorem lookup_edit (m : ShortMap n) (e : ShortEdit n) (p : ShortPath n) :
    ((m.edit e).lookup p).map Subtype.val =
      if e.path = p then e.value else (m.lookup p).map Subtype.val := by
  by_cases hp : e.path = p
  · subst hp
    cases e with
    | insert q v => simp [edit, ShortEdit.path, ShortEdit.value]
    | remove q => simp [edit, ShortEdit.path, ShortEdit.value]
  · rw [if_neg hp]
    cases e with
    | insert q v => rw [edit, AList.lookup_insert_ne fun (h : p = q) => hp h.symm]
    | remove q => rw [edit, AList.lookup_erase_ne fun (h : p = q) => hp h.symm]

end ShortMap

theorem lastEdit_eq (ops : List (ShortEdit n)) {p : ByteString} (hp : p ≠ []) :
    (lastEdit ops p).bind ShortEdit.value = if h : p.length ≤ n then
      ((ShortMap.ofEdits ops).lookup ⟨p, hp, h⟩).map Subtype.val else none := by
  induction ops using List.reverseRecOn with
  | nil => split <;> rfl
  | append_singleton ops e ih =>
    have hlast : lastEdit (ops ++ [e]) p = if e.path.1 = p then some e else lastEdit ops p := by
      rw [lastEdit, reverse_append, reverse_singleton, singleton_append, List.find?_cons]
      by_cases he : e.path.1 = p
      · simp [he]
      · have hb : (e.path.1 == p) = false := by simpa using he
        simp only [hb, if_neg he]
        rfl
    rw [hlast, ShortMap.ofEdits_snoc]
    by_cases he : e.path.1 = p
    · have hlen : p.length ≤ n := he ▸ e.path.2.2
      rw [if_pos he, dif_pos hlen, ShortMap.lookup_edit, if_pos (Subtype.ext he)]
      rfl
    · rw [if_neg he, ih]
      split
      · rw [ShortMap.lookup_edit, if_neg fun h => he (congrArg Subtype.val h)]
      · rfl

namespace Spells

variable {m : ShortMap n}

theorem erase (h : Spells t m) (p : ShortPath n) {t' : Contents n}
    (hl : ∀ q, t'.lookup q = if q = p.nibbles then none else t.lookup q) : Spells t' (m.erase p) := by
  constructor
  · intro q
    rw [hl]
    by_cases hq : q = p
    · subst hq
      rw [if_pos rfl, AList.lookup_erase]
    · rw [if_neg fun he => hq (ShortPath.nibbles_injective he), AList.lookup_erase_ne hq, h.lookup q]
  · rw [hl, h.empty]
    split <;> rfl

theorem distinct (h : Spells t m) (hr : Ragged [] t) (hd : m.Distinct) (k k' : List Nibble) (v : Value n)
    (hk : t.lookup k = some v) (hk' : t.lookup k' = some v) : k = k' := by
  obtain ⟨p, rfl, hp⟩ := h.exists_path hr hk
  obtain ⟨q, rfl, hq⟩ := h.exists_path hr hk'
  rw [hd p q v hp hq]

theorem spare (h : Spells t m) (hr : Ragged [] t) (hp : m.Removable p) :
    Spare t (nibbles p) := by
  have hkey : ∀ {k}, t.lookup k ≠ none → ∃ q : ShortPath n, q.nibbles = k ∧ q ∈ m.keys := by
    intro k hk
    obtain ⟨v, hv⟩ := Option.ne_none_iff_exists'.mp hk
    obtain ⟨q, hq, hm⟩ := h.exists_path hr hv
    exact ⟨q, hq, AList.mem_keys.mp (AList.lookup_isSome.mp (by rw [hm]; rfl))⟩
  intro k hkp hne hk r r' hr hr' hrp hrp' hrk hrk' hpre hpre'
  obtain ⟨q, rfl, hq⟩ := hkey hk
  obtain ⟨s, rfl, hs⟩ := hkey hr
  obtain ⟨s', rfl, hs'⟩ := hkey hr'
  have hval : ∀ {a : ShortPath n}, a.nibbles ≠ nibbles p → a.1 ≠ p := fun ha he => ha (congrArg nibbles he)
  have hsub : ∀ {a b : ShortPath n}, a.nibbles ≠ b.nibbles → a ≠ b := fun ha he => ha (he ▸ rfl)
  rw [hp q hq (isPrefix_of_nibbles hkp) (hval hne) s hs s' hs' (isPrefix_of_nibbles hpre)
    (isPrefix_of_nibbles hpre') (hval hrp) (hval hrp') (hsub hrk) (hsub hrk')]

end Spells

variable [Keccak256] {δ : Type} [TrieDB δ]

def Trie.ofShortEdits (db : δ) (ops : List (ShortEdit n)) : Trie δ :=
  (Exec.forEach ShortEdit.call ops (Trie.new db)).2

def shortEncodings (db : δ) (ops : List (ShortEdit n)) : List ByteString :=
  ops.inits.flatMap fun a => (Trie.ofShortEdits db a).state.encodings

/-- A call that does not panic does to the trie what it does to the map. -/
theorem ShortEdit.call_run {m : ShortMap n} {self : Trie δ} {t : Contents n} (h : Holding (.own n) self t)
    (hs : Spells t m) (hd : m.Distinct) (e : ShortEdit n) (hd' : (m.edit e).Distinct)
    (hrem : ∀ p, e = .remove p → m.Removable p.1) (hcall : e.call.Survives self) :
    ∃ reply self' t', e.call self = (.ok reply, self') ∧ Spells t' (m.edit e) ∧
      (CollisionFree self'.state → Holding (.own n) self' t') := by
  cases e with
  | insert p v =>
    have hs' := hs.insert p v
    have hr' : Ragged [] (t.insert p.nibbles v) := Along.ragged (.new p.2.2) h.fit v
    obtain ⟨self', hins, hh⟩ := Trie.insert_own h p.2.2 v (h.insert_clear hcall.first) (hs'.distinct hr' hd')
    refine ⟨none, self', _, ?_, hs', hh⟩
    rw [call, Exec.run_bind_ok hins]
    rfl
  | remove p =>
    obtain ⟨self', t', hrun, hl, hh⟩ := Trie.remove_own h p.2.2 (h.remove_clear hcall)
      (hs.spare h.fit (hrem p rfl)) (fun _ => hs.empty) (hs.distinct h.fit hd)
    exact ⟨_, self', t', hrun, hs.erase p hl, hh⟩

/-- In a run of insertions and removals without a panic, with different values under different
paths and every removal removable, a lookup finds what the last call on its path inserted. -/
theorem ofShortEdits_lastEdit (db : δ) (ops : List (ShortEdit n))
    (hkec : Set.InjOn kec {e | e ∈ shortEncodings db ops})
    (hdistinct : ∀ a, a <+: ops → (ShortMap.ofEdits a).Distinct)
    (hpanic : ∀ msg, (Exec.forEach ShortEdit.call ops (Trie.new db)).1 ≠ .error (.panic msg))
    (hrem : ∀ a p, a ++ [.remove p] <+: ops → (ShortMap.ofEdits a).Removable p.1)
    (a : List (ShortEdit n)) (ha : a <+: ops) :
    (Exec.forEach ShortEdit.call a (Trie.new db)).1 = .ok () ∧
    ∀ p : ByteString, p ≠ [] → ∀ v,
      (Trie.ofShortEdits db a).get p = .ok (some v) ↔ (lastEdit a p).bind ShortEdit.value = some v := by
  have hstep : ∀ as e self, as ++ [e] <+: ops →
      Exec.forEach ShortEdit.call as (Trie.new db) = (.ok (), self) →
      (∃ t : Contents n, Holding (.own n) self t ∧ Spells t (ShortMap.ofEdits as)) →
      ∃ b self', ShortEdit.call e self = (.ok b, self') ∧
        ∃ t : Contents n, Holding (.own n) self' t ∧ Spells t (ShortMap.ofEdits (as ++ [e])) := by
    rintro as e self has hrun ⟨t, hc, hs⟩
    obtain ⟨reply, self', t', hcall, hs', hc'⟩ := ShortEdit.call_run hc hs
      (hdistinct as ((List.prefix_append as _).trans has)) e
      (by rw [← ShortMap.ofEdits_snoc]; exact hdistinct _ has) (by rintro p rfl; exact hrem as p has)
      (Exec.Survives.forEach hpanic has hrun)
    refine ⟨reply, self', hcall, t', hc' ?_, by rw [ShortMap.ofEdits_snoc]; exact hs'⟩
    refine hkec.mono fun x hx => List.mem_flatMap.mpr ⟨as ++ [e], (List.mem_inits _ _).mpr has, ?_⟩
    rw [Trie.ofShortEdits, Exec.forEach_snoc hrun hcall]
    exact hx
  obtain ⟨self, hrun, t, hc, hs⟩ := Exec.forEach_invariant _ ⟨.nil, .new db, .nil⟩ hstep a ha
  refine ⟨by rw [hrun], fun p hp v => ?_⟩
  have hlook : (t.lookup (nibbles p)).map Subtype.val = (lastEdit a p).bind ShortEdit.value := by
    rw [lastEdit_eq a hp]
    split
    · rw [← hs.lookup]
    · rename_i hlen
      cases hl : t.lookup (nibbles p) with
      | none => rfl
      | some w =>
        have := (hc.fit.keys _ w hl).2
        exact absurd (show p.length ≤ n by simp at this; omega) hlen
  rw [Trie.ofShortEdits, hrun, ← hlook]
  constructor
  · intro hget
    rw [Trie.get_run hc p (hc.get_clear hget)] at hget
    exact Except.ok.inj hget
  · intro hv
    obtain ⟨w, hw, -⟩ := Option.map_eq_some_iff.mp hv
    rw [Trie.get_run hc p (.of_lookup hw), hv]

@[reducible] def editKeccak : Keccak256 := Keccak256.ofTable [
  (beBytes 5 0xc482201107, 0x855be18ce0be73a1f424d8277112c74c1100b73e7b3c29fd2ebe36122342cc4a),
  (beBytes 24 0xd7820011d38080c232088080808080808080808080808007,
    0x3a0709b90870f5223998156886e93c462a54134ef5570012313ddeaa9860c2e0),
  (beBytes 20 0xd38080c232088080808080808080808080808007,
    0x73bc5d7ae826b00817e94b7ce6320408cdfc79d306d0fefee34ee91f18ea0b36),
  (beBytes 3 0xc23208, 0xfdcd8a5c492cd3bab3ce62bb0545c2abd3f204a740095ea5293cfe56a9628c16),
  (beBytes 26 0xd9820011d58080c23208c2330980808080808080808080808007,
    0x07b52d589cd9dcae833a7401d0d49d9b52a5da768e93e2a4d3f55baeda3cc64e),
  (beBytes 22 0xd58080c23208c2330980808080808080808080808007,
    0xa88e6011673d6ae216e8524579ab4583115ce82684103364e871fb979f2de3e0),
  (beBytes 3 0xc23309, 0x8f1d5a520b52e060711040bc38d679aad3556761d7b2cef0f4e87f1562f38d89),
  (beBytes 24 0xd7820011d3808080c2330980808080808080808080808007,
    0x6ed4ec0cc2756ecaca3b7b9bfa628d7ea4e05611fd14937251ecd792cee060bd),
  (beBytes 20 0xd3808080c2330980808080808080808080808007,
    0x438b3c9e244b15869405c3dd5ff2f486862143dc67ebaec9b58df4286609f78a),
  (beBytes 28 0xdb820011d78080c23208c23309c2340a808080808080808080808007,
    0xf0b934b216792b2f409c8702cb353262622d8f6a2b5d968bb53f925fda59b67e),
  (beBytes 24 0xd78080c23208c23309c2340a808080808080808080808007,
    0x5c6d5d3902a5f1aca39dcf811a19708e53680e7a5304eaaa1778bbafc6946aeb),
  (beBytes 3 0xc2340a, 0xf69197037fd26f2df271d73d2d7b36cdc0c3acdcc26c618d4946b539b2af38ef)]

def fewEdits : List (ShortEdit 2) :=
  [.insert (oneByte 0x11) (shortValue 7), .insert (twoBytes 0x11 0x22) (shortValue 8),
    .insert (twoBytes 0x11 0x33) (shortValue 9), .remove (twoBytes 0x11 0x22)]

omit [Keccak256] in
theorem ofShortEdits_lastEdit_sample :
    letI := editKeccak
    (Exec.forEach ShortEdit.call fewEdits (Trie.new NullTrieDB.mk)).1 = .ok () ∧
      (Trie.ofShortEdits NullTrieDB.mk fewEdits).get [0x11] = .ok (some [7]) ∧
      (Trie.ofShortEdits NullTrieDB.mk fewEdits).get [0x11, 0x33] = .ok (some [9]) ∧
      (Trie.ofShortEdits NullTrieDB.mk fewEdits).get [0x11, 0x22] ≠ .ok (some [8]) := by
  let := editKeccak
  have hinj : ∀ x ∈ shortEncodings NullTrieDB.mk fewEdits,
      ∀ y ∈ shortEncodings NullTrieDB.mk fewEdits, kec x = kec y → x = y := by decide +kernel
  have hdistinct : ∀ a ∈ fewEdits.inits, (ShortMap.ofEdits a).Distinct := by decide +kernel
  have hpanic : (Exec.forEach ShortEdit.call fewEdits (Trie.new NullTrieDB.mk)).1 = .ok () := by
    decide +kernel
  have hrem : (ShortMap.ofEdits (fewEdits.take 3)).Removable [0x11, 0x22] := by decide +kernel
  obtain ⟨hrun, hget⟩ := ofShortEdits_lastEdit NullTrieDB.mk fewEdits
    (fun x hx y hy => hinj x hx y hy) (fun a ha => hdistinct a ((List.mem_inits _ _).mpr ha))
    (fun msg hmsg => by rw [hpanic] at hmsg; cases hmsg)
    (fun a p ha => by
      rcases a with _ | ⟨_, _ | ⟨_, _ | ⟨_, _ | ⟨_, a⟩⟩⟩⟩ <;> simp [fewEdits] at ha
      obtain ⟨rfl, rfl, rfl, rfl⟩ := ha
      exact hrem)
    fewEdits List.prefix_rfl
  refine ⟨hrun, (hget [0x11] (by simp) [7]).mpr (by decide +kernel),
    (hget [0x11, 0x33] (by simp) [9]).mpr (by decide +kernel), fun h => ?_⟩
  have := (hget [0x11, 0x22] (by simp) [8]).mp h
  revert this
  decide +kernel

def crowdedEdits : List (ShortEdit 2) :=
  [.insert (oneByte 0x11) (shortValue 7), .insert (twoBytes 0x11 0x22) (shortValue 8),
    .insert (twoBytes 0x11 0x33) (shortValue 9), .insert (twoBytes 0x11 0x44) (shortValue 10),
    .remove (twoBytes 0x11 0x44)]

omit [Keccak256] in
/-- The branch becomes a leaf, and the two children are lost. -/
theorem ofShortEdits_crowded :
    letI := editKeccak
    (∀ x ∈ shortEncodings NullTrieDB.mk crowdedEdits,
        ∀ y ∈ shortEncodings NullTrieDB.mk crowdedEdits, kec x = kec y → x = y) ∧
      (∀ a ∈ crowdedEdits.inits, (ShortMap.ofEdits a).Distinct) ∧
      (Exec.forEach ShortEdit.call crowdedEdits (Trie.new NullTrieDB.mk)).1 = .ok () ∧
      (lastEdit crowdedEdits [0x11, 0x22]).bind ShortEdit.value = some [8] ∧
      (Trie.ofShortEdits NullTrieDB.mk crowdedEdits).get [0x11, 0x22] = .ok none ∧
      (lastEdit crowdedEdits [0x11, 0x33]).bind ShortEdit.value = some [9] ∧
      (Trie.ofShortEdits NullTrieDB.mk crowdedEdits).get [0x11, 0x33] = .ok none := by
  decide +kernel

end
end EthereumRust.Mpt
