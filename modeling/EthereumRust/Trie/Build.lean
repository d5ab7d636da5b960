import EthereumRust.Trie.History

/-! # Tries that are built and hashed

The record of encodings only grows, so a hash that does not collide on the record at the
end has not collided on the way. -/

namespace EthereumRust.Mpt
open Nibble Rlp

/-! ## The record grows -/

section

variable {δ α : Type}

/-- The call takes nothing from the record. -/
abbrev Records (x : TrieM δ α) : Prop := Exec.Grows TrieState.encodings x

theorem records_call (x : Outcome TrieError α) : Records (call x : TrieM δ α) := fun _ => List.Subset.refl _

theorem records_pure (a : α) : Records (pure a : TrieM δ α) := fun _ => List.Subset.refl _

section

variable [Keccak256]

theorem records_insertEncoded (node : Node) (encoded : ByteString) :
    Records (insertEncoded node encoded : TrieM δ NodeHash) := fun _ => List.subset_cons_self _ _

variable (self : LeafNode)

theorem LeafNode.records_insertSelf (offset : Nat) :
    Records (self.insertSelf offset : TrieM δ NodeHash) :=
  (records_call _).bind fun _ => records_insertEncoded _ _

theorem ExtensionNode.records_insertSelf (self : ExtensionNode) : Records (self.insertSelf : TrieM δ NodeHash) :=
  (records_call _).bind fun _ => records_insertEncoded _ _

theorem BranchNode.records_insertSelf (self : BranchNode) : Records (self.insertSelf : TrieM δ NodeHash) :=
  records_insertEncoded _ _

theorem Node.records_insertSelf (self : Node) (offset : Nat) :
    Records (self.insertSelf offset : TrieM δ NodeHash) := by
  cases self with
  | branch n => exact n.records_insertSelf
  | extension n => exact n.records_insertSelf
  | leaf n => exact n.records_insertSelf offset

theorem LeafNode.records_split (path : NibbleSlice) (value : ByteString) :
    Records (self.split path value : TrieM δ BranchNode) := by
  refine .ite ?_ (.ite ?_ ?_)
  · exact (self.records_insertSelf _).bind fun _ => (records_call _).bind fun _ => records_pure _
  · exact (LeafNode.records_insertSelf _ _).bind fun _ => (records_call _).bind fun _ => records_pure _
  · exact (LeafNode.records_insertSelf _ _).bind fun _ => (self.records_insertSelf _).bind fun _ =>
      (records_call _).bind fun _ => (records_call _).bind fun _ => records_pure _

theorem LeafNode.records_insert (path : NibbleSlice) (value : ByteString) :
    Records (self.insert path value : TrieM δ Node) := by
  refine (records_call _).bind fun _ => .ite (records_pure _) ?_
  refine (records_call _).bind fun _ => (self.records_split _ value).bind fun branch => ?_
  exact .ite (branch.records_insertSelf.bind fun _ => (records_call _).bind fun _ => records_pure _) (records_pure _)

theorem ExtensionNode.records_splitBranch (child : NodeHash) (path : NibbleSlice) (value : ByteString)
    (choice : Nibble) (rightPrefix : Option NibbleVec) :
    Records (ExtensionNode.splitBranch child path value choice rightPrefix : TrieM δ BranchNode) := by
  refine Exec.Grows.bind ?_ fun _ => ?_
  · cases rightPrefix with
    | none => exact records_pure _
    | some rightPrefix => exact ExtensionNode.records_insertSelf _
  · cases path.next with
    | none => exact records_pure _
    | some next => exact (LeafNode.records_insertSelf _ _).bind fun _ => records_pure _

variable [TrieDB δ]

omit [Keccak256] in
theorem records_expectNode (hash : NodeHash) : Records (expectNode hash : TrieM δ Node) :=
  fun _ => List.Subset.refl _

theorem Node.records_insert (fuel : Nat) (node : Node) (path : NibbleSlice) (value : ByteString) :
    Records (Node.insert fuel node path value : TrieM δ Node) := by
  induction fuel generalizing node path value with
  | zero => exact fun _ => List.Subset.refl _
  | succ fuel ih =>
    cases node with
    | leaf n => exact n.records_insert path value
    | branch n =>
      change Records (n.insert _ path value)
      unfold BranchNode.insert
      cases path.next with
      | none => exact records_pure _
      | some next =>
        refine .ite ((LeafNode.records_insertSelf _ _).bind fun _ => records_pure _) ?_
        exact (records_expectNode _).bind fun _ => (ih _ _ _).bind fun node =>
          (node.records_insertSelf _).bind fun _ => records_pure _
    | extension n =>
      change Records (n.insert _ path value)
      refine (records_call _).bind fun _ => .ite ?_ ?_
      · exact (records_expectNode _).bind fun _ => (ih _ _ _).bind fun node =>
          (node.records_insertSelf 0).bind fun _ => records_pure _
      · refine (records_call _).bind fun _ => (records_call _).bind fun parts => ?_
        refine (ExtensionNode.records_splitBranch _ _ _ _ _).bind fun branch => ?_
        split
        · exact branch.records_insertSelf.bind fun _ => records_pure _
        · exact records_pure _

theorem Trie.records_insert (path value : ByteString) :
    Exec.Grows (fun trie : Trie δ => trie.state.encodings) (Trie.insert path value) := by
  have hon : ∀ {β : Type} {x : TrieM δ β}, Records x →
      Exec.Grows (fun trie : Trie δ => trie.state.encodings) (Trie.onState x) := fun hx trie => hx trie.state
  have hset : ∀ root, Exec.Grows (fun trie : Trie δ => trie.state.encodings) (Trie.setRoot root) :=
    fun _ _ => List.Subset.refl _
  refine .bind (fun _ => List.Subset.refl _) fun self => (hset none).bind fun _ => .bind ?_ fun node => ?_
  · intro trie
    cases self.root <;> exact List.Subset.refl _
  · cases node with
    | none => exact (hon (Node.records_insertSelf _ 0)).bind fun _ => hset _
    | some node =>
      exact (hon (Node.records_insert _ node _ value)).bind fun node =>
        (hon (node.records_insertSelf 0)).bind fun _ => hset _

omit [Keccak256] in
theorem keeps_commitNode (fuel : Nat) (hash : NodeHash) :
    Exec.Keeps TrieState.encodings (TrieState.commitNode fuel hash : TrieM δ Unit) := by
  induction fuel generalizing hash with
  | zero => exact fun _ => rfl
  | succ fuel ih =>
    refine .bind .get fun st => ?_
    cases st.cache.lookup hash with
    | none => exact .pure ()
    | some node =>
      refine .bind (fun _ => rfl) fun _ => .bind ?_ fun _ _ => rfl
      cases node with
      | leaf n => exact .pure ()
      | extension n => exact ih _
      | branch n =>
        have hall : ∀ children : List NodeHash,
            Exec.Keeps TrieState.encodings
              (TrieState.commitAll (TrieState.commitNode fuel) children : TrieM δ Unit) := by
          intro children
          induction children with
          | nil => exact .pure ()
          | cons child children ihc => exact (ih child).bind fun _ => ihc
        exact hall _

theorem Trie.records_hash : Exec.Grows (fun trie : Trie δ => trie.state.encodings) Trie.hash := by
  refine .of_keeps (.bind .get fun self => ?_)
  cases self.root with
  | none => exact .pure _
  | some root =>
    have hcommit : Exec.Keeps TrieState.encodings (TrieState.commit root : TrieM δ Unit) :=
      .bind .get fun _ => (keeps_commitNode _ root).bind fun _ => .modify fun _ => rfl
    have hon : Exec.Keeps (fun trie : Trie δ => trie.state.encodings) (Trie.onState (TrieState.commit root)) :=
      fun trie => hcommit trie.state
    exact hon.bind fun _ => .pure _

end
end

/-! ## The tree under the root -/

section

variable [Keccak256] {δ : Type} [TrieDB δ] {trie : Trie δ}

/-- The hash does not collide on the encodings that occur, that of the empty trie included. -/
def NoCollision (E : List ByteString) : Prop := Set.InjOn kec {e | e ∈ [RLP_NULL] :: E}

theorem NoCollision.mono (hE : NoCollision E) (h : F ⊆ E) : NoCollision F :=
  Set.InjOn.mono (List.cons_subset_cons _ h) hE

theorem NoCollision.injOn (hE : NoCollision E) : Set.InjOn kec {e | e ∈ E} :=
  Set.InjOn.mono (fun _ he => List.mem_cons_of_mem _ he) hE

/-- The root of the map. -/
noncomputable def PathMap.root (m : PathMap 32) : H256 :=
  ⟨trieRoot kec m.items, by rw [trieRoot]; split <;> exact (digest _).2⟩

/-- The database has the map under its root. -/
def Rooted (db : δ) (m : PathMap 32) : Prop :=
  ∀ p : Path 32, (Trie.openAt db m.root).get p.1 = .ok ((m.lookup p).map Subtype.val)

theorem MapInv.insert (h : MapInv m trie t) (p : Path 32) (v : Value 32)
    (hcf : CollisionFree (Trie.insert p.1 v.1 trie).2.state) :
    ∃ trie' t', Trie.insert p.1 v.1 trie = (.ok (), trie') ∧ MapInv (m.insert p v) trie' t' := by
  obtain ⟨trie', hrun, hw, hh⟩ := Trie.insert_path h.holding p v trivial
  rw [hrun] at hcf
  exact ⟨trie', _, hrun, hh hcf, h.denotes.insert p v, h.closed.of_writes hw⟩

variable [LawfulTrieDB δ]

theorem MapInv.hash (h : MapInv m trie t) (hE : NoCollision trie.state.encodings) :
    ∃ trie', Trie.hash trie = (.ok m.root, trie') ∧ trie'.state.encodings = trie.state.encodings ∧
      Rooted trie'.state.db m := by
  obtain ⟨trie', hrun, hh, -, henc, -, hst⟩ := Trie.hash_run h.holding h.closed hE.injOn
  have hroot : digest (enc t) = m.root := Subtype.ext (h.denotes.root hh.fit)
  have hkept : Kept ⟨trie'.state.db, trie'.state.encodings, [], []⟩ m.root t := ⟨hh.fit, hroot.symm, hst⟩
  refine ⟨trie', hroot ▸ hrun, henc, fun p => ?_⟩
  rw [← h.denotes p]
  refine hkept.get (Set.InjOn.mono ?_ hE) p
  rintro e (he | rfl)
  · exact List.mem_cons_of_mem _ (henc ▸ he)
  · exact List.mem_cons_self

/-- Pairs that are inserted into an empty trie are in its database after it is hashed. -/
theorem build_run {db : δ} (hdb : ∀ key, TrieDB.get db key = .ok none) (pairs : List (Path 32 × Value 32))
    (hE : NoCollision ((do Exec.forEach (fun (p, v) => Trie.insert p.1 v.1) pairs; Trie.hash :
      Exec (Trie δ) TrieError H256) (Trie.new db)).2.state.encodings) :
    ∃ trie, (do Exec.forEach (fun (p, v) => Trie.insert p.1 v.1) pairs; Trie.hash : Exec (Trie δ) TrieError H256)
        (Trie.new db) = (.ok (PathMap.ofPairs pairs).root, trie) ∧ Rooted trie.state.db (PathMap.ofPairs pairs) := by
  replace hE := hE.mono (Exec.Grows.rest (fun _ => Trie.records_hash) _ (Trie.new db))
  have hstep : ∀ as (a : Path 32 × Value 32) trie, as ++ [a] <+: pairs →
      Exec.forEach (fun (p, v) => Trie.insert p.1 v.1) as (Trie.new db) = (.ok (), trie) →
      (∃ t, MapInv (PathMap.ofPairs as) trie t) → ∃ b trie', Trie.insert a.1.1 a.2.1 trie = (.ok b, trie') ∧
        ∃ t, MapInv (PathMap.ofPairs (as ++ [a])) trie' t := by
    rintro as ⟨p, v⟩ trie has hrun ⟨t, hinv⟩
    have hgrows := Exec.Grows.step (fun a : Path 32 × Value 32 => Trie.records_insert a.1.1 a.2.1) has hrun
    obtain ⟨trie', t', hins, hinv'⟩ := hinv.insert p v (hE.mono hgrows).injOn
    refine ⟨(), trie', hins, t', ?_⟩
    rw [PathMap.ofPairs, List.foldl_append]
    exact hinv'
  obtain ⟨trie, hrun, t, hinv⟩ := Exec.forEach_invariant _ ⟨.nil, .new db, .nil, .new hdb⟩ hstep pairs
    List.prefix_rfl
  rw [hrun] at hE
  obtain ⟨trie', hhash, -, hrooted⟩ := hinv.hash hE
  exact ⟨trie', (Exec.run_bind_ok hrun _).trans hhash, hrooted⟩

end
end EthereumRust.Mpt
