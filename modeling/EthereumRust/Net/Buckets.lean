import Mathlib.Data.List.Perm.Basic
import EthereumRust.Net.Kademlia

/-! # The invariant of the table of peers

A replacement can take the place of a peer because it is no peer yet and belongs to the
same bucket, and a list that is not full has no replacements. -/

namespace EthereumRust.Net

open Rlp Mpt
open scoped List

/-! ## Buckets -/

def Bucket.ids (bucket : Bucket) : List H512 :=
  bucket.peers.map (·.node.nodeId) ++ bucket.replacements.map (·.node.nodeId)

/-- A bucket for the node ids that satisfy `P`. -/
structure Bucket.WellFormed (P : H512 → Prop) (bucket : Bucket) : Prop where
  peers : bucket.peers.length ≤ MAX_NODES_PER_BUCKET
  replacements : bucket.replacements.length ≤ MAX_NUMBER_OF_REPLACEMENTS
  placed : ∀ id ∈ bucket.ids, P id
  nodup : bucket.ids.Nodup
  full : bucket.replacements ≠ [] → bucket.peers.length = MAX_NODES_PER_BUCKET

namespace Bucket

variable {bucket : Bucket}

theorem wellFormed_empty : WellFormed P ⟨[], []⟩ := ⟨by decide, by decide, by simp [ids], by simp [ids], by simp⟩

theorem WellFormed.modify (h : bucket.WellFormed P) (idx : Nat) {f : PeerData → PeerData}
    (hf : ∀ peer, (f peer).node = peer.node) : WellFormed P { bucket with peers := bucket.peers.modify idx f } := by
  have hids : ids { bucket with peers := bucket.peers.modify idx f } = bucket.ids := by
    have hmap : (bucket.peers.modify idx f).map (·.node.nodeId) = bucket.peers.map (·.node.nodeId) := by
      refine List.ext_getElem (by simp) fun i _ _ => ?_
      simp only [List.getElem_map, List.getElem_modify]
      split
      · rw [hf]
      · rfl
    rw [ids, ids, hmap]
  have hlength : (bucket.peers.modify idx f).length = bucket.peers.length := List.length_modify _ _ _
  exact ⟨hlength.trans_le h.peers, h.replacements, hids ▸ h.placed, hids ▸ h.nodup, fun hne =>
    hlength.trans (h.full hne)⟩

theorem WellFormed.of_subperm (h : bucket.WellFormed P) (hsub : new <+~ bucket.ids) :
    (∀ id ∈ new, P id) ∧ new.Nodup := by
  refine ⟨fun id hid => h.placed id (hsub.subset hid), ?_⟩
  obtain ⟨ids, hperm, hids⟩ := hsub
  exact hperm.nodup_iff.mp (h.nodup.sublist hids)

theorem WellFormed.of_subperm_cons {id} (h : bucket.WellFormed P) (hP : P id)
    (hid : id ∉ bucket.ids) (hsub : new <+~ id :: bucket.ids) : (∀ id ∈ new, P id) ∧ new.Nodup := by
  refine ⟨fun id' hid' => ?_, ?_⟩
  · rcases List.mem_cons.mp (hsub.subset hid') with rfl | hmem
    · exact hP
    · exact h.placed id' hmem
  · obtain ⟨ids, hperm, hids⟩ := hsub
    exact hperm.nodup_iff.mp ((List.nodup_cons.mpr ⟨hid, h.nodup⟩).sublist hids)

/-- The oldest replacement goes if there is no room. -/
theorem WellFormed.insertAsReplacement (h : bucket.WellFormed P) (hP : P peer.node.nodeId)
    (hnew : peer.node.nodeId ∉ bucket.ids) (hfull : bucket.peers.length = MAX_NODES_PER_BUCKET) :
    WellFormed P (KademliaTable.insertAsReplacement peer bucket) := by
  unfold KademliaTable.insertAsReplacement
  dsimp only
  -- the replacements that stay
  generalize hkept : (if MAX_NUMBER_OF_REPLACEMENTS ≤ bucket.replacements.length
    then bucket.replacements.eraseIdx 0 else bucket.replacements) = kept
  have hsub : kept.Sublist bucket.replacements := by
    rw [← hkept]
    split
    · exact List.eraseIdx_sublist _ _
    · exact List.Sublist.refl _
  have hlength : kept.length < MAX_NUMBER_OF_REPLACEMENTS := by
    have hle := h.replacements
    rw [← hkept]
    split
    · rw [List.length_eraseIdx, MAX_NUMBER_OF_REPLACEMENTS] at *
      split <;> omega
    · omega
  have hids : ids { bucket with replacements := kept ++ [peer] } <+~ peer.node.nodeId :: bucket.ids := by
    refine (List.Perm.subperm ?_).trans ((List.subperm_cons _).mpr ((hsub.map _).append_left _).subperm)
    rw [ids, List.map_append, ← List.append_assoc]
    exact List.perm_append_singleton _ _
  obtain ⟨hplaced, hnodup⟩ := h.of_subperm_cons hP hnew hids
  refine ⟨h.peers, ?_, hplaced, hnodup, fun _ => hfull⟩
  rw [List.length_append]
  exact hlength

theorem WellFormed.replacements_eq_nil (h : bucket.WellFormed P)
    (hroom : bucket.peers.length ≠ MAX_NODES_PER_BUCKET) : bucket.replacements = [] := by
  by_contra hne
  exact hroom (h.full hne)

theorem WellFormed.push (h : bucket.WellFormed P) (hP : P peer.node.nodeId) (hnew : peer.node.nodeId ∉ bucket.ids)
    (hroom : bucket.peers.length ≠ MAX_NODES_PER_BUCKET) :
    WellFormed P ⟨bucket.peers ++ [peer], []⟩ := by
  have hids : ids ⟨bucket.peers ++ [peer], []⟩ <+~ peer.node.nodeId :: bucket.ids := by
    rw [ids, ids, h.replacements_eq_nil hroom, List.map_append, List.map_nil, List.append_nil, List.append_nil]
    exact (List.perm_append_singleton _ _).subperm
  obtain ⟨hplaced, hnodup⟩ := h.of_subperm_cons hP hnew hids
  refine ⟨?_, Nat.zero_le _, hplaced, hnodup, fun hne => absurd rfl hne⟩
  rw [List.length_append]
  exact Nat.lt_of_le_of_ne h.peers hroom

theorem WellFormed.replace (h : bucket.WellFormed P) (hidx : idx < bucket.peers.length)
    (hlast : bucket.replacements.getLast? = some peer) :
    WellFormed P ⟨bucket.peers.set idx peer, bucket.replacements.dropLast⟩ := by
  have hsplit : bucket.replacements.dropLast ++ [peer] = bucket.replacements :=
    List.dropLast_append_getLast? peer hlast
  have hne : bucket.replacements ≠ [] := by
    intro hnil
    rw [hnil] at hlast
    cases hlast
  have hperm : bucket.peers.set idx peer ++ bucket.replacements.dropLast ~
      bucket.peers.eraseIdx idx ++ bucket.replacements :=
    calc bucket.peers.set idx peer ++ bucket.replacements.dropLast
      _ ~ peer :: (bucket.peers.eraseIdx idx ++ bucket.replacements.dropLast) :=
        (List.set_perm_cons_eraseIdx hidx peer).append_right _
      _ ~ (bucket.peers.eraseIdx idx ++ bucket.replacements.dropLast) ++ [peer] :=
        (List.perm_append_singleton _ _).symm
      _ = bucket.peers.eraseIdx idx ++ bucket.replacements := by rw [List.append_assoc, hsplit]
  have hids : ids ⟨bucket.peers.set idx peer, bucket.replacements.dropLast⟩ <+~ bucket.ids := by
    rw [ids, ids, ← List.map_append, ← List.map_append]
    exact ⟨_, (hperm.map _).symm, ((List.eraseIdx_sublist _ _).append_right _).map _⟩
  obtain ⟨hplaced, hnodup⟩ := h.of_subperm hids
  have hlength : (bucket.peers.set idx peer).length = bucket.peers.length := List.length_set
  refine ⟨hlength.trans_le h.peers, ?_, hplaced, hnodup, fun _ => hlength.trans (h.full hne)⟩
  exact (List.dropLast_sublist _).length_le.trans h.replacements

theorem WellFormed.erase (h : bucket.WellFormed P) (hnone : bucket.replacements = []) (idx : Nat) :
    WellFormed P { bucket with peers := bucket.peers.eraseIdx idx } := by
  have hsub := List.eraseIdx_sublist bucket.peers idx
  have hids : ids { bucket with peers := bucket.peers.eraseIdx idx } <+~ bucket.ids :=
    ((hsub.map _).append_right _).subperm
  obtain ⟨hplaced, hnodup⟩ := h.of_subperm hids
  exact ⟨hsub.length_le.trans h.peers, h.replacements, hplaced, hnodup, fun hne => absurd hnone hne⟩

end Bucket

/-! ## The table -/

section

variable [Keccak256]

namespace KademliaTable

variable {bucket : Bucket} {id : H512}

/-- Every bucket is well-formed, with the nodes whose distance to the local node is its number. -/
def WellFormed (table : KademliaTable) : Prop :=
  ∀ idx, (table.buckets.get idx).WellFormed fun id => bucketNumber id table.localNodeId = idx.1

theorem bucketNumber_comm (nodeId₁ nodeId₂ : H512) : bucketNumber nodeId₁ nodeId₂ = bucketNumber nodeId₂ nodeId₁ := by
  have hxor : List.zipWith (· ^^^ ·) (digest nodeId₁.1).1 (digest nodeId₂.1).1 =
      List.zipWith (· ^^^ ·) (digest nodeId₂.1).1 (digest nodeId₁.1).1 := by
    rw [List.zipWith_comm]
    congr 1
    funext a b
    exact UInt8.xor_comm b a
  rw [bucketNumber, bucketNumber, hxor]

variable {table : KademliaTable}

theorem wellFormed_new (localNodeId : H512) : (new localNodeId).WellFormed := by
  intro idx
  have hempty : (new localNodeId).buckets.get idx = ⟨[], []⟩ := Vector.getElem_replicate _
  rw [hempty]
  exact Bucket.wellFormed_empty

theorem WellFormed.setBucket (h : table.WellFormed)
    (hbucket : bucket.WellFormed fun id => bucketNumber id table.localNodeId = idx.1) :
    (table.setBucket idx bucket).WellFormed := by
  intro j
  rw [get_setBucket]
  split
  · rename_i heq
    exact heq ▸ hbucket
  · exact h j

theorem WellFormed.modifyPeer (h : table.WellFormed) (nodeId : H512) {f : PeerData → PeerData}
    (hf : ∀ peer, (f peer).node = peer.node) : (table.modifyPeer nodeId f).WellFormed := by
  unfold KademliaTable.modifyPeer
  dsimp only
  split
  · exact h.setBucket ((h _).modify _ hf)
  · exact h

omit [Keccak256] in
theorem not_mem_ids (hpeers : ¬ (bucket.peers.any fun p => p.node.nodeId == id) = true)
    (hreplacements : ¬ (bucket.replacements.any fun p => p.node.nodeId == id) = true) : id ∉ bucket.ids := by
  simp only [Bucket.ids, List.mem_append, List.mem_map, List.any_eq_true, beq_iff_eq] at *
  exact not_or.mpr ⟨hpeers, hreplacements⟩

theorem WellFormed.insertNode (h : table.WellFormed) (node : Node) (now : Nat) :
    (table.insertNode node now).2.WellFormed := by
  have hbucket := h (table.bucketIdx node.nodeId)
  unfold KademliaTable.insertNode KademliaTable.insertNodeInner
  dsimp only
  split_ifs with hpeers hreplacements hfull
  · exact h
  · exact h
  · exact h.setBucket (hbucket.insertAsReplacement rfl (not_mem_ids hpeers hreplacements) (eq_of_beq hfull))
  · have hroom : (table.buckets.get (table.bucketIdx node.nodeId)).peers.length ≠ MAX_NODES_PER_BUCKET := by
      simpa using hfull
    refine h.setBucket ?_
    rw [removeFromReplacements, hbucket.replacements_eq_nil hroom]
    exact hbucket.push rfl (not_mem_ids hpeers hreplacements) hroom

theorem WellFormed.replacePeer (h : table.WellFormed) (nodeId : H512) : (table.replacePeer nodeId).2.WellFormed := by
  unfold KademliaTable.replacePeer KademliaTable.replacePeerInner
  dsimp only
  split
  · rename_i idx hidx
    obtain ⟨hlt, -, -⟩ := List.findIdx?_eq_some_iff_getElem.mp hidx
    split
    · rename_i newPeer hlast
      exact h.setBucket ((h _).replace hlt hlast)
    · rename_i hnone
      exact h.setBucket ((h _).erase (List.getLast?_eq_none_iff.mp hnone) idx)
  · exact h

/-! ## Sequences of operations -/

inductive Operation where
  | insertNode (node : Node) (now : Nat)
  | replacePeer (nodeId : H512)
  | pongAnswered (nodeId : H512) (now : Nat)
  | updatePeerPing (nodeId : H512) (pingHash : Option H256) (now : Nat)
  | updatePeerPingWithRevalidation (nodeId : H512) (pingHash : Option H256) (now : Nat)

def apply (table : KademliaTable) : Operation → KademliaTable
  | .insertNode node now => (table.insertNode node now).2
  | .replacePeer nodeId => (table.replacePeer nodeId).2
  | .pongAnswered nodeId now => table.pongAnswered nodeId now
  | .updatePeerPing nodeId pingHash now => table.updatePeerPing nodeId pingHash now
  | .updatePeerPingWithRevalidation nodeId pingHash now => table.updatePeerPingWithRevalidation nodeId pingHash now

theorem WellFormed.apply (h : table.WellFormed) (operation : Operation) : (table.apply operation).WellFormed := by
  cases operation with
  | insertNode node now => exact h.insertNode node now
  | replacePeer nodeId => exact h.replacePeer nodeId
  | pongAnswered nodeId now => exact h.modifyPeer nodeId fun _ => rfl
  | updatePeerPing nodeId pingHash now => exact h.modifyPeer nodeId fun _ => rfl
  | updatePeerPingWithRevalidation nodeId pingHash now => exact h.modifyPeer nodeId fun _ => rfl

theorem localNodeId_modifyPeer (table : KademliaTable) (nodeId : H512) (f : PeerData → PeerData) :
    (table.modifyPeer nodeId f).localNodeId = table.localNodeId := by
  unfold KademliaTable.modifyPeer
  dsimp only
  split <;> rfl

theorem localNodeId_apply (table : KademliaTable) (operation : Operation) :
    (table.apply operation).localNodeId = table.localNodeId := by
  cases operation with
  | insertNode node now =>
    simp only [KademliaTable.apply, KademliaTable.insertNode, KademliaTable.insertNodeInner]
    split_ifs <;> rfl
  | replacePeer nodeId =>
    simp only [KademliaTable.apply, KademliaTable.replacePeer, KademliaTable.replacePeerInner]
    split
    · split <;> rfl
    · rfl
  | pongAnswered nodeId now => exact localNodeId_modifyPeer _ _ _
  | updatePeerPing nodeId pingHash now => exact localNodeId_modifyPeer _ _ _
  | updatePeerPingWithRevalidation nodeId pingHash now => exact localNodeId_modifyPeer _ _ _

theorem wellFormed_foldl (h : table.WellFormed) (operations : List Operation) :
    (operations.foldl apply table).WellFormed ∧ (operations.foldl apply table).localNodeId = table.localNodeId := by
  induction operations generalizing table with
  | nil => exact ⟨h, rfl⟩
  | cons operation operations ih =>
    obtain ⟨hwell, hlocal⟩ := ih (h.apply operation)
    exact ⟨hwell, hlocal.trans (localNodeId_apply table operation)⟩

/-! ## What the table answers -/

theorem WellFormed.eq_bucketIdx (h : table.WellFormed)
    (hid : id ∈ (table.buckets.get idx).ids) : idx = table.bucketIdx id :=
  Fin.ext ((h idx).placed id hid).symm

omit [Keccak256] in
theorem mem_ids_of_peer (h : peer ∈ bucket.peers) : peer.node.nodeId ∈ bucket.ids :=
  List.mem_append_left _ (List.mem_map_of_mem h)

omit [Keccak256] in
theorem mem_ids_of_replacement (h : peer ∈ bucket.replacements) : peer.node.nodeId ∈ bucket.ids :=
  List.mem_append_right _ (List.mem_map_of_mem h)

theorem WellFormed.holds (h : table.WellFormed) (hpeer : table.Holds peer) :
    peer.node.nodeId ∈ (table.buckets.get (table.bucketIdx peer.node.nodeId)).ids := by
  obtain ⟨idx, hmem⟩ := hpeer
  have hid : peer.node.nodeId ∈ (table.buckets.get idx).ids := hmem.elim mem_ids_of_peer mem_ids_of_replacement
  rwa [h.eq_bucketIdx hid] at hid

/-- The search finds exactly the nodes in the lists of peers. -/
theorem WellFormed.getByNodeId_eq_some (h : table.WellFormed) :
    table.getByNodeId nodeId = some peer ↔
      peer.node.nodeId = nodeId ∧ ∃ idx, peer ∈ (table.buckets.get idx).peers := by
  constructor
  · intro hfind
    have hid := List.find?_some hfind
    exact ⟨eq_of_beq hid, _, List.mem_of_find?_eq_some hfind⟩
  · rintro ⟨rfl, idx, hpeer⟩
    obtain rfl := h.eq_bucketIdx (mem_ids_of_peer hpeer)
    obtain ⟨found, hfound⟩ : ∃ found, table.getByNodeId peer.node.nodeId = some found := by
      rw [← Option.isSome_iff_exists, getByNodeId, List.find?_isSome]
      exact ⟨peer, hpeer, beq_self_eq_true _⟩
    have hsame := List.find?_some hfound
    have hnodup : ((table.buckets.get (table.bucketIdx peer.node.nodeId)).peers.map (·.node.nodeId)).Nodup :=
      (h _).nodup.sublist (List.sublist_append_left _ _)
    rw [hfound, List.inj_on_of_nodup_map hnodup (List.mem_of_find?_eq_some hfound) hpeer (eq_of_beq hsame)]

/-- A node is reported as inserted exactly if its id was absent and is that of a peer afterwards. -/
theorem WellFormed.insertNode_inserted (h : table.WellFormed) (node : Node) (now : Nat) :
    (table.insertNode node now).1.2 = true ↔
      (∀ peer, table.Holds peer → peer.node.nodeId ≠ node.nodeId) ∧
      ∃ idx, ∃ peer ∈ ((table.insertNode node now).2.buckets.get idx).peers, peer.node.nodeId = node.nodeId := by
  unfold KademliaTable.insertNode KademliaTable.insertNodeInner
  dsimp only
  split_ifs with hpeers hreplacements hfull
  · obtain ⟨peer, hpeer, hid⟩ := List.any_eq_true.mp hpeers
    simp only [false_iff, not_and]
    intro habsent
    exact absurd (eq_of_beq hid) (habsent peer ⟨_, .inl hpeer⟩)
  · obtain ⟨peer, hpeer, hid⟩ := List.any_eq_true.mp hreplacements
    simp only [false_iff, not_and]
    intro habsent
    exact absurd (eq_of_beq hid) (habsent peer ⟨_, .inr hpeer⟩)
  · -- the lists of peers are as before
    simp only [false_iff, not_and]
    rintro habsent ⟨idx, peer, hpeer, hid⟩
    rw [get_setBucket] at hpeer
    refine habsent peer ⟨idx, .inl ?_⟩ hid
    split at hpeer
    · rename_i heq
      exact heq ▸ hpeer
    · exact hpeer
  · simp only [true_iff]
    refine ⟨fun peer hpeer hid => ?_, table.bucketIdx node.nodeId, PeerData.new node now 0 false, ?_, rfl⟩
    · have hmem := h.holds hpeer
      rw [hid] at hmem
      exact not_mem_ids hpeers hreplacements hmem
    · rw [get_setBucket, if_pos rfl]
      exact List.mem_append_right _ List.mem_cons_self

/-- After any operations on a new table its buckets are well-formed, the search finds exactly the nodes in the
lists of peers, and an insertion is reported exactly if it added an absent id to a list of peers. -/
theorem table_invariant (localNodeId : H512) (operations : List Operation) :
    let table := operations.foldl apply (new localNodeId)
    (∀ idx, (table.buckets.get idx).WellFormed fun id => bucketNumber id localNodeId = idx.1) ∧
    (∀ nodeId peer, table.getByNodeId nodeId = some peer ↔
      peer.node.nodeId = nodeId ∧ ∃ idx, peer ∈ (table.buckets.get idx).peers) ∧
    ∀ node now, (table.insertNode node now).1.2 = true ↔
      (∀ peer, table.Holds peer → peer.node.nodeId ≠ node.nodeId) ∧
      ∃ idx, ∃ peer ∈ ((table.insertNode node now).2.buckets.get idx).peers, peer.node.nodeId = node.nodeId := by
  obtain ⟨hwell, hlocal⟩ := wellFormed_foldl (wellFormed_new localNodeId) operations
  refine ⟨fun idx => ?_, fun _ _ => hwell.getByNodeId_eq_some, fun node now => hwell.insertNode_inserted node now⟩
  have hbucket := hwell idx
  rwa [hlocal] at hbucket

end KademliaTable
end
end EthereumRust.Net
