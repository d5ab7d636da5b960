import EthereumRust.Net.Evidence
import EthereumRust.Net.Revalidation

/-! # The entries of the table

What a step of one of the tasks can do to the table. Only the revalidation takes liveness
from a peer or a peer from the table. -/

namespace EthereumRust.Net

open Rlp Mpt List

/-! ## Entries of the table -/

namespace KademliaTable

variable [Keccak256] {table : KademliaTable} {α : Type} {xs : List α}

theorem getByNodeId_place (h : table.getByNodeId nodeId = some peer) :
    ∃ place, ((table.buckets.get (table.bucketIdx nodeId)).peers.findIdx? fun entry => entry.node.nodeId == nodeId) =
      some place ∧ (table.buckets.get (table.bucketIdx nodeId)).peers[place]? = some peer := by
  rw [getByNodeId, List.find?_eq_bind_findIdx?_getElem?] at h
  exact Option.bind_eq_some_iff.mp h

theorem modifyPeer_of_none (h : table.getByNodeId nodeId = none) (f : PeerData → PeerData) :
    table.modifyPeer nodeId f = table := by
  have hnone : ((table.buckets.get (table.bucketIdx nodeId)).peers.findIdx? fun entry => entry.node.nodeId == nodeId) =
      none := by
    simpa [getByNodeId] using h
  rw [modifyPeer]
  simp only [hnone]

theorem modifyPeer_of_some (h : table.getByNodeId nodeId = some peer) :
    ∃ place, (table.buckets.get (table.bucketIdx nodeId)).peers[place]? = some peer ∧
      ∀ f, table.modifyPeer nodeId f = table.setBucket (table.bucketIdx nodeId)
        { table.buckets.get (table.bucketIdx nodeId) with
          peers := (table.buckets.get (table.bucketIdx nodeId)).peers.set place (f peer) } := by
  obtain ⟨place, hidx, hplace⟩ := getByNodeId_place h
  refine ⟨place, hplace, fun f => ?_⟩
  rw [modifyPeer]
  simp only [hidx, modify_eq_set_getElem?, hplace]
  rfl

theorem modifyPeer_congr {g : PeerData → PeerData} (h : ∀ peer, table.getByNodeId nodeId = some peer →
    f peer = g peer) :
    table.modifyPeer nodeId f = table.modifyPeer nodeId g := by
  cases hfound : table.getByNodeId nodeId with
  | none => rw [modifyPeer_of_none hfound, modifyPeer_of_none hfound]
  | some peer =>
    obtain ⟨place, -, hwrite⟩ := modifyPeer_of_some hfound
    rw [hwrite, hwrite, h peer hfound]

omit [Keccak256] in
theorem findIdx?_modify {p : α → Bool} {f : α → α} (hf : ∀ a, p (f a) = p a) (xs : List α) (i : Nat) :
    (xs.modify i f).findIdx? p = xs.findIdx? p := by
  induction xs generalizing i with
  | nil => cases i <;> rfl
  | cons x xs ih =>
    cases i with
    | zero => simp [List.findIdx?_cons, hf]
    | succ i => simp [List.findIdx?_cons, ih]

omit [Keccak256] in
theorem setBucket_setBucket (table : KademliaTable) (idx : Fin NUMBER_OF_BUCKETS) (bucket bucket' : Bucket) :
    (table.setBucket idx bucket).setBucket idx bucket' = table.setBucket idx bucket' := by
  simp only [setBucket, Vector.set_set]

theorem modifyPeer_modifyPeer (table : KademliaTable) (nodeId : H512) (g : PeerData → PeerData)
    (hf : ∀ peer, (f peer).node = peer.node) :
    (table.modifyPeer nodeId f).modifyPeer nodeId g = table.modifyPeer nodeId (g ∘ f) := by
  cases hidx : (table.buckets.get (table.bucketIdx nodeId)).peers.findIdx? fun entry => entry.node.nodeId == nodeId with
  | none => simp only [modifyPeer, hidx]
  | some idx =>
    have hsame : (((table.buckets.get (table.bucketIdx nodeId)).peers.modify idx f).findIdx?
        fun entry => entry.node.nodeId == nodeId) = some idx := by
      rw [findIdx?_modify (fun peer => by rw [hf]), hidx]
    have hplace (bucket : Bucket) : (table.setBucket (table.bucketIdx nodeId) bucket).bucketIdx nodeId =
        table.bucketIdx nodeId := rfl
    simp only [modifyPeer, hidx, hplace, get_setBucket, if_true, hsame, setBucket_setBucket, modify_modify_eq]

theorem replacePeer_of_some (h : table.getByNodeId nodeId = some peer) :
    ∃ place, (table.buckets.get (table.bucketIdx nodeId)).peers[place]? = some peer ∧
      ((∃ newPeer, (table.buckets.get (table.bucketIdx nodeId)).replacements.getLast? = some newPeer ∧
        table.replacePeer nodeId = (some newPeer, table.setBucket (table.bucketIdx nodeId)
          ⟨(table.buckets.get (table.bucketIdx nodeId)).peers.set place newPeer,
            (table.buckets.get (table.bucketIdx nodeId)).replacements.dropLast⟩)) ∨
      ((table.buckets.get (table.bucketIdx nodeId)).replacements = [] ∧
        table.replacePeer nodeId = (none, table.setBucket (table.bucketIdx nodeId)
          ⟨(table.buckets.get (table.bucketIdx nodeId)).peers.eraseIdx place, []⟩))) := by
  obtain ⟨place, hidx, hplace⟩ := getByNodeId_place h
  have hbucket : (⟨bucketNumber table.localNodeId nodeId, bucketNumber_lt _ _⟩ : Fin NUMBER_OF_BUCKETS) =
      table.bucketIdx nodeId := Fin.ext (bucketNumber_comm _ _)
  refine ⟨place, hplace, ?_⟩
  rw [replacePeer, hbucket, replacePeerInner]
  simp only [hidx]
  cases hlast : (table.buckets.get (table.bucketIdx nodeId)).replacements.getLast? with
  | some newPeer => exact .inl ⟨newPeer, rfl, rfl⟩
  | none =>
    have hnil := List.getLast?_eq_none_iff.mp hlast
    refine .inr ⟨hnil, ?_⟩
    rw [← hnil]

omit [Keccak256] in
theorem mem_set_of_ne {new : α} (h : xs[place]? = some old)
    (hother : other ∈ xs) (hne : other ≠ old) : other ∈ xs.set place new := by
  obtain ⟨i, hi⟩ := List.getElem?_of_mem hother
  have hplace : place ≠ i := by
    rintro rfl
    exact hne (Option.some.inj (hi.symm.trans h))
  exact mem_of_getElem? ((List.getElem?_set_ne hplace).trans hi)

omit [Keccak256] in
theorem mem_eraseIdx_of_ne (h : xs[place]? = some old)
    (hother : other ∈ xs) (hne : other ≠ old) : other ∈ xs.eraseIdx place := by
  obtain ⟨i, hi⟩ := List.getElem?_of_mem hother
  refine mem_eraseIdx_iff_getElem?.mpr ⟨i, ?_, hi⟩
  rintro rfl
  exact hne (Option.some.inj (hi.symm.trans h))

/-- Two well-formed tables have the same entry for an id if they have the same peers with this id. -/
theorem WellFormed.getByNodeId_congr {table' : KademliaTable} (h : table.WellFormed) (h' : table'.WellFormed)
    (hsame : ∀ idx peer, peer.node.nodeId = nodeId →
      (peer ∈ (table'.buckets.get idx).peers ↔ peer ∈ (table.buckets.get idx).peers)) :
    table'.getByNodeId nodeId = table.getByNodeId nodeId := by
  refine Option.ext fun peer => ?_
  rw [h.getByNodeId_eq_some, h'.getByNodeId_eq_some]
  exact and_congr_right fun hid => exists_congr fun idx => hsame idx peer hid

theorem WellFormed.getByNodeId_setBucket (h : table.WellFormed)
    (h' : (table.setBucket idx bucket).WellFormed)
    (hsame : ∀ peer, peer.node.nodeId = nodeId → (peer ∈ bucket.peers ↔ peer ∈ (table.buckets.get idx).peers)) :
    (table.setBucket idx bucket).getByNodeId nodeId = table.getByNodeId nodeId := by
  refine h.getByNodeId_congr h' fun j peer hid => ?_
  rw [get_setBucket]
  split_ifs with heq
  · rw [hsame peer hid, heq]
  · rfl

theorem WellFormed.getByNodeId_setBucket_some
    (h' : (table.setBucket idx bucket).WellFormed) (hid : peer.node.nodeId = nodeId) (hmem : peer ∈ bucket.peers) :
    (table.setBucket idx bucket).getByNodeId nodeId = some peer := by
  refine h'.getByNodeId_eq_some.mpr ⟨hid, idx, ?_⟩
  rwa [get_setBucket, if_pos rfl]

theorem WellFormed.getByNodeId_modifyPeer_self (h : table.WellFormed)
    (hf : ∀ peer, (f peer).node = peer.node) :
    (table.modifyPeer nodeId f).getByNodeId nodeId = (table.getByNodeId nodeId).map f := by
  have h' := h.modifyPeer nodeId hf
  cases hfound : table.getByNodeId nodeId with
  | none => rw [modifyPeer_of_none hfound, hfound, Option.map_none]
  | some peer =>
    obtain ⟨place, hplace, hwrite⟩ := modifyPeer_of_some hfound
    have hid := (holds_getByNodeId hfound).2
    rw [hwrite] at h' ⊢
    refine h'.getByNodeId_setBucket_some ((congrArg Node.nodeId (hf peer)).trans hid) ?_
    exact mem_set (List.getElem?_eq_some_iff.mp hplace).1 _

theorem WellFormed.getByNodeId_modifyPeer_of_ne (h : table.WellFormed)
    (hf : ∀ peer, (f peer).node = peer.node) {other} (hne : other ≠ nodeId) :
    (table.modifyPeer nodeId f).getByNodeId other = table.getByNodeId other := by
  have h' := h.modifyPeer nodeId hf
  cases hfound : table.getByNodeId nodeId with
  | none => rw [modifyPeer_of_none hfound]
  | some peer =>
    obtain ⟨place, hplace, hwrite⟩ := modifyPeer_of_some hfound
    have hid := (holds_getByNodeId hfound).2
    rw [hwrite] at h' ⊢
    refine h.getByNodeId_setBucket h' fun q hq => ⟨fun hmem => ?_, fun hmem => mem_set_of_ne hplace hmem ?_⟩
    · rcases mem_or_eq_of_mem_set hmem with hold | rfl
      · exact hold
      · rw [hf, hid] at hq
        exact absurd hq.symm hne
    · rintro rfl
      exact hne (hq.symm.trans hid)

/-- An insertion adds at most the entry of the new node. -/
theorem WellFormed.getByNodeId_insertNode (h : table.WellFormed) (node : Node) (now : Nat) (nodeId : H512) :
    (table.insertNode node now).2.getByNodeId nodeId = table.getByNodeId nodeId ∨
      table.getByNodeId nodeId = none ∧
        (table.insertNode node now).2.getByNodeId nodeId = some (.new node now 0 false) := by
  have h' := h.insertNode node now
  rw [KademliaTable.insertNode, insertNodeInner] at h' ⊢
  split_ifs at h' ⊢ with hpeers hreplacements hfull
  · exact .inl rfl
  · exact .inl rfl
  · exact .inl (h.getByNodeId_setBucket h' fun _ _ => Iff.rfl)
  by_cases hid : nodeId = node.nodeId
  · subst hid
    refine .inr ⟨?_, h'.getByNodeId_setBucket_some rfl (mem_append_right _ mem_cons_self)⟩
    simpa [getByNodeId] using hpeers
  · refine .inl (h.getByNodeId_setBucket h' fun peer hpeer => ?_)
    have hnew : peer ≠ .new node now 0 false := by
      rintro rfl
      exact hid hpeer.symm
    simp [removeFromReplacements, hnew]

theorem WellFormed.ne_of_place (h : table.WellFormed)
    (hplace : (table.buckets.get idx).peers[place]? = some peer) :
    ∀ other, other ∈ (table.buckets.get idx).peers.eraseIdx place ∨ other ∈ (table.buckets.get idx).replacements →
      other.node.nodeId ≠ peer.node.nodeId := by
  obtain ⟨hlt, rfl⟩ := List.getElem?_eq_some_iff.mp hplace
  have hnodup := (h idx).nodup
  have hperm := ((getElem_cons_eraseIdx_perm hlt).map fun peer => peer.node.nodeId).append_right
    ((table.buckets.get idx).replacements.map fun peer => peer.node.nodeId)
  rw [Bucket.ids, ← hperm.nodup_iff, map_cons, cons_append, nodup_cons, ← map_append] at hnodup
  intro other hother heq
  exact hnodup.1 (mem_map.mpr ⟨other, mem_append.mpr hother, heq⟩)

theorem WellFormed.getByNodeId_replacement (h : table.WellFormed)
    (hmem : peer ∈ (table.buckets.get idx).replacements) : table.getByNodeId peer.node.nodeId = none := by
  rw [getByNodeId, ← h.eq_bucketIdx (mem_ids_of_replacement hmem)]
  refine List.find?_eq_none.mpr fun other hother hid => ?_
  obtain ⟨place, hplace⟩ := List.getElem?_of_mem hother
  exact h.ne_of_place hplace peer (.inr hmem) (eq_of_beq hid).symm

theorem WellFormed.getByNodeId_replacePeer_of_ne (h : table.WellFormed) (hfound : table.getByNodeId nodeId = some peer)
    {other} (hne : other ≠ nodeId) :
    (table.replacePeer nodeId).2.getByNodeId other = table.getByNodeId other ∨
      table.getByNodeId other = none ∧
        ∃ newPeer ∈ (table.buckets.get (table.bucketIdx nodeId)).replacements,
          (table.replacePeer nodeId).2.getByNodeId other = some newPeer := by
  have h' := h.replacePeer nodeId
  have hid := (holds_getByNodeId hfound).2
  have hother (q : PeerData) (hq : q.node.nodeId = other) : q ≠ peer := by
    rintro rfl
    exact hne (hq.symm.trans hid)
  obtain ⟨place, hplace, ⟨newPeer, hlast, hreplace⟩ | ⟨hnil, hreplace⟩⟩ := replacePeer_of_some hfound
  · rw [hreplace] at h' ⊢
    by_cases hnew : newPeer.node.nodeId = other
    · refine .inr ⟨hnew ▸ h.getByNodeId_replacement (mem_of_getLast? hlast), newPeer,
        mem_of_getLast? hlast, h'.getByNodeId_setBucket_some hnew ?_⟩
      exact mem_set (List.getElem?_eq_some_iff.mp hplace).1 _
    · refine .inl (h.getByNodeId_setBucket h' fun q hq => ⟨fun hmem => ?_, fun hmem =>
        mem_set_of_ne hplace hmem (hother q hq)⟩)
      rcases mem_or_eq_of_mem_set hmem with hold | rfl
      · exact hold
      · exact absurd hq hnew
  · rw [hreplace] at h' ⊢
    refine .inl (h.getByNodeId_setBucket h' fun q hq => ⟨mem_of_mem_eraseIdx, fun hmem =>
      mem_eraseIdx_of_ne hplace hmem (hother q hq)⟩)

theorem WellFormed.ne_of_holds_setBucket (h : table.WellFormed)
    (hbucket : ∀ other, other ∈ bucket.peers ∨ other ∈ bucket.replacements → other.node.nodeId ≠ nodeId)
    (hholds : (table.setBucket (table.bucketIdx nodeId) bucket).Holds peer) : peer.node.nodeId ≠ nodeId := by
  obtain ⟨idx, hmem⟩ := hholds
  rw [get_setBucket] at hmem
  split_ifs at hmem with heq
  · exact hbucket peer hmem
  · rintro rfl
    exact heq (h.eq_bucketIdx (hmem.elim mem_ids_of_peer mem_ids_of_replacement)).symm

/-- Nothing is left of the peer that goes. -/
theorem WellFormed.ne_of_holds_replacePeer (h : table.WellFormed) (hfound : table.getByNodeId nodeId = some peer)
    {other} (hother : (table.replacePeer nodeId).2.Holds other) : other.node.nodeId ≠ nodeId := by
  have hid := (holds_getByNodeId hfound).2
  obtain ⟨place, hplace, hreplaced⟩ := replacePeer_of_some hfound
  have hleft := h.ne_of_place hplace
  rw [hid] at hleft
  obtain ⟨newPeer, hlast, hreplace⟩ | ⟨-, hreplace⟩ := hreplaced
  · rw [hreplace] at hother
    refine h.ne_of_holds_setBucket (fun q hq => hleft q ?_) hother
    rcases hq with hq | hq
    · have hlt := (List.getElem?_eq_some_iff.mp hplace).1
      rcases mem_cons.mp ((set_perm_cons_eraseIdx hlt newPeer).subset hq) with rfl | hq
      · exact .inr (mem_of_getLast? hlast)
      · exact .inl hq
    · exact .inr (mem_of_mem_dropLast hq)
  · rw [hreplace] at hother
    refine h.ne_of_holds_setBucket (fun q hq => hleft q (hq.imp_right fun hq => ?_)) hother
    exact absurd hq not_mem_nil

theorem WellFormed.getByNodeId_replacePeer_self (h : table.WellFormed) (hfound : table.getByNodeId nodeId = some peer) :
    (table.replacePeer nodeId).2.getByNodeId nodeId = none := by
  refine Option.eq_none_iff_forall_ne_some.mpr fun other hother => ?_
  obtain ⟨hholds, hid⟩ := holds_getByNodeId hother
  exact h.ne_of_holds_replacePeer hfound hholds hid

/-! ### Facts about all entries -/

omit [Keccak256] in
/-- No entry has lost its liveness. -/
def AllLive (table : KademliaTable) : Prop := ∀ peer, table.Holds peer → peer.liveness ≠ 0

theorem AllLive.modifyPeer (h : table.AllLive) (hf : ∀ peer, (f peer).liveness = peer.liveness) :
    (table.modifyPeer nodeId f).AllLive := by
  intro peer hpeer
  rcases hpeer.of_modifyPeer with hold | ⟨old, hold, -, rfl⟩
  · exact h peer hold
  · rw [hf]
    exact h old hold

theorem AllLive.insertNode (h : table.AllLive) (node : Node) (now : Nat) : (table.insertNode node now).2.AllLive := by
  intro peer hpeer
  rcases hpeer.of_insertNode with hold | rfl
  · exact h peer hold
  · exact Nat.one_ne_zero

omit [Keccak256] in
/-- Replacements are as they came: with liveness, and without a ping to answer. -/
def Fresh (table : KademliaTable) : Prop :=
  ∀ idx, ∀ peer ∈ (table.buckets.get idx).replacements, peer.revalidation = none ∧ peer.liveness ≠ 0

omit [Keccak256] in
theorem Fresh.setBucket (h : table.Fresh)
    (hbucket : ∀ peer ∈ bucket.replacements, peer ∈ (table.buckets.get idx).replacements ∨
      peer.revalidation = none ∧ peer.liveness ≠ 0) :
    (table.setBucket idx bucket).Fresh := by
  intro j peer hpeer
  rw [get_setBucket] at hpeer
  split_ifs at hpeer
  · exact (hbucket peer hpeer).elim (h idx peer) id
  · exact h j peer hpeer

theorem Fresh.modifyPeer (h : table.Fresh) (f : PeerData → PeerData) : (table.modifyPeer nodeId f).Fresh := by
  cases hfound : table.getByNodeId nodeId with
  | none => rwa [modifyPeer_of_none hfound]
  | some peer =>
    obtain ⟨place, -, hwrite⟩ := modifyPeer_of_some hfound
    rw [hwrite]
    exact h.setBucket fun _ => .inl

theorem Fresh.insertNode (h : table.Fresh) (node : Node) (now : Nat) : (table.insertNode node now).2.Fresh := by
  rw [KademliaTable.insertNode, insertNodeInner]
  dsimp only
  split_ifs
  · exact h
  · exact h
  · refine h.setBucket fun peer hpeer => ?_
    rcases mem_append.mp hpeer with hpeer | hpeer
    · split at hpeer
      · exact .inl (mem_of_mem_eraseIdx hpeer)
      · exact .inl hpeer
    · rw [mem_singleton.mp hpeer]
      exact .inr ⟨rfl, Nat.one_ne_zero⟩
  · exact h.setBucket fun peer hpeer => .inl (mem_of_mem_filter hpeer)

theorem Fresh.replacePeer (h : table.Fresh) (hfound : table.getByNodeId nodeId = some peer) :
    (table.replacePeer nodeId).2.Fresh := by
  obtain ⟨place, -, ⟨newPeer, -, hreplace⟩ | ⟨-, hreplace⟩⟩ := replacePeer_of_some hfound
  · rw [hreplace]
    exact h.setBucket fun _ hpeer => .inl (mem_of_mem_dropLast hpeer)
  · rw [hreplace]
    exact h.setBucket fun _ hpeer => absurd hpeer not_mem_nil

theorem WellFormed.isSome_modifyPeer (h : table.WellFormed)
    (hf : ∀ peer, (f peer).node = peer.node) (other : H512) :
    ((table.modifyPeer nodeId f).getByNodeId other).isSome = (table.getByNodeId other).isSome := by
  by_cases heq : other = nodeId
  · rw [heq, h.getByNodeId_modifyPeer_self hf, Option.isSome_map]
  · rw [h.getByNodeId_modifyPeer_of_ne hf heq]

end KademliaTable

/-! ## Steps -/

def Shared.request [Keccak256] (s : Shared) (nodeId : H512) : Option FindNodeRequest :=
  (s.table.getByNodeId nodeId).bind PeerData.findNodeRequest

/-- The last packet that was received is a `Neighbors` message of the peer. It comes a minute after the request or
later, or it completes the nodes that a request can have. -/
def EndedBy (log : List Event) (now : Nat) (nodeId : H512) (req : FindNodeRequest) : Prop :=
  ∃ source packet msg, Handling source packet log ∧ packet.nodeId = nodeId ∧ packet.message = .neighbors msg ∧
    (60 ≤ now - req.sentAt ∨ req.nodesSent + msg.nodes.length = MAX_NODES_PER_BUCKET)

/-- What a step of a task does to the table. -/
inductive TableStep [Keccak256] (task : Task) (lock : Option Task) (log : List Event) (now : Nat)
    (table : KademliaTable) : KademliaTable → Prop
  | same : TableStep task lock log now table table
  | insert (node : Node) : TableStep task lock log now table (table.insertNode node now).2
  /-- A ping or a request is entered, or a request is taken out. -/
  | note (nodeId : H512) {f : PeerData → PeerData} (node : ∀ peer, (f peer).node = peer.node)
      (kept : ∀ peer, (f peer).liveness = peer.liveness ∧ (f peer).revalidation = peer.revalidation)
      (ends : ∀ peer req, table.getByNodeId nodeId = some peer → peer.findNodeRequest = some req →
        (f peer).findNodeRequest = none → task = .server ∧ EndedBy log now nodeId req) :
      TableStep task lock log now table (table.modifyPeer nodeId f)
  | answer (nodeId : H512) (server : task = .server) : TableStep task lock log now table (table.pongAnswered nodeId now)
  | record (nodeId : H512) (pingHash : Option H256) (revalidation : task = .revalidation) :
      TableStep task lock log now table (table.updatePeerPingWithRevalidation nodeId pingHash now)
  | check {nodeId : H512} {peer peer' : PeerData} (revalidation : task = .revalidation)
      (locked : lock = some .revalidation)
      (found : table.getByNodeId nodeId = some peer) (live : peer.liveness ≠ 0)
      (checked : (peer.revalidated : Outcome Empty PeerData) = .ok peer') :
      TableStep task lock log now table (table.modifyPeer nodeId fun _ => peer')
  | evict {nodeId : H512} {peer : PeerData} (revalidation : task = .revalidation)
      (found : table.getByNodeId nodeId = some peer) (dead : peer.liveness = 0) :
      TableStep task lock log now table (table.replacePeer nodeId).2

namespace TableStep

variable [Keccak256] {table : KademliaTable}

theorem check_eq (found : table.getByNodeId nodeId = some peer)
    (checked : (peer.revalidated : Outcome Empty PeerData) = .ok peer') :
    table.modifyPeer nodeId (fun _ => peer') =
      table.modifyPeer nodeId fun old => { peer' with node := old.node } := by
  refine KademliaTable.modifyPeer_congr fun other hother => ?_
  rw [found] at hother
  cases hother
  obtain ⟨liveness, rfl, -⟩ := PeerData.revalidated_ok checked
  rfl

theorem wellFormed (h : TableStep task lock log now table table') (hwell : table.WellFormed) : table'.WellFormed := by
  cases h with
  | same => exact hwell
  | insert node => exact hwell.insertNode node now
  | note nodeId node => exact hwell.modifyPeer nodeId node
  | answer nodeId => exact hwell.modifyPeer nodeId fun _ => rfl
  | record nodeId => exact hwell.modifyPeer nodeId fun _ => rfl
  | check _ _ found _ checked =>
    rw [check_eq found checked]
    exact hwell.modifyPeer _ fun _ => rfl
  | evict => exact hwell.replacePeer _

theorem fresh (h : TableStep task lock log now table table') (hfresh : table.Fresh) : table'.Fresh := by
  cases h with
  | same => exact hfresh
  | insert node => exact hfresh.insertNode node now
  | note => exact hfresh.modifyPeer _
  | answer => exact hfresh.modifyPeer _
  | record => exact hfresh.modifyPeer _
  | check => exact hfresh.modifyPeer _
  | evict _ found => exact hfresh.replacePeer found

/-- Only the revalidation takes liveness from a peer. -/
theorem allLive (h : TableStep task lock log now table table') (htask : task ≠ .revalidation) (hlive : table.AllLive) :
    table'.AllLive := by
  cases h with
  | same => exact hlive
  | insert node => exact hlive.insertNode node now
  | note nodeId _ kept => exact hlive.modifyPeer fun peer => (kept peer).1
  | answer => exact hlive.modifyPeer fun _ => rfl
  | record _ _ revalidation => exact absurd revalidation htask
  | check revalidation => exact absurd revalidation htask
  | evict revalidation => exact absurd revalidation htask

/-- Only the revalidation takes peers out of the table. -/
theorem isSome (h : TableStep task lock log now table table') (htask : task ≠ .revalidation) (hwell : table.WellFormed)
    (hfound : (table.getByNodeId nodeId).isSome) : (table'.getByNodeId nodeId).isSome := by
  cases h with
  | same => exact hfound
  | insert node =>
    rcases hwell.getByNodeId_insertNode node now nodeId with heq | ⟨hnone, -⟩
    · rwa [heq]
    · rw [hnone] at hfound
      cases hfound
  | note _ node => rwa [hwell.isSome_modifyPeer node]
  | answer =>
    unfold KademliaTable.pongAnswered
    rwa [hwell.isSome_modifyPeer (by intro; rfl)]
  | record _ _ revalidation => exact absurd revalidation htask
  | check revalidation => exact absurd revalidation htask
  | evict revalidation => exact absurd revalidation htask

end TableStep

/-! ### Peers -/

/-- What a step of a task does to the entry of a peer. -/
inductive EntryStep (task : Task) (lock : Option Task) (log : List Event) (now : Nat) (nodeId : H512) :
    Option PeerData → Option PeerData → Prop
  | same {entry : Option PeerData} : EntryStep task lock log now nodeId entry entry
  | appear {peer : PeerData} (flag : peer.revalidation = none) (live : peer.liveness ≠ 0) :
      EntryStep task lock log now nodeId none (some peer)
  | note {peer peer' : PeerData} (liveness : peer'.liveness = peer.liveness)
      (flag : peer'.revalidation = peer.revalidation)
      (ends : ∀ req, peer.findNodeRequest = some req → peer'.findNodeRequest = none →
        task = .server ∧ EndedBy log now nodeId req) : EntryStep task lock log now nodeId (some peer) (some peer')
  | answer {peer peer' : PeerData} (liveness : peer'.liveness = peer.liveness)
      (flag : peer'.revalidation = peer.revalidation.map fun _ => true)
      (request : peer'.findNodeRequest = peer.findNodeRequest) :
      EntryStep task lock log now nodeId (some peer) (some peer')
  | record {peer : PeerData} (pingHash : Option H256) (revalidation : task = .revalidation) :
      EntryStep task lock log now nodeId (some peer)
        (some { peer with lastPingHash := pingHash, lastPing := now, revalidation := some false })
  | check {peer peer' : PeerData} (revalidation : task = .revalidation) (locked : lock = some .revalidation)
      (live : peer.liveness ≠ 0) (checked : (peer.revalidated : Outcome Empty PeerData) = .ok peer') :
      EntryStep task lock log now nodeId (some peer) (some peer')
  | evict {peer : PeerData} (dead : peer.liveness = 0) : EntryStep task lock log now nodeId (some peer) none

theorem TableStep.entry [Keccak256] {table : KademliaTable} (h : TableStep task lock log now table table')
    (hwell : table.WellFormed) (hfresh : table.Fresh) (nodeId : H512) :
    EntryStep task lock log now nodeId (table.getByNodeId nodeId) (table'.getByNodeId nodeId) := by
  have hsame (heq : table'.getByNodeId nodeId = table.getByNodeId nodeId) :
      EntryStep task lock log now nodeId (table.getByNodeId nodeId) (table'.getByNodeId nodeId) := heq ▸ .same
  have hmodify {target : H512} {f : PeerData → PeerData} (htable : table' = table.modifyPeer target f)
      (hf : ∀ peer, (f peer).node = peer.node)
      (hself : target = nodeId → ∀ peer, table.getByNodeId nodeId = some peer →
        EntryStep task lock log now nodeId (some peer) (some (f peer))) :
      EntryStep task lock log now nodeId (table.getByNodeId nodeId) (table'.getByNodeId nodeId) := by
    subst htable
    by_cases heq : nodeId = target
    · subst heq
      rw [hwell.getByNodeId_modifyPeer_self hf]
      cases hfound : table.getByNodeId nodeId with
      | none => exact .same
      | some peer => exact hself rfl peer hfound
    · exact hsame (hwell.getByNodeId_modifyPeer_of_ne hf heq)
  cases h with
  | same => exact .same
  | insert node =>
    rcases hwell.getByNodeId_insertNode node now nodeId with heq | ⟨hnone, hsome⟩
    · exact hsame heq
    · rw [hnone, hsome]
      exact .appear rfl Nat.one_ne_zero
  | note target node kept ends =>
    refine hmodify rfl node fun htarget peer hpeer => ?_
    subst htarget
    exact .note (kept peer).1 (kept peer).2 fun req => ends peer req hpeer
  | answer => exact hmodify rfl (by intro; rfl) fun _ _ _ => .answer rfl rfl rfl
  | record _ pingHash revalidation => exact hmodify rfl (by intro; rfl) fun _ _ _ => .record pingHash revalidation
  | check revalidation locked found live checked =>
    refine hmodify (check_eq found checked) (by intro; rfl) fun htarget peer hpeer => ?_
    subst htarget
    cases found.symm.trans hpeer
    refine .check revalidation locked live (checked.trans ?_)
    obtain ⟨liveness, rfl, -⟩ := PeerData.revalidated_ok checked
    rfl
  | @evict target _ _ found dead =>
    by_cases heq : nodeId = target
    · subst heq
      rw [hwell.getByNodeId_replacePeer_self found, found]
      exact .evict dead
    · rcases hwell.getByNodeId_replacePeer_of_ne found heq with heq | ⟨hnone, newPeer, hmem, hsome⟩
      · exact hsame heq
      · rw [hnone, hsome]
        exact .appear (hfresh _ newPeer hmem).1 (hfresh _ newPeer hmem).2

/-- As long as a peer stays in the table, its request is taken out for a `Neighbors` message only. -/
theorem EntryStep.endedBy (h : EntryStep task lock log now nodeId (some peer) (some peer'))
    (hreq : peer.findNodeRequest = some req) (hnone : peer'.findNodeRequest = none) :
    task = .server ∧ EndedBy log now nodeId req := by
  cases h with
  | same => cases hreq.symm.trans hnone
  | note _ _ ends => exact ends req hreq hnone
  | answer _ _ request => cases hreq.symm.trans (request.symm.trans hnone)
  | record => cases hreq.symm.trans hnone
  | check _ _ _ checked =>
    obtain ⟨liveness, rfl, -⟩ := PeerData.revalidated_ok checked
    cases hreq.symm.trans hnone

/-! ### Buckets -/

/-- What a step can do to a bucket. Replacements are listed in the order in which they came. -/
inductive Bucket.Change (bucket : Bucket) : Bucket → Prop
  | same : Change bucket bucket
  /-- The entry of a peer changes. -/
  | update {place : Nat} {peer peer' : PeerData} (old : bucket.peers[place]? = some peer)
    (node : peer'.node = peer.node) :
      Change bucket ⟨bucket.peers.set place peer', bucket.replacements⟩
  /-- A node becomes a peer. -/
  | join (peer : PeerData) (room : bucket.replacements = []) : Change bucket ⟨bucket.peers ++ [peer], []⟩
  /-- A node becomes a replacement. -/
  | wait (peer : PeerData) : Change bucket (KademliaTable.insertAsReplacement peer bucket)
  /-- The latest replacement takes the place of a peer. -/
  | promote {place : Nat} {peer newPeer : PeerData} (old : bucket.peers[place]? = some peer) (dead : peer.liveness = 0)
      (latest : bucket.replacements.getLast? = some newPeer) :
      Change bucket ⟨bucket.peers.set place newPeer, bucket.replacements.dropLast⟩
  /-- There is no replacement for a peer. -/
  | remove {place : Nat} {peer : PeerData} (old : bucket.peers[place]? = some peer) (dead : peer.liveness = 0)
      (none : bucket.replacements = []) : Change bucket ⟨bucket.peers.eraseIdx place, []⟩

namespace TableStep

variable [Keccak256] {table : KademliaTable}

omit [Keccak256] in
theorem change_setBucket
    (h : Bucket.Change (table.buckets.get place) bucket) (idx : Fin NUMBER_OF_BUCKETS) :
    Bucket.Change (table.buckets.get idx) ((table.setBucket place bucket).buckets.get idx) := by
  rw [KademliaTable.get_setBucket]
  split_ifs with heq
  · exact heq ▸ h
  · exact .same

theorem change_modifyPeer {f : PeerData → PeerData}
    (hf : ∀ peer, table.getByNodeId nodeId = some peer → (f peer).node = peer.node) (idx : Fin NUMBER_OF_BUCKETS) :
    Bucket.Change (table.buckets.get idx) ((table.modifyPeer nodeId f).buckets.get idx) := by
  cases hfound : table.getByNodeId nodeId with
  | none =>
    rw [KademliaTable.modifyPeer_of_none hfound]
    exact .same
  | some peer =>
    obtain ⟨place, hplace, hwrite⟩ := KademliaTable.modifyPeer_of_some hfound
    rw [hwrite]
    exact change_setBucket (.update hplace (hf peer hfound)) idx

theorem change_insertNode (hwell : table.WellFormed) (node : Node) (now : Nat) (idx : Fin NUMBER_OF_BUCKETS) :
    Bucket.Change (table.buckets.get idx) ((table.insertNode node now).2.buckets.get idx) := by
  rw [KademliaTable.insertNode, KademliaTable.insertNodeInner]
  dsimp only
  split_ifs with hpeers hreplacements hfull
  · exact .same
  · exact .same
  · exact change_setBucket (.wait _) idx
  · have hroom : (table.buckets.get (table.bucketIdx node.nodeId)).peers.length ≠ MAX_NODES_PER_BUCKET := by
      simpa using hfull
    have hnone := (hwell (table.bucketIdx node.nodeId)).replacements_eq_nil hroom
    refine change_setBucket ?_ idx
    rw [KademliaTable.removeFromReplacements, hnone]
    exact .join _ hnone

theorem change (h : TableStep task lock log now table table') (hwell : table.WellFormed) (idx : Fin NUMBER_OF_BUCKETS) :
    Bucket.Change (table.buckets.get idx) (table'.buckets.get idx) := by
  cases h with
  | same => exact .same
  | insert node => exact change_insertNode hwell node now idx
  | note _ node => exact change_modifyPeer (fun peer _ => node peer) idx
  | answer => exact change_modifyPeer (by intros; rfl) idx
  | record => exact change_modifyPeer (by intros; rfl) idx
  | check _ _ found _ checked =>
    refine change_modifyPeer (fun other hother => ?_) idx
    obtain ⟨liveness, rfl, -⟩ := PeerData.revalidated_ok checked
    rw [found] at hother
    cases hother
    rfl
  | evict _ found dead =>
    obtain ⟨place, hplace, ⟨newPeer, hlast, hreplace⟩ | ⟨hnil, hreplace⟩⟩ := KademliaTable.replacePeer_of_some found
    · rw [hreplace]
      exact change_setBucket (.promote hplace dead hlast) idx
    · rw [hreplace]
      exact change_setBucket (.remove hplace dead hnil) idx

end TableStep

end EthereumRust.Net
