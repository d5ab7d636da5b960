import Mathlib.Data.Nat.Size
import EthereumRust.Net.Types
import EthereumRust.Trie.NodeHash

/-! # `crates/net/kademlia.rs`: the table of peers -/

namespace EthereumRust.Net

open Rlp Mpt

def MAX_NODES_PER_BUCKET : Nat := 16
def NUMBER_OF_BUCKETS : Nat := 256
def MAX_NUMBER_OF_REPLACEMENTS : Nat := 10

/-! ## Peers -/

structure FindNodeRequest where
  nodesSent : Nat
  sentAt : Nat
  /-- The channel through which the nodes are forwarded. -/
  tx : Option Nat
  deriving DecidableEq

structure PeerData where
  node : Node
  lastPing : Nat
  lastPong : Nat
  lastPingHash : Option H256
  isProven : Bool
  findNodeRequest : Option FindNodeRequest
  liveness : Nat
  revalidation : Option Bool
  deriving DecidableEq

namespace PeerData

def new (record : Node) (lastPing lastPong : Nat) (isProven : Bool) : PeerData where
  node := record
  lastPing := lastPing
  lastPong := lastPong
  lastPingHash := none
  isProven := isProven
  findNodeRequest := none
  liveness := 1
  revalidation := none

def newFindNodeRequestWithSender (self : PeerData) (sender now : Nat) : PeerData :=
  { self with findNodeRequest := some ⟨0, now, some sender⟩ }

def incrementLiveness {ε : Type} (self : PeerData) : Outcome ε PeerData :=
  if self.liveness + 1 < 2 ^ 16 then .ok { self with liveness := self.liveness + 1 }
  else Outcome.panic "attempt to add with overflow"

def decrementLiveness (self : PeerData) : PeerData := { self with liveness := self.liveness / 3 }

end PeerData

structure Bucket where
  peers : List PeerData
  replacements : List PeerData
  deriving DecidableEq

/-! ## The table -/

structure KademliaTable where
  localNodeId : H512
  buckets : Vector Bucket NUMBER_OF_BUCKETS

section

variable [Keccak256]

def bucketNumber (nodeId₁ nodeId₂ : H512) : Nat :=
  let xor := List.zipWith (· ^^^ ·) (digest nodeId₁.1).1 (digest nodeId₂.1).1
  let distance := beNat xor
  distance.size - 1

theorem bucketNumber_lt (nodeId₁ nodeId₂ : H512) : bucketNumber nodeId₁ nodeId₂ < NUMBER_OF_BUCKETS := by
  have hlength : (List.zipWith (· ^^^ ·) (digest nodeId₁.1).1 (digest nodeId₂.1).1).length = 32 := by
    rw [List.length_zipWith, (digest nodeId₁.1).2, (digest nodeId₂.1).2]
    rfl
  have hlt : beNat (List.zipWith (· ^^^ ·) (digest nodeId₁.1).1 (digest nodeId₂.1).1) < 2 ^ 256 := by
    refine (beNat_lt _).trans_eq ?_
    rw [hlength]
    norm_num
  have hsize := Nat.size_le.mpr hlt
  rw [bucketNumber, NUMBER_OF_BUCKETS]
  omega

namespace KademliaTable

def new (localNodeId : H512) : KademliaTable := ⟨localNodeId, .replicate _ ⟨[], []⟩⟩

def bucketIdx (self : KademliaTable) (nodeId : H512) : Fin NUMBER_OF_BUCKETS :=
  ⟨bucketNumber nodeId self.localNodeId, bucketNumber_lt _ _⟩

def setBucket (self : KademliaTable) (idx : Fin NUMBER_OF_BUCKETS) (bucket : Bucket) : KademliaTable :=
  { self with buckets := self.buckets.set idx.1 bucket idx.2 }

def getByNodeId (self : KademliaTable) (nodeId : H512) : Option PeerData :=
  (self.buckets.get (self.bucketIdx nodeId)).peers.find? fun entry => entry.node.nodeId == nodeId

def modifyPeer (self : KademliaTable) (nodeId : H512) (f : PeerData → PeerData) : KademliaTable :=
  let bucket := self.buckets.get (self.bucketIdx nodeId)
  match bucket.peers.findIdx? fun entry => entry.node.nodeId == nodeId with
  | some idx => self.setBucket (self.bucketIdx nodeId) { bucket with peers := bucket.peers.modify idx f }
  | none => self

def insertAsReplacement (node : PeerData) (bucket : Bucket) : Bucket :=
  let replacements := if MAX_NUMBER_OF_REPLACEMENTS ≤ bucket.replacements.length
    then bucket.replacements.eraseIdx 0 else bucket.replacements
  { bucket with replacements := replacements ++ [node] }

def removeFromReplacements (nodeId : H512) (bucket : Bucket) : Bucket :=
  { bucket with replacements := bucket.replacements.filter fun r => r.node.nodeId != nodeId }

def insertNodeInner (self : KademliaTable) (node : Node) (bucketIdx : Fin NUMBER_OF_BUCKETS) (now : Nat) :
    (Option PeerData × Bool) × KademliaTable :=
  let bucket := self.buckets.get bucketIdx
  if bucket.peers.any fun p => p.node.nodeId == node.nodeId then ((none, false), self)
  else if bucket.replacements.any fun p => p.node.nodeId == node.nodeId then ((none, false), self)
  else
    let peer := PeerData.new node now 0 false
    if bucket.peers.length == MAX_NODES_PER_BUCKET then
      ((some peer, false), self.setBucket bucketIdx (insertAsReplacement peer bucket))
    else
      let bucket := removeFromReplacements node.nodeId bucket
      ((some peer, true), self.setBucket bucketIdx { bucket with peers := bucket.peers ++ [peer] })

def insertNode (self : KademliaTable) (node : Node) (now : Nat) : (Option PeerData × Bool) × KademliaTable :=
  self.insertNodeInner node (self.bucketIdx node.nodeId) now

/-- The first entry that is further away makes room for a closer one. -/
def replaceFurther (entry : Node × Nat) : List (Node × Nat) → List (Node × Nat)
  | [] => []
  | other :: rest => if entry.2 < other.2 then entry :: rest else other :: replaceFurther entry rest

def getClosestNodes (self : KademliaTable) (nodeId : H512) : List Node :=
  let peers := self.buckets.toList.flatMap Bucket.peers
  let nodes := peers.foldl (fun nodes peer =>
    let distance := bucketNumber nodeId peer.node.nodeId
    if nodes.length < MAX_NODES_PER_BUCKET then nodes ++ [(peer.node, distance)]
    else replaceFurther (peer.node, distance) nodes) []
  nodes.map Prod.fst

def pongAnswered (self : KademliaTable) (nodeId : H512) (now : Nat) : KademliaTable :=
  self.modifyPeer nodeId fun peer =>
    { peer with
      isProven := true
      lastPong := now
      lastPingHash := none
      revalidation := peer.revalidation.map fun _ => true }

def updatePeerPing (self : KademliaTable) (nodeId : H512) (pingHash : Option H256) (now : Nat) : KademliaTable :=
  self.modifyPeer nodeId fun peer => { peer with lastPingHash := pingHash, lastPing := now }

def updatePeerPingWithRevalidation (self : KademliaTable) (nodeId : H512) (pingHash : Option H256) (now : Nat) :
    KademliaTable :=
  self.modifyPeer nodeId fun peer =>
    { peer with lastPingHash := pingHash, lastPing := now, revalidation := some false }

/-- The index of the peer with the latest pong, the first of several. -/
def mostRecentIndex {ε : Type} (peers : List PeerData) : Outcome ε Nat :=
  peers.zipIdx.foldlM (fun mostRecent (otherPeer, i) => do
    let recent ← Rust.index peers mostRecent
    pure (if recent.lastPong < otherPeer.lastPong then i else mostRecent)) 0

def getLeastRecentlyPingedPeers {ε : Type} (self : KademliaTable) (limit : Nat) : Outcome ε (List PeerData) :=
  (self.buckets.toList.flatMap Bucket.peers).foldlM (fun peers peer => do
    if peers.length < limit then pure (peers ++ [peer])
    else
      let mostRecent ← mostRecentIndex peers
      let recent ← Rust.index peers mostRecent
      pure (if peer.lastPong < recent.lastPong then peers.set mostRecent peer else peers)) []

def replacePeerInner (self : KademliaTable) (nodeId : H512) (bucketIdx : Fin NUMBER_OF_BUCKETS) :
    Option PeerData × KademliaTable :=
  let bucket := self.buckets.get bucketIdx
  match bucket.peers.findIdx? fun peer => peer.node.nodeId == nodeId with
  | some idx =>
    match bucket.replacements.getLast? with
    | some newPeer =>
      (some newPeer, self.setBucket bucketIdx ⟨bucket.peers.set idx newPeer, bucket.replacements.dropLast⟩)
    | none => (none, self.setBucket bucketIdx { bucket with peers := bucket.peers.eraseIdx idx })
  | none => (none, self)

/-- Here the number of the bucket is computed with the local id first. -/
def replacePeer (self : KademliaTable) (nodeId : H512) : Option PeerData × KademliaTable :=
  self.replacePeerInner nodeId ⟨bucketNumber self.localNodeId nodeId, bucketNumber_lt _ _⟩

/-! ## What a table holds -/

omit [Keccak256] in
/-- A peer or a replacement of some bucket. -/
def Holds (self : KademliaTable) (peer : PeerData) : Prop :=
  ∃ idx, peer ∈ (self.buckets.get idx).peers ∨ peer ∈ (self.buckets.get idx).replacements

variable {table : KademliaTable}

omit [Keccak256] in
theorem get_setBucket (table : KademliaTable) (i j : Fin NUMBER_OF_BUCKETS) (bucket : Bucket) :
    (table.setBucket i bucket).buckets.get j = if i = j then bucket else table.buckets.get j := by
  change (table.buckets.set i.1 bucket i.2)[j.1] = _
  rw [Vector.getElem_set]
  simp only [Fin.ext_iff]
  rfl

omit [Keccak256] in
theorem Holds.of_setBucket
    (h : (table.setBucket i bucket).Holds peer) :
    table.Holds peer ∨ peer ∈ bucket.peers ∨ peer ∈ bucket.replacements := by
  obtain ⟨j, hj⟩ := h
  rw [get_setBucket] at hj
  split at hj
  · exact .inr hj
  · exact .inl ⟨j, hj⟩

omit [Keccak256] in
theorem not_holds_new (localNodeId : H512) : ¬ (new localNodeId).Holds peer := by
  rintro ⟨idx, h⟩
  have hempty : (new localNodeId).buckets.get idx = ⟨[], []⟩ := Vector.getElem_replicate _
  rw [hempty] at h
  exact h.elim List.not_mem_nil List.not_mem_nil

theorem holds_getByNodeId (h : table.getByNodeId nodeId = some peer) :
    table.Holds peer ∧ peer.node.nodeId = nodeId := by
  have hid := List.find?_some h
  exact ⟨⟨_, .inl (List.mem_of_find?_eq_some h)⟩, eq_of_beq hid⟩

theorem Holds.of_modifyPeer {f : PeerData → PeerData} (h : (table.modifyPeer nodeId f).Holds peer) :
    table.Holds peer ∨ ∃ old, table.Holds old ∧ old.node.nodeId = nodeId ∧ peer = f old := by
  unfold modifyPeer at h
  dsimp only at h
  split at h
  · rename_i idx hidx
    obtain ⟨hlt, hfound, -⟩ := List.findIdx?_eq_some_iff_getElem.mp hidx
    rcases h.of_setBucket with hold | hnew | hrepl
    · exact .inl hold
    · obtain ⟨n, hn⟩ := List.getElem?_of_mem hnew
      rw [List.getElem?_modify] at hn
      obtain ⟨old, hold, rfl⟩ := Option.map_eq_some_iff.mp hn
      by_cases hidx' : idx = n
      · subst hidx'
        refine .inr ⟨old, ⟨_, .inl (List.mem_of_getElem? hold)⟩, ?_, by simp⟩
        rw [(List.getElem?_eq_some_iff.mp hold).2] at hfound
        exact eq_of_beq hfound
      · exact .inl ⟨_, .inl (by simpa [hidx'] using List.mem_of_getElem? hold)⟩
    · exact .inl ⟨_, .inr hrepl⟩
  · exact .inl h

theorem Holds.of_insertNode (h : (table.insertNode node now).2.Holds peer) :
    table.Holds peer ∨ peer = .new node now 0 false := by
  unfold insertNode insertNodeInner at h
  dsimp only at h
  split_ifs at h
  · exact .inl h
  · exact .inl h
  · rcases h.of_setBucket with hold | hpeer | hrepl
    · exact .inl hold
    · exact .inl ⟨_, .inl hpeer⟩
    · rcases List.mem_append.mp hrepl with hrepl | hnew
      · refine .inl ⟨table.bucketIdx node.nodeId, .inr ?_⟩
        split at hrepl
        · exact List.mem_of_mem_eraseIdx hrepl
        · exact hrepl
      · exact .inr (List.mem_singleton.mp hnew)
  · rcases h.of_setBucket with hold | hpeer | hrepl
    · exact .inl hold
    · rcases List.mem_append.mp hpeer with hpeer | hnew
      · exact .inl ⟨_, .inl hpeer⟩
      · exact .inr (List.mem_singleton.mp hnew)
    · exact .inl ⟨_, .inr (List.mem_of_mem_filter hrepl)⟩

theorem insertNode_some (h : (table.insertNode node now).1.1 = some peer) :
    peer = .new node now 0 false := by
  unfold insertNode insertNodeInner at h
  dsimp only at h
  split_ifs at h <;> simp_all

theorem Holds.of_replacePeer (h : (table.replacePeer nodeId).2.Holds peer) : table.Holds peer := by
  unfold replacePeer replacePeerInner at h
  dsimp only at h
  split at h
  · split at h
    · rename_i newPeer hlast
      rcases h.of_setBucket with hold | hpeer | hrepl
      · exact hold
      · rcases List.mem_or_eq_of_mem_set hpeer with hpeer | rfl
        · exact ⟨_, .inl hpeer⟩
        · exact ⟨_, .inr (List.mem_of_getLast? hlast)⟩
      · exact ⟨_, .inr (List.mem_of_mem_dropLast hrepl)⟩
    · rcases h.of_setBucket with hold | hpeer | hrepl
      · exact hold
      · exact ⟨_, .inl (List.mem_of_mem_eraseIdx hpeer)⟩
      · exact ⟨_, .inr hrepl⟩
  · exact h

theorem holds_replacePeer (h : (table.replacePeer nodeId).1 = some peer) : table.Holds peer := by
  unfold replacePeer replacePeerInner at h
  dsimp only at h
  split at h
  · split at h
    · rename_i newPeer hlast
      cases h
      exact ⟨_, .inr (List.mem_of_getLast? hlast)⟩
    · cases h
  · cases h

omit [Keccak256] in
theorem exists_bucket_of_mem (h : peer ∈ table.buckets.toList.flatMap Bucket.peers) :
    ∃ idx, peer ∈ (table.buckets.get idx).peers := by
  obtain ⟨bucket, hbucket, hpeer⟩ := List.mem_flatMap.mp h
  obtain ⟨i, hi, rfl⟩ := List.getElem_of_mem hbucket
  exact ⟨⟨i, by simpa using hi⟩, hpeer⟩

omit [Keccak256] in
theorem holds_of_mem_peers (h : peer ∈ table.buckets.toList.flatMap Bucket.peers) : table.Holds peer := by
  obtain ⟨idx, hpeer⟩ := exists_bucket_of_mem h
  exact ⟨idx, .inl hpeer⟩

end KademliaTable
end
end EthereumRust.Net
