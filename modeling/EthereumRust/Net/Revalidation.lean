import EthereumRust.Net.Closest

/-! # The peers that are revalidated -/

namespace EthereumRust.Net
open Rlp Mpt List

/-! ## Which peers are pinged

Of the peers in the table those whose last pong is the oldest are kept, by a pass that puts each
peer in the place of the most recent one. -/

namespace KademliaTable

def peers (self : KademliaTable) : List PeerData := self.buckets.toList.flatMap Bucket.peers

def laterOf {ε : Type} (peers : List PeerData) (mostRecent : Nat) (other : PeerData × Nat) : Outcome ε Nat := do
  let recent ← Rust.index peers mostRecent
  pure (if recent.lastPong < other.1.lastPong then other.2 else mostRecent)

def keepStaler {ε : Type} (limit : Nat) (peers : List PeerData) (peer : PeerData) : Outcome ε (List PeerData) := do
  if peers.length < limit then pure (peers ++ [peer])
  else
    let mostRecent ← mostRecentIndex peers
    let recent ← Rust.index peers mostRecent
    pure (if peer.lastPong < recent.lastPong then peers.set mostRecent peer else peers)

variable {ε : Type} {kept : List PeerData}

/-- The search ends at a peer with the latest pong. -/
theorem mostRecentIndex_ok (h : kept ≠ []) :
    ∃ i peer, (mostRecentIndex kept : Outcome ε Nat) = .ok i ∧ kept[i]? = some peer ∧
      ∀ other ∈ kept, other.lastPong ≤ peer.lastPong := by
  -- the rounds compare with entries of the whole list, of which only the first ones have been read
  suffices hread : ∀ read, read <+: kept → ∃ i peer,
      (read.zipIdx.foldlM (laterOf kept) 0 : Outcome ε Nat) = .ok i ∧ kept[i]? = some peer ∧
      ∀ other ∈ read, other.lastPong ≤ peer.lastPong from hread kept prefix_rfl
  intro read
  induction read using List.reverseRecOn with
  | nil =>
    intro _
    obtain ⟨first, rest, rfl⟩ := exists_cons_of_ne_nil h
    exact ⟨0, first, rfl, rfl, by simp⟩
  | append_singleton read last ih =>
    intro hread
    obtain ⟨i, peer, hi, hpeer, hlatest⟩ := ih ((prefix_append _ _).trans hread)
    have hlast : kept[read.length]? = some last := by
      obtain ⟨rest, rfl⟩ := hread
      simp
    have hround : (laterOf kept i (last, read.length) : Outcome ε Nat) =
        .ok (if peer.lastPong < last.lastPong then read.length else i) := by
      rw [laterOf, Rust.index_ok hpeer]
      rfl
    have hfold : ((read ++ [last]).zipIdx.foldlM (laterOf kept) 0 : Outcome ε Nat) =
        .ok (if peer.lastPong < last.lastPong then read.length else i) := by
      rw [zipIdx_append, foldlM_append, hi, Outcome.bind_ok, zipIdx_cons,
        foldlM_cons, Nat.zero_add, hround]
      rfl
    rw [hfold]
    split_ifs with hlt
    · refine ⟨_, last, rfl, hlast, fun other hother => ?_⟩
      rcases mem_append.mp hother with hother | hother
      · exact (hlatest other hother).trans hlt.le
      · rw [mem_singleton.mp hother]
    · refine ⟨_, peer, rfl, hpeer, fun other hother => ?_⟩
      rcases mem_append.mp hother with hother | hother
      · exact hlatest other hother
      · rw [mem_singleton.mp hother]
        exact Nat.le_of_not_lt hlt

theorem step_keepStaler (hlimit : 1 ≤ limit) (kept : List PeerData) (peer : PeerData) :
    ∃ kept', (keepStaler limit kept peer : Outcome ε (List PeerData)) = .ok kept' ∧
      Smallest.Step PeerData.lastPong limit kept peer kept' := by
  rw [keepStaler]
  split_ifs with hroom
  · exact ⟨_, rfl, .room hroom⟩
  have hfull := Nat.le_of_not_lt hroom
  have hne : kept ≠ [] := ne_nil_of_length_pos (hlimit.trans hfull)
  obtain ⟨i, recent, hi, hrecent, hlatest⟩ := mostRecentIndex_ok (ε := ε) hne
  rw [hi, Outcome.bind_ok, Rust.index_ok hrecent, Outcome.bind_ok]
  split_ifs with hlt
  · exact ⟨_, rfl, .replace hfull hrecent hlt hlatest⟩
  · exact ⟨_, rfl, .skip hfull fun other hother => (hlatest other hother).trans (Nat.le_of_not_lt hlt)⟩

theorem smallest_foldlM_keepStaler {all left} (hlimit : 1 ≤ limit) (read : List PeerData)
    (h : Smallest PeerData.lastPong limit all kept left) :
    ∃ final left', (read.foldlM (keepStaler limit) kept : Outcome ε (List PeerData)) = .ok final ∧
      Smallest PeerData.lastPong limit (all + read) final left' := by
  induction read generalizing kept all left with
  | nil => exact ⟨kept, left, rfl, by rwa [Multiset.coe_nil, add_zero]⟩
  | cons peer read ih =>
    obtain ⟨kept', hround, hstep⟩ := step_keepStaler (ε := ε) hlimit kept peer
    obtain ⟨left', hkept'⟩ := h.step hstep
    obtain ⟨final, left'', hfold, hfinal⟩ := ih hkept'
    refine ⟨final, left'', ?_, ?_⟩
    · rw [foldlM_cons, hround]
      exact hfold
    · rwa [← Multiset.cons_coe, Multiset.add_cons, ← Multiset.cons_add]

theorem getLeastRecentlyPingedPeers_run (table : KademliaTable) (hlimit : 1 ≤ limit) :
    ∃ peers left, (table.getLeastRecentlyPingedPeers limit : Outcome ε (List PeerData)) = .ok peers ∧
      Smallest PeerData.lastPong limit ↑table.peers ↑peers left := by
  have hstart : Smallest PeerData.lastPong limit ↑([] : List PeerData) ↑([] : List PeerData) 0 :=
    .refl _ (Nat.zero_le limit)
  obtain ⟨peers, left, hok, hsmallest⟩ := smallest_foldlM_keepStaler (ε := ε) hlimit table.peers hstart
  exact ⟨peers, left, hok, hsmallest⟩

theorem getLeastRecentlyPingedPeers_ok (table : KademliaTable) (hlimit : 1 ≤ limit) :
    ∃ peers, (table.getLeastRecentlyPingedPeers limit : Outcome ε (List PeerData)) = .ok peers ∧
      ∀ peer ∈ peers, peer ∈ table.peers := by
  obtain ⟨peers, left, hok, hsmallest⟩ := getLeastRecentlyPingedPeers_run (ε := ε) table hlimit
  refine ⟨peers, hok, fun peer hpeer => ?_⟩
  have hmem : peer ∈ (↑peers + left : Multiset PeerData) := Multiset.mem_add.mpr (.inl (Multiset.mem_coe.mpr hpeer))
  rw [← hsmallest.split] at hmem
  exact Multiset.mem_coe.mp hmem

/-- For a limit of at least one, so many of the peers with the oldest pongs are returned, each as often as the table has
it, which is once by its id if the table is well-formed. -/
theorem getLeastRecentlyPingedPeers_smallest [Keccak256] {ε : Type} (table : KademliaTable) (limit : Nat)
    (h : 1 ≤ limit) :
    ∃ peers left, (table.getLeastRecentlyPingedPeers limit : Outcome ε (List PeerData)) = .ok peers ∧
      (table.peers : Multiset PeerData) = peers + left ∧ peers.length = min limit table.peers.length ∧
      (∀ peer ∈ peers, ∀ other ∈ left, peer.lastPong ≤ other.lastPong) ∧
      (table.WellFormed → (peers.map fun peer => peer.node.nodeId).Nodup) := by
  obtain ⟨peers, left, hok, hsmallest⟩ := getLeastRecentlyPingedPeers_run (ε := ε) table h
  refine ⟨peers, left, hok, hsmallest.split, hsmallest.card, hsmallest.le, fun hwell => ?_⟩
  have hall : ((table.peers : Multiset PeerData).map fun peer => peer.node.nodeId).Nodup := by
    have hnodes := hwell.nodup_nodes
    rw [nodes, List.map_map] at hnodes
    exact hnodes
  rw [hsmallest.split, Multiset.map_add] at hall
  exact (Multiset.nodup_add.mp hall).1

theorem getLeastRecentlyPingedPeers_smallest_tableOf :
    letI := Keccak256.firstBytes
    let table := tableOf [1, 2, 3]
    1 ≤ 2 ∧ ∃ peers left, (table.getLeastRecentlyPingedPeers 2 : Outcome RLPDecodeError (List PeerData)) = .ok peers ∧
      (table.peers : Multiset PeerData) = peers + left ∧ peers.length = min 2 table.peers.length ∧
      (∀ peer ∈ peers, ∀ other ∈ left, peer.lastPong ≤ other.lastPong) ∧
      (table.WellFormed → (peers.map fun peer => peer.node.nodeId).Nodup) := by
  let := Keccak256.firstBytes
  exact ⟨by decide, getLeastRecentlyPingedPeers_smallest (tableOf [1, 2, 3]) 2 (by decide)⟩

end KademliaTable
end EthereumRust.Net
