import EthereumRust.Net.Neighbors

/-! # Who keeps the table

The peers that the revalidation has pinged are in the table when their turn comes. -/

namespace EthereumRust.Net

open Rlp Mpt

section

variable [Keccak256] [K256]

omit [K256] in
/-- If the peer were gone, the task would read this and panic. -/
theorem panics_of_turn {pool : Pool Task Input Shared} {k : Unit → Discovery Unit}
    (htask : pool.tasks[n]? = some (label, (turn udpAddr signer nodeId).bind k))
    (hgone : pool.state.table.getByNodeId nodeId = none) (i : Input) :
    ∃ pool' pool'', pool.step n i = some pool' ∧ pool'.step n i = some pool'' ∧
      (.revalidation, missingPeer) ∈ pool''.state.panics := by
  have hread : ((turn udpAddr signer nodeId).bind k).step i pool.state =
      some (abort .revalidation missingPeer, [], { pool.state with now := pool.state.now + i.elapsed }) := by
    change some (Prog.bind (Prog.bind (checked .revalidation
      (Rust.expect (pool.state.table.getByNodeId nodeId) _)) _) k, [], _) = _
    rw [hgone]
    rfl
  have hnext : (pool.tasks.set n (label, (abort .revalidation missingPeer : Discovery Unit)) ++ [])[n]? =
      some (label, abort .revalidation missingPeer) := by
    rw [List.append_nil, List.getElem?_set_self (List.getElem?_eq_some_iff.mp htask).1]
  exact ⟨_, _, Pool.step_of_task htask hread, Pool.step_of_task hnext rfl, List.mem_cons_self⟩

/-- In every run, a peer that the revalidation has pinged is in the table when its turn comes, so that the revalidation
does not panic for want of it. Outside of the turns no peer is without liveness, and every step that takes a peer from
its bucket puts the latest replacement in its place, if there is one. -/
theorem revalidation_keeps_track {udpAddr : SocketAddr} {signer : SigningKey} {bootnodes : List BootNode} {now : Nat}
    {choices : List (Nat × Input)} {pool : Pool Task Input Shared}
    (hrun : (discoverPeers udpAddr signer bootnodes now).run choices = some pool) :
    (∀ (n : Nat) label nodeId k, pool.tasks[n]? = some (label, (turn udpAddr signer nodeId).bind k) →
      (pool.state.table.getByNodeId nodeId).isSome) ∧
    (.revalidation, missingPeer) ∉ pool.state.panics ∧
    (pool.state.lock ≠ some .revalidation → ∀ peer ∈ pool.state.table.peers, peer.liveness ≠ 0) ∧
    ∀ n i pool', pool.step n i = some pool' → ∀ idx,
      Bucket.Change (pool.state.table.buckets.get idx) (pool'.state.table.buckets.get idx) := by
  have hfollows := (follows_discoverPeers bootnodes udpAddr signer now).run hrun
  refine ⟨fun n label nodeId k htask => ?_, hfollows.inv.found, fun hlock peer hpeer => ?_,
    fun n i pool' hstep idx => ?_⟩
  · by_contra hgone
    obtain ⟨pool', pool'', hstep, hstep', hpanic⟩ := panics_of_turn htask (Option.not_isSome_iff_eq_none.mp hgone)
      ⟨0, [], udpAddr, none, nodeId, []⟩
    exact ((hfollows.step hstep).step hstep').inv.found hpanic
  · exact hfollows.inv.live hlock peer (KademliaTable.holds_of_mem_peers hpeer)
  · obtain ⟨task, -, hsame | hchanges⟩ := hfollows.changes hstep
    · rw [hsame]
      exact .same
    · exact hchanges.table.change hfollows.inv.table idx

end

namespace Sample

def laterPing : Message := .ping (.new (endpoint localAddr) (endpoint nodeAddr) 1050)
def laterPingHash : Nat := 0x15ec4effd19bc764d6b04fee1374a68aeb40c5087149b1136976a61b87ab2f73
def laterPong : Message := .pong (.new (endpoint localAddr) ⟨beBytes 32 laterPingHash, length_beBytes _ _⟩ 100000)

@[reducible] def laterKeccak : Keccak256 := Keccak256.ofTable
  [(signed ourPing, ourPingHash), (signed laterPing, laterPingHash),
    (signed laterPong, 0x5b236096493c5763ecc20225373081d30c658d0d7abb492e405121ea18f4b183),
    (List.replicate 64 4, 0xd73222fc071b1494828915725ec7529be23fdfd2c28075be3e06dcab3c7d62c5),
    (List.replicate 64 5, 0x27208b5238e95f11617aba9cbf277e66e21326baa03d3099c4cc55bd58745bcd)]

def move [Keccak256] (index elapsed : Nat) (order : List H512) : Nat × Input :=
  (index, ⟨elapsed, (digest (signed laterPong)).1 ++ signed laterPong, nodeAddr, some (32 + (signed ourPing).length),
    signer.nodeId, order⟩)

def joining [Keccak256] : List (Nat × Input) := List.replicate 4 (move 2 0 [])

def answering [Keccak256] : List (Nat × Input) :=
  [move 1 0 [], move 1 0 [], move 1 30 [], move 1 0 [], move 1 0 [], move 1 0 [], move 1 0 []] ++
    List.replicate 8 (move 0 0 [])

def checking [Keccak256] : List (Nat × Input) :=
  [move 1 0 [], move 1 0 [], move 1 30 [], move 1 0 [bootnode.nodeId]] ++ List.replicate 5 (move 1 0 [])

def state [Keccak256] [K256] (choices : List (Nat × Input)) : Option Shared :=
  ((discoverPeers localAddr signer [bootnode] 1000).run choices).map Pool.state

end Sample

/-- A run in which the peer loses its place. -/
theorem revalidation_keeps_track_bootnode :
    letI := Sample.laterKeccak
    letI := K256.checked
    ∃ pool, (discoverPeers Sample.localAddr Sample.signer [Sample.bootnode] 1000).run
        (Sample.joining ++ Sample.answering ++ Sample.checking) = some pool ∧
      (.revalidation, missingPeer) ∉ pool.state.panics ∧
      (pool.state.lock ≠ some .revalidation → ∀ peer ∈ pool.state.table.peers, peer.liveness ≠ 0) := by
  let := Sample.laterKeccak
  let := K256.checked
  obtain ⟨pool, hrun⟩ := Option.isSome_iff_exists.mp (by decide +kernel :
    ((discoverPeers Sample.localAddr Sample.signer [Sample.bootnode] 1000).run
      (Sample.joining ++ Sample.answering ++ Sample.checking)).isSome)
  have htrack := revalidation_keeps_track hrun
  exact ⟨pool, hrun, htrack.2.1, htrack.2.2.1⟩

end EthereumRust.Net
