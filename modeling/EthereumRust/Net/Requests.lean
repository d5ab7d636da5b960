import EthereumRust.Lib.Runs
import EthereumRust.Net.Upkeep

/-! # Which peers a lookup asks

A lookup passes by the peers that have a request in the table, however old. Only a
`Neighbors` message of the peer takes it out again, if it comes a minute later or completes
the sixteen nodes. -/

namespace EthereumRust.Net

open Rlp Mpt

section

variable [Keccak256]

/-- The lookup asks the node: a request with a channel of its own is in the table, and its message is sent next. -/
structure AsksNode {α : Type} (signer : SigningKey) (target : H512) (node : Node) (s s' : Shared)
    (rest : Discovery α) : Prop where
  entered : (s'.table.getByNodeId node.nodeId).bind PeerData.findNodeRequest =
    some ⟨0, s'.now, some s.channels.length⟩
  channel : s'.channels = s.channels ++ [[]]
  sends : ∃ k, rest = (findNodeAndWaitForResponse node.udpAddr signer target s.channels.length).bind k

variable {s : Shared}

theorem openRequest_of_none (hpeer : s.table.getByNodeId nodeId = some peer)
    (hrequest : peer.findNodeRequest = none) : s.openRequest nodeId = (some s.channels.length,
      { s with
        table := s.table.modifyPeer nodeId fun peer => peer.newFindNodeRequestWithSender s.channels.length s.now
        channels := s.channels ++ [[]] }) := by
  simp only [Shared.openRequest, hpeer, hrequest, Option.isSome_none, Bool.false_eq_true, if_false]

/-- What a lookup does when it comes to a node that it has not asked. -/
theorem lookup_step {α : Type} [K256] {signer : SigningKey} {target : H512} {progress : Progress} {node : Node}
    {nodesToAsk : List Node} {k : Progress → Discovery α} {i : Input} {s' : Shared} {rest : Discovery α}
    {spawned : List (Task × Discovery Unit)} (hnew : node.nodeId ∉ progress.askedPeers)
    (hstep : ((lookup signer target progress (node :: nodesToAsk)).bind k).step i s = some (rest, spawned, s')) :
    (∃ rx k', ({ s with now := s.now + i.elapsed } : Shared).openRequest node.nodeId = (some rx, s') ∧
      rest = (findNodeAndWaitForResponse node.udpAddr signer target rx).bind k') ∨
    ({ s with now := s.now + i.elapsed } : Shared).openRequest node.nodeId = (none, s') := by
  simp only [lookup, if_neg hnew] at hstep
  obtain ⟨⟨rx, t⟩, hact, hrest⟩ := Option.map_eq_some_iff.mp hstep
  obtain ⟨hprog, hspawned⟩ := Prod.mk.inj hrest
  cases hspawned
  replace hact : (if s.lock.isSome then none
    else some (({ s with now := s.now + i.elapsed } : Shared).openRequest node.nodeId)) = some (rx, t) := hact
  split_ifs at hact
  have hopen := Option.some.inj hact
  cases rx with
  | none => exact .inr hopen
  | some rx =>
    exact .inl ⟨rx, _, hopen, hprog.symm.trans
      (Prog.bind_assoc (findNodeAndWaitForResponse node.udpAddr signer target rx) _ k)⟩

theorem endedBy_of_mem_transitions {pool : Pool Task Input Shared} (h : pool.Follows (rules bootnodes)) :
    ∀ t ∈ pool.transitions choices, ∀ peer peer' req, t.before.table.getByNodeId nodeId = some peer →
      peer.findNodeRequest = some req → t.after.table.getByNodeId nodeId = some peer' → peer'.findNodeRequest = none →
      t.task.1 = .server ∧ EndedBy t.before.log t.after.now nodeId req := by
  induction choices generalizing pool with
  | nil => exact nofun
  | cons choice choices ih =>
    rcases pool.transitions_cons choice choices with hnil | ⟨task, next, htask, hstep, hcons⟩
    · rw [hnil]
      exact nofun
    rw [hcons]
    refine List.forall_mem_cons.mpr ⟨fun peer peer' req hfound hreq hfound' hnone => ?_, ih (h.step hstep)⟩
    obtain ⟨task', htask', hchanges⟩ := h.changes hstep
    obtain rfl : task = task' := Option.some.inj (htask.symm.trans htask')
    rcases hchanges with hsame | hchanges
    · dsimp only at hfound'
      rw [hsame, hfound] at hfound'
      cases hfound'
      cases hreq.symm.trans hnone
    · have hentry := hchanges.table.entry h.inv.table h.inv.fresh nodeId
      rw [hfound, hfound'] at hentry
      exact hentry.endedBy hreq hnone

/-- In every state of a run, a lookup that comes to a peer of the table and has not asked it yet asks it if and only if
there is no request to the peer in the table. How old a request is plays no part. In the run, a request to a peer that
stays in the table ends only when the server handles a `Neighbors` message of the peer, a minute after the request or
with the last of sixteen nodes. -/
theorem lookup_asks_iff {α : Type} [K256] {udpAddr : SocketAddr} {signer : SigningKey} {bootnodes : List BootNode}
    {now : Nat} {choices : List (Nat × Input)} {pool : Pool Task Input Shared} {target : H512} {progress : Progress}
    {node : Node} {nodesToAsk : List Node} {k : Progress → Discovery α} {i : Input} {rest : Discovery α}
    {spawned : List (Task × Discovery Unit)} {s' : Shared} {peer : PeerData}
    (hrun : (discoverPeers udpAddr signer bootnodes now).run choices = some pool)
    (hnew : node.nodeId ∉ progress.askedPeers)
    (hpeer : pool.state.table.getByNodeId node.nodeId = some peer)
    (hstep : ((lookup signer target progress (node :: nodesToAsk)).bind k).step i pool.state =
      some (rest, spawned, s')) :
    (AsksNode signer target node pool.state s' rest ↔ peer.findNodeRequest = none) ∧
    ∀ t ∈ (discoverPeers udpAddr signer bootnodes now).transitions choices, ∀ peer peer' req,
      t.before.table.getByNodeId node.nodeId = some peer → peer.findNodeRequest = some req →
      t.after.table.getByNodeId node.nodeId = some peer' → peer'.findNodeRequest = none →
      t.task.1 = .server ∧ EndedBy t.before.log t.after.now node.nodeId req := by
  have hfollows := follows_discoverPeers bootnodes udpAddr signer now
  refine ⟨?_, endedBy_of_mem_transitions hfollows⟩
  have hwell := (hfollows.run hrun).inv.table
  cases hrequest : peer.findNodeRequest with
  | some request =>
    refine iff_of_false (fun hasks => ?_) (Option.some_ne_none request)
    have hopen := openRequest_of_request (s := { pool.state with now := pool.state.now + i.elapsed }) hpeer
      (Option.isSome_of_eq_some hrequest)
    rcases lookup_step hnew hstep with ⟨rx, k', hrx, -⟩ | hnone
    · cases hopen.symm.trans hrx
    · -- the request blocks the peer: there is no new channel
      obtain ⟨-, rfl⟩ := Prod.mk.inj (hopen.symm.trans hnone)
      exact List.cons_ne_nil _ _ (List.self_eq_append_right.mp hasks.channel)
  | none =>
    refine iff_of_true ?_ rfl
    have hopen := openRequest_of_none (s := { pool.state with now := pool.state.now + i.elapsed }) hpeer hrequest
    rcases lookup_step hnew hstep with ⟨rx, k', hrx, hrest⟩ | hnone
    · obtain ⟨hchannel, rfl⟩ := Prod.mk.inj (hopen.symm.trans hrx)
      cases hchannel
      refine ⟨?_, rfl, k', hrest⟩
      rw [hwell.getByNodeId_modifyPeer_self (by intro; rfl), hpeer]
      rfl
    · cases hopen.symm.trans hnone

end

namespace Sample

def firstLookup [Keccak256] [K256] : Discovery Progress :=
  (lookup signer signer.nodeId ⟨∅, 0, []⟩ [⟨nodeAddr.ip, nodeAddr.port, 0, bootnode.nodeId⟩]).bind .done

end Sample

theorem lookup_asks_iff_bootnode :
    letI := Sample.laterKeccak
    letI := K256.checked
    ∃ pool peer rest spawned s', (discoverPeers Sample.localAddr Sample.signer [Sample.bootnode] 1000).run
        Sample.joining = some pool ∧
      pool.state.table.getByNodeId Sample.bootnode.nodeId = some peer ∧
      Sample.firstLookup.step (Sample.move 3 0 []).2 pool.state = some (rest, spawned, s') ∧
      peer.findNodeRequest = none ∧
      AsksNode Sample.signer Sample.signer.nodeId
        ⟨Sample.nodeAddr.ip, Sample.nodeAddr.port, 0, Sample.bootnode.nodeId⟩ pool.state s' rest := by
  let := Sample.laterKeccak
  let := K256.checked
  have hstate : (Sample.state Sample.joining).bind (fun s =>
      (s.table.getByNodeId Sample.bootnode.nodeId).map PeerData.findNodeRequest) = some none := by decide +kernel
  have hmoves : ((Sample.state Sample.joining).bind (Sample.firstLookup.step (Sample.move 3 0 []).2)).isSome := by
    decide +kernel
  obtain ⟨s, hs, hentry⟩ := Option.bind_eq_some_iff.mp hstate
  obtain ⟨pool, hrun, rfl⟩ := Option.map_eq_some_iff.mp hs
  obtain ⟨peer, hpeer, hrequest⟩ := Option.map_eq_some_iff.mp hentry
  rw [hs, Option.bind_some] at hmoves
  obtain ⟨next, hstep⟩ := Option.isSome_iff_exists.mp hmoves
  exact ⟨pool, peer, next.1, next.2.1, next.2.2, hrun, hpeer, hstep, hrequest,
    (lookup_asks_iff hrun (Finset.notMem_empty _) hpeer hstep).1.mpr hrequest⟩

namespace Sample

def asking [Keccak256] : List (Nat × Input) :=
  [move 2 0 [], move 2 10 [], move 2 0 []] ++ List.replicate 5 (move 3 0 []) ++ List.replicate 9 (move 4 0 [])

def ending [Keccak256] : List (Nat × Input) :=
  [5, 6, 7].flatMap fun index => List.replicate 3 (move 3 0 []) ++ List.replicate 4 (move index 0 [])

def returning [Keccak256] : List (Nat × Input) :=
  [move 3 0 [], move 3 0 [], move 3 1800 [], move 3 0 [], move 3 0 []] ++ List.replicate 4 (move 8 0 [])

structure Snapshot where
  now : Nat
  /-- The lookups that have not ended. -/
  lookups : Nat
  closest : List H512
  request : Option FindNodeRequest
  /-- The times and the recipients of the find-node messages. -/
  sent : List (Nat × SocketAddr)
  deriving DecidableEq

def snapshot [Keccak256] (s : Shared) : Snapshot where
  now := s.now
  lookups := s.lookups
  closest := (s.table.getClosestNodes signer.nodeId).map Node.nodeId
  request := (s.table.getByNodeId bootnode.nodeId).bind PeerData.findNodeRequest
  sent := s.log.reverse.filterMap fun
    | .sent time recipient (.findNode _) _ => some (time, recipient)
    | _ => none

end Sample

theorem silent_peer_not_asked_again :
    letI := Sample.laterKeccak
    letI := K256.checked
    (Sample.state (Sample.joining ++ Sample.asking)).map Sample.snapshot =
        some ⟨1010, 0, [Sample.bootnode.nodeId], some ⟨0, 1010, some 0⟩, [(1010, Sample.nodeAddr)]⟩ ∧
      (Sample.state (Sample.joining ++ Sample.asking ++ Sample.ending ++ Sample.returning)).map Sample.snapshot =
        some ⟨2810, 0, [Sample.bootnode.nodeId], some ⟨0, 1010, some 0⟩, [(1010, Sample.nodeAddr)]⟩ := by
  decide +kernel

end EthereumRust.Net
