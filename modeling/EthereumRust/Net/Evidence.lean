import EthereumRust.Net.Discovery

/-! # What the log tells about a node

What the entries of the table say of a node can be read from the packets that were sent
and received. -/

namespace EthereumRust.Net

open Rlp Mpt

variable (bootnodes : List BootNode)

/-- The address is on record for the node: the node has sent a ping from it, or it was told us as the
node's address. -/
inductive Known (log : List Event) (nodeId : H512) (addr : SocketAddr) : Prop
  | pinged {time : Nat} {packet : Packet} {msg : PingMessage} : .received time addr packet ∈ log →
      packet.message = .ping msg → packet.nodeId = nodeId → Known log nodeId addr
  | bootnode {bootnode : BootNode} : bootnode ∈ bootnodes → bootnode.nodeId = nodeId →
      bootnode.socketAddress = addr → Known log nodeId addr
  | told {time : Nat} {source : SocketAddr} {packet : Packet} {msg : NeighborsMessage} {node : Node} :
      .received time source packet ∈ log → packet.message = .neighbors msg → node ∈ msg.nodes →
      node.nodeId = nodeId → node.udpAddr = addr → Known log nodeId addr

/-- A ping with this hash was sent to an address on record for the node. -/
def PingSent (log : List Event) (nodeId : H512) (hash : H256) : Prop :=
  ∃ time addr msg packet earlier, .sent time addr (.ping msg) packet :: earlier <:+ log ∧
    packet.take 32 = hash.1 ∧ Known bootnodes earlier nodeId addr

def lastReceived : List Event → Option (SocketAddr × Packet × List Event)
  | [] => none
  | .sent .. :: log => lastReceived log
  | .received _ source packet :: log => some (source, packet, log)

/-- The node has answered a ping: it had sent the hash of the ping when no later packet was received yet. -/
def Proven (log : List Event) (nodeId : H512) : Prop :=
  ∃ log₀ source packet earlier msg, log₀ <:+ log ∧ lastReceived log₀ = some (source, packet, earlier) ∧
    packet.message = .pong msg ∧ packet.nodeId = nodeId ∧ PingSent bootnodes log₀ nodeId msg.pingHash

/-- A `FindNode` of a proven node came from the address. -/
def Entitled (log : List Event) (addr : SocketAddr) : Prop :=
  ∃ time packet msg earlier, .received time addr packet :: earlier <:+ log ∧
    packet.message = .findNode msg ∧ Proven bootnodes earlier packet.nodeId

section

variable {bootnodes} {hash : H256}

theorem Known.mono (h : Known bootnodes log nodeId addr) (hlog : log <:+ log') : Known bootnodes log' nodeId addr := by
  cases h with
  | pinged hmem hmsg hid => exact .pinged (hlog.subset hmem) hmsg hid
  | bootnode hmem hid haddr => exact .bootnode hmem hid haddr
  | told hmem hmsg hnode hid haddr => exact .told (hlog.subset hmem) hmsg hnode hid haddr

theorem PingSent.mono (h : PingSent bootnodes log nodeId hash) (hlog : log <:+ log') :
    PingSent bootnodes log' nodeId hash := by
  obtain ⟨time, addr, msg, packet, earlier, hsuffix, hrest⟩ := h
  exact ⟨time, addr, msg, packet, earlier, hsuffix.trans hlog, hrest⟩

theorem Proven.mono (h : Proven bootnodes log nodeId) (hlog : log <:+ log') : Proven bootnodes log' nodeId := by
  obtain ⟨log₀, source, packet, earlier, msg, hsuffix, hrest⟩ := h
  exact ⟨log₀, source, packet, earlier, msg, hsuffix.trans hlog, hrest⟩

theorem Entitled.mono (h : Entitled bootnodes log addr) (hlog : log <:+ log') : Entitled bootnodes log' addr := by
  obtain ⟨time, packet, msg, earlier, hsuffix, hrest⟩ := h
  exact ⟨time, packet, msg, earlier, hsuffix.trans hlog, hrest⟩

end

/-- What the entry of a peer says is true. -/
structure Sound (log : List Event) (peer : PeerData) : Prop where
  known : Known bootnodes log peer.node.nodeId peer.node.udpAddr
  ping : ∀ hash, peer.lastPingHash = some hash → PingSent bootnodes log peer.node.nodeId hash
  proven : peer.isProven = true → Proven bootnodes log peer.node.nodeId

theorem Sound.mono {bootnodes log log' peer}
    (h : Sound bootnodes log peer) (hlog : log <:+ log') : Sound bootnodes log' peer :=
  ⟨h.known.mono hlog, fun hash hping => (h.ping hash hping).mono hlog, fun hproven => (h.proven hproven).mono hlog⟩

def AllSound (log : List Event) (table : KademliaTable) : Prop := ∀ peer, table.Holds peer → Sound bootnodes log peer

/-! ## Writes to the table -/

section

variable {bootnodes} {hash : Option H256}

theorem sound_new {now} (h : Known bootnodes log node.nodeId node.udpAddr) :
    Sound bootnodes log (.new node now 0 false) :=
  ⟨h, nofun, nofun⟩

variable [Keccak256]

theorem AllSound.modifyPeer {f : PeerData → PeerData} (h : AllSound bootnodes log table)
    (hf : ∀ peer, Sound bootnodes log peer → peer.node.nodeId = nodeId → Sound bootnodes log (f peer)) :
    AllSound bootnodes log (table.modifyPeer nodeId f) := by
  intro peer hpeer
  rcases hpeer.of_modifyPeer with hold | ⟨old, hold, hid, rfl⟩
  · exact h peer hold
  · exact hf old (h old hold) hid

theorem AllSound.insertNode (h : AllSound bootnodes log table) (now : Nat)
    (hnode : Known bootnodes log node.nodeId node.udpAddr) :
    AllSound bootnodes log (table.insertNode node now).2 := by
  intro peer hpeer
  rcases hpeer.of_insertNode with hold | rfl
  · exact h peer hold
  · exact sound_new hnode

theorem AllSound.updatePeerPing (h : AllSound bootnodes log table)
    (now : Nat) (hhash : ∀ sent, hash = some sent → PingSent bootnodes log nodeId sent) :
    AllSound bootnodes log (table.updatePeerPing nodeId hash now) :=
  h.modifyPeer fun _ hpeer hid => ⟨hpeer.known, fun sent hsent => hid ▸ hhash sent hsent, hpeer.proven⟩

theorem AllSound.updatePeerPingWithRevalidation
    (h : AllSound bootnodes log table) (now : Nat)
    (hhash : ∀ sent, hash = some sent → PingSent bootnodes log nodeId sent) :
    AllSound bootnodes log (table.updatePeerPingWithRevalidation nodeId hash now) :=
  h.modifyPeer fun _ hpeer hid => ⟨hpeer.known, fun sent hsent => hid ▸ hhash sent hsent, hpeer.proven⟩

theorem AllSound.pongAnswered (h : AllSound bootnodes log table) (now : Nat)
    (hproven : Proven bootnodes log nodeId) : AllSound bootnodes log (table.pongAnswered nodeId now) :=
  h.modifyPeer fun _ hpeer hid => ⟨hpeer.known, nofun, fun _ => hid ▸ hproven⟩

theorem AllSound.setRequest (h : AllSound bootnodes log table) (request : Option FindNodeRequest) :
    AllSound bootnodes log (table.modifyPeer nodeId fun peer => { peer with findNodeRequest := request }) :=
  h.modifyPeer fun _ hpeer _ => ⟨hpeer.known, hpeer.ping, hpeer.proven⟩

theorem AllSound.replacePeer (h : AllSound bootnodes log table) :
    AllSound bootnodes log (table.replacePeer nodeId).2 :=
  fun peer hpeer => h peer hpeer.of_replacePeer

end

/-! ## The packet that was received last -/

def Event.IsSent : Event → Prop
  | .sent .. => True
  | .received .. => False

section

variable {bootnodes}

theorem lastReceived_append (hnew : ∀ event ∈ new, event.IsSent) :
    lastReceived (new ++ log) = lastReceived log := by
  induction new with
  | nil => rfl
  | cons event new ih =>
    cases event with
    | sent => exact ih fun e he => hnew e (List.mem_cons_of_mem _ he)
    | received => exact (hnew _ List.mem_cons_self).elim

theorem lastReceived_suffix (h : lastReceived log = some (source, packet, earlier)) :
    ∃ time, .received time source packet :: earlier <:+ log := by
  induction log with
  | nil => cases h
  | cons event log ih =>
    cases event with
    | sent =>
      obtain ⟨time, hsuffix⟩ := ih h
      exact ⟨time, hsuffix.trans (List.suffix_cons _ _)⟩
    | received time =>
      cases h
      exact ⟨time, List.suffix_rfl⟩

theorem suffix_before_last {log₀ last₀}
    (h : lastReceived log = some (source, packet, earlier)) (h₀ : lastReceived log₀ = some last₀)
    (hne : last₀.2.1 ≠ packet) (hsuffix : log₀ <:+ log) : log₀ <:+ earlier := by
  induction log with
  | nil => cases h
  | cons event log ih =>
    rcases List.suffix_cons_iff.mp hsuffix with rfl | hold
    · rw [h] at h₀
      exact absurd (Option.some.inj h₀ ▸ rfl) hne
    · cases event with
      | sent => exact ih h hold
      | received =>
        cases h
        exact hold

/-- What the server knows while it handles a packet. -/
def Handling (source : SocketAddr) (packet : Packet) (log : List Event) : Prop :=
  ∃ earlier, lastReceived log = some (source, packet, earlier)

theorem Handling.append (h : Handling source packet log) (hnew : ∀ event ∈ new, event.IsSent) :
    Handling source packet (new ++ log) := by
  obtain ⟨earlier, hlast⟩ := h
  exact ⟨earlier, (lastReceived_append hnew).trans hlast⟩

theorem Handling.mem (h : Handling source packet log) : ∃ time, .received time source packet ∈ log := by
  obtain ⟨earlier, hlast⟩ := h
  obtain ⟨time, hsuffix⟩ := lastReceived_suffix hlast
  exact ⟨time, hsuffix.subset List.mem_cons_self⟩

theorem Handling.known {msg} (h : Handling source packet log) (hmsg : packet.message = .ping msg) :
    Known bootnodes log packet.nodeId source := by
  obtain ⟨time, hmem⟩ := h.mem
  exact .pinged hmem hmsg rfl

/-- A `Pong` with the hash of the ping on record proves its sender. -/
theorem Handling.proven {msg} (h : Handling source packet log)
    (hmsg : packet.message = .pong msg) (hsound : Sound bootnodes log peer) (hid : peer.node.nodeId = packet.nodeId)
    (hhash : peer.lastPingHash = some msg.pingHash) : Proven bootnodes log peer.node.nodeId := by
  obtain ⟨earlier, hlast⟩ := h
  exact ⟨log, source, packet, earlier, msg, List.suffix_rfl, hlast, hmsg, hid.symm, hsound.ping _ hhash⟩

/-- The sender of a `FindNode` was proven before it. -/
theorem Handling.entitled {msg} (h : Handling source packet log)
    (hmsg : packet.message = .findNode msg) (hsound : Sound bootnodes log peer)
    (hid : peer.node.nodeId = packet.nodeId) (hproven : peer.isProven = true) : Entitled bootnodes log source := by
  obtain ⟨earlier, hlast⟩ := h
  obtain ⟨time, hsuffix⟩ := lastReceived_suffix hlast
  obtain ⟨log₀, source₀, packet₀, earlier₀, pong, hsuffix₀, hlast₀, hpong, hsender, hping⟩ := hsound.proven hproven
  have hne : packet₀ ≠ packet := by
    rintro rfl
    rw [hmsg] at hpong
    cases hpong
  refine ⟨time, packet, msg, earlier, hsuffix, hmsg, log₀, source₀, packet₀, earlier₀, pong,
    suffix_before_last hlast hlast₀ hne hsuffix₀, hlast₀, hpong, hsender.trans hid, hid ▸ hping⟩

end

end EthereumRust.Net
