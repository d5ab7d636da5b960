import EthereumRust.Net.Safety

/-! # Who is sent neighbors

A `Neighbors` packet answers a `FindNode` of a node that has once answered a ping of ours. -/

namespace EthereumRust.Net

open Rlp Mpt

variable (bootnodes : List BootNode)

section

variable [Keccak256] [K256]

/-- In every run, a `Neighbors` packet goes to the source of an earlier `FindNode`, whose sender had by
then sent a `Pong` with the hash of a ping that went to an address on record for it. -/
theorem neighbors_answer_proven_nodes {udpAddr : SocketAddr} {signer : SigningKey} {now : Nat}
    {choices : List (Nat × Input)} {pool : Pool Task Input Shared}
    (hrun : (discoverPeers udpAddr signer bootnodes now).run choices = some pool) {time : Nat} {addr : SocketAddr}
    {msg : NeighborsMessage} {packet : ByteString} {earlier : List Event}
    (hsent : .sent time addr (.neighbors msg) packet :: earlier <:+ pool.state.log) :
    Entitled bootnodes earlier addr :=
  ((follows_discoverPeers bootnodes udpAddr signer now).run hrun).inv.neighbors time addr msg packet earlier hsent

end

/-! ## A run without a proof of the endpoint -/

namespace Sample

def localAddr : SocketAddr := ⟨.localhost, 30303⟩
def nodeAddr : SocketAddr := ⟨.v4 ⟨[10, 0, 0, 1], rfl⟩, 30303⟩
def otherAddr : SocketAddr := ⟨.v4 ⟨[10, 0, 0, 2], rfl⟩, 30303⟩

def signer : SigningKey := ⟨fun _ => some (⟨List.replicate 64 1, rfl⟩, 0), ⟨List.replicate 64 5, rfl⟩⟩

def endpoint (addr : SocketAddr) : Endpoint := ⟨addr.ip, addr.port, 0⟩

def signed (message : Message) : ByteString := List.replicate 64 1 ++ [0] ++ message.encodeWithType

def ourPing : Message := .ping (.new (endpoint localAddr) (endpoint nodeAddr) 1020)
def ourPingHash : Nat := 0x12121b331e1730f11801ae4d528fcf4011874acc6c14f341171269e9f88fbb93
def theirPing : Message := .ping (.new (endpoint nodeAddr) (endpoint localAddr) 100000)
def theirPong : Message := .pong (.new (endpoint localAddr) ⟨beBytes 32 ourPingHash, length_beBytes _ _⟩ 100000)
def findNode : Message := .findNode ⟨⟨List.replicate 64 4, rfl⟩, 100000⟩

def bootnode : BootNode := ⟨⟨List.replicate 64 4, rfl⟩, nodeAddr⟩

@[reducible] def keccak : Keccak256 := Keccak256.ofTable
  [(signed ourPing, ourPingHash),
    (signed theirPing, 0x5c8c7d7811b33cdb1e8833905bc53641df07c4d95210155be597c49b641baa79),
    (signed theirPong, 0x0a410c6d23bfcb017b2b02edc3f96d93bc595547325bf3ae7ce0c5586b77f87f),
    (signed findNode, 0xf4eea93aae27ce7d5a12ffb69172740951b0bacdbc87c0dd7291c601dd418046),
    (List.replicate 64 4, 0xd73222fc071b1494828915725ec7529be23fdfd2c28075be3e06dcab3c7d62c5),
    (List.replicate 64 5, 0x27208b5238e95f11617aba9cbf277e66e21326baa03d3099c4cc55bd58745bcd)]

/-- A step of the server, after some seconds, with a packet at hand. -/
def serve [Keccak256] (elapsed : Nat) (message : Message) (source : SocketAddr) : Nat × Input :=
  (0, ⟨elapsed, (digest (signed message)).1 ++ signed message, source, some (32 + (signed ourPing).length),
    signer.nodeId, []⟩)

def choices [Keccak256] : List (Nat × Input) :=
  List.replicate 11 (serve 0 theirPing nodeAddr) ++ List.replicate 5 (serve 0 theirPong nodeAddr) ++
    List.replicate 7 (serve 0 findNode otherAddr) ++ [serve 46800 findNode nodeAddr] ++
    List.replicate 5 (serve 0 findNode nodeAddr)

def log [Keccak256] [K256] : List Event :=
  (((discoverPeers localAddr signer [] 1000).run choices).map fun pool => pool.state.log).getD []

def neighborsTo (addr : SocketAddr) : Event → Option Nat
  | .sent time recipient (.neighbors _) _ => if recipient = addr then some time else none
  | _ => none

def pongFrom (addr : SocketAddr) : Event → Option Nat
  | .received time sender packet =>
    match packet.message with
    | .pong _ => if sender = addr then some time else none
    | _ => none
  | _ => none

theorem neighborsTo_eq_some
    (h : neighborsTo addr event = some time) : ∃ msg packet, event = .sent time addr (.neighbors msg) packet := by
  unfold neighborsTo at h
  split at h
  · rename_i _ _ msg packet
    split at h
    · rename_i haddr
      cases h
      exact ⟨msg, packet, by rw [haddr]⟩
    · cases h
  · cases h

end Sample

/-- The last packet of the run is one of neighbors. -/
theorem neighbors_answer_proven_nodes_sample :
    letI := Sample.keccak
    letI := K256.checked
    Entitled [] Sample.log.tail Sample.nodeAddr := by
  let := Sample.keccak
  let := K256.checked
  have hsome : ((discoverPeers Sample.localAddr Sample.signer [] 1000).run Sample.choices).isSome = true := by
    decide +kernel
  have hlast : Sample.log.head?.bind (Sample.neighborsTo Sample.nodeAddr) = some 47800 := by decide +kernel
  obtain ⟨pool, hrun⟩ := Option.isSome_iff_exists.mp hsome
  have hlog : Sample.log = pool.state.log := by
    rw [Sample.log, hrun]
    rfl
  obtain ⟨event, hhead, hneighbors⟩ := Option.bind_eq_some_iff.mp hlast
  obtain ⟨msg, packet, rfl⟩ := Sample.neighborsTo_eq_some hneighbors
  have hsent : .sent 47800 Sample.nodeAddr (.neighbors msg) packet :: Sample.log.tail <:+ pool.state.log := by
    rw [← hlog, ← List.eq_cons_of_mem_head? hhead]
  exact neighbors_answer_proven_nodes [] hrun hsent

/-- Neighbors are sent to an address from which no `Pong` ever came, and to one whose last `Pong` is
thirteen hours old. -/
theorem neighbors_sent_without_proof :
    letI := Sample.keccak
    letI := K256.checked
    Sample.log.filterMap (Sample.neighborsTo Sample.otherAddr) = [1000] ∧
      Sample.log.filterMap (Sample.pongFrom Sample.otherAddr) = [] ∧
      Sample.log.filterMap (Sample.neighborsTo Sample.nodeAddr) = [47800] ∧
      Sample.log.filterMap (Sample.pongFrom Sample.nodeAddr) = [1000] ∧
      PROOF_EXPIRATION_IN_HS * 3600 < 47800 - 1000 := by
  decide +kernel

end EthereumRust.Net
