import EthereumRust.Lib.Tasks
import EthereumRust.Net.Discv4
import EthereumRust.Net.Kademlia

/-! # `crates/net/net.rs`: the discovery tasks

The tasks share the table of peers behind a lock. Where a task holds the lock only for
one statement, the statement is one atomic action, which waits for the lock; where it
keeps the lock over an `await`, it takes and releases it in actions of their own. -/

namespace EthereumRust.Net

open Rlp Mpt

def MAX_DISC_PACKET_SIZE : Nat := 1280
def REVALIDATION_INTERVAL_IN_SECONDS : Nat := 30
def PROOF_EXPIRATION_IN_HS : Nat := 12
def PEERS_RANDOM_LOOKUP_TIME_IN_MIN : Nat := 30

structure SocketAddr where
  ip : IpAddr
  port : UInt16
  deriving DecidableEq

def Node.udpAddr (self : Node) : SocketAddr := ⟨self.ip, self.udpPort⟩

structure BootNode where
  nodeId : H512
  socketAddress : SocketAddr

inductive Event where
  | sent (time : Nat) (recipient : SocketAddr) (message : Message) (packet : ByteString)
  | received (time : Nat) (sender : SocketAddr) (packet : Packet)

inductive Task where
  | startup
  | server
  | revalidation
  | lookups
  | lookup
  deriving DecidableEq

/-- What the tasks share. -/
structure Shared where
  table : KademliaTable
  /-- The task that keeps the table locked over several actions. -/
  lock : Option Task
  now : Nat
  /-- The lists of nodes that wait in each channel. -/
  channels : List (List (List Node))
  /-- The lookups that have not ended. -/
  lookups : Nat
  /-- The packets so far, the last one first. -/
  log : List Event
  /-- The tasks that have panicked, with the messages. -/
  panics : List (Task × String)

/-- What an action learns from outside. -/
structure Input where
  /-- The seconds since the last action. -/
  elapsed : Nat
  datagram : ByteString
  source : SocketAddr
  /-- The result of `send_to`: the number of bytes, or an error. -/
  bytesSent : Option Nat
  /-- The node id of a random key. -/
  randomNodeId : H512
  /-- The order in which a set is traversed. -/
  order : List H512

abbrev Discovery := Prog Task Input Shared

/-! ## Actions -/

def access {α : Type} (action : Input → Shared → Option (α × Shared)) : Discovery α :=
  .atomic fun i s => action i { s with now := s.now + i.elapsed }

/-- A statement that locks the table. -/
def withTable {α : Type} (f : Nat → KademliaTable → α × KademliaTable) : Discovery α :=
  access fun _ s => if s.lock.isSome then none else
    let (a, table) := f s.now s.table
    some (a, { s with table := table })

def lockTable (task : Task) : Discovery Unit :=
  access fun _ s => if s.lock.isSome then none else some ((), { s with lock := some task })

def unlockTable : Discovery Unit := access fun _ s => some ((), { s with lock := none })

def guarded {α : Type} (f : Nat → KademliaTable → α × KademliaTable) : Discovery α :=
  access fun _ s =>
    let (a, table) := f s.now s.table
    some (a, { s with table := table })

/-- The end of a task frees its lock and its place among the lookups. -/
def Shared.leave (s : Shared) (task : Task) : Shared :=
  { s with
    lock := if s.lock = some task then none else s.lock
    lookups := if task = .lookup then s.lookups - 1 else s.lookups }

def leave (task : Task) : Discovery Unit := access fun _ s => some ((), s.leave task)

def abort {α : Type} (task : Task) (message : String) : Discovery α := do
  access fun _ s => some ((), { s.leave task with panics := (task, message) :: s.panics })
  .crash

def checked {α : Type} (task : Task) (x : Outcome Empty α) : Discovery α :=
  match x with
  | .ok a => pure a
  | .error (.panic message) => abort task message
  | .error _ => .crash

def timeNowUnix : Discovery Nat := access fun _ s => some (s.now, s)

def waitUntil (time : Nat) : Discovery Unit := access fun _ s => if s.now < time then none else some ((), s)

def sendTo (recipient : SocketAddr) (message : Message) (packet : ByteString) : Discovery (Option Nat) :=
  access fun i s => some (i.bytesSent, match i.bytesSent with
    | some _ => { s with log := .sent s.now recipient message packet :: s.log }
    | none => s)

def getExpiration (seconds now : Nat) : UInt64 := UInt64.ofNat (now + seconds)

def isExpired (expiration : UInt64) (now : Nat) : Bool := expiration.toInt64 < (UInt64.ofNat now).toInt64

def timeSinceInHs {ε : Type} (time now : Nat) : Outcome ε Nat :=
  if time ≤ now then .ok ((now - time) / 3600)
  else Outcome.panic "called `Result::unwrap()` on an `Err` value"

def PingMessage.new (sender recipient : Endpoint) (expiration : UInt64) : PingMessage :=
  ⟨4, sender, recipient, expiration, none⟩

def PongMessage.new (recipient : Endpoint) (pingHash : H256) (expiration : UInt64) : PongMessage :=
  ⟨recipient, pingHash, expiration, none⟩

section

variable [Keccak256] [K256]

def packetHash {ε : Type} (buf : ByteString) : Outcome ε H256 := do
  fromSlice 32 (← Rust.slice buf 0 32)

def ping (task : Task) (localAddr toAddr : SocketAddr) (signer : SigningKey) : Discovery (Option H256) := do
  let expiration := getExpiration 20 (← timeNowUnix)
  let sender : Endpoint := ⟨localAddr.ip, localAddr.port, 0⟩
  let recipient : Endpoint := ⟨toAddr.ip, toAddr.port, 0⟩
  let message := Message.ping (PingMessage.new sender recipient expiration)
  let buf ← checked task (message.encodeWithHeader signer)
  match ← sendTo toAddr message buf with
  | none => pure none
  | some bytesSent =>
    if bytesSent = buf.length then do
      let hash ← checked task (packetHash buf)
      pure (some hash)
    else pure none

def pong (task : Task) (toAddr : SocketAddr) (pingHash : H256) (signer : SigningKey) : Discovery Unit := do
  let expiration := getExpiration 20 (← timeNowUnix)
  let recipient : Endpoint := ⟨toAddr.ip, toAddr.port, 0⟩
  let message := Message.pong (PongMessage.new recipient pingHash expiration)
  let buf ← checked task (message.encodeWithHeader signer)
  let _ ← sendTo toAddr message buf

/-! ## The server -/

def receive : Discovery (Outcome PacketDecodeErr Packet × SocketAddr) :=
  access fun i s =>
    let packet := Packet.decode (i.datagram.take MAX_DISC_PACKET_SIZE)
    some ((packet, i.source), match packet with
      | .ok packet => { s with log := .received s.now i.source packet :: s.log }
      | .error _ => s)

def findPeer (nodeId : H512) : Discovery (Option PeerData) :=
  withTable fun _ table => (table.getByNodeId nodeId, table)

def onPing (udpAddr : SocketAddr) (signer : SigningKey) (source : SocketAddr) (packet : Packet)
    (msg : PingMessage) : Discovery Unit := do
  if isExpired msg.expiration (← timeNowUnix) then pure ()
  else
    pong .server source packet.hash signer
    match ← findPeer packet.nodeId with
    | some peer =>
      -- send a ping to get an endpoint proof
      let hours ← checked .server (timeSinceInHs peer.lastPing (← timeNowUnix))
      if PROOF_EXPIRATION_IN_HS ≤ hours then
        match ← ping .server udpAddr source signer with
        | some hash => withTable fun now table => ((), table.updatePeerPing peer.node.nodeId (some hash) now)
        | none => pure ()
      else pure ()
    | none =>
      -- send a ping to get the endpoint proof from our end
      let (peer, insertedToTable) ← withTable fun now table =>
        table.insertNode ⟨source.ip, source.port, 0, packet.nodeId⟩ now
      match ← ping .server udpAddr source signer with
      | some hash =>
        match insertedToTable, peer with
        | true, some peer => withTable fun now table => ((), table.updatePeerPing peer.node.nodeId (some hash) now)
        | _, _ => pure ()
      | none => pure ()

/-- A `Pong` that is not expired. -/
def answerPong (packet : Packet) (msg : PongMessage) : Discovery Unit := do
  match ← findPeer packet.nodeId with
  | some peer =>
    match peer.lastPingHash with
    | none => pure ()
    | some hash =>
      if hash = msg.pingHash then withTable fun now table => ((), table.pongAnswered peer.node.nodeId now)
      else pure ()
  | none => pure ()

def onPong (packet : Packet) (msg : PongMessage) : Discovery Unit := do
  if isExpired msg.expiration (← timeNowUnix) then pure ()
  else answerPong packet msg

def sendNeighbors (signer : SigningKey) (source : SocketAddr) (expiration : UInt64) (nodes : List Node) :
    Discovery Unit := do
  let message := Message.neighbors ⟨nodes, expiration⟩
  let buf ← checked .server (message.encodeWithHeader signer)
  match ← sendTo source message buf with
  | some _ => pure ()
  | none => abort .server "called `Result::unwrap()` on an `Err` value"

def onFindNode (signer : SigningKey) (source : SocketAddr) (packet : Packet) (msg : FindNodeMessage) :
    Discovery Unit := do
  if isExpired msg.expiration (← timeNowUnix) then pure ()
  else
    match ← findPeer packet.nodeId with
    | some node =>
      if node.isProven then
        let nodes ← withTable fun _ table => (table.getClosestNodes msg.target, table)
        let expiration := getExpiration 20 (← timeNowUnix)
        .forEach (sendNeighbors signer source expiration) (nodes.toChunks 4)
      else pure ()
    | none => pure ()

def Shared.setRequest (s : Shared) (nodeId : H512) (request : Option FindNodeRequest) : Shared :=
  { s with table := s.table.modifyPeer nodeId fun node => { node with findNodeRequest := request } }

def Shared.forward (s : Shared) (tx : Option Nat) (nodes : List Node) : Shared :=
  match tx with
  | some tx => { s with channels := s.channels.modify tx (· ++ [nodes]) }
  | none => s

/-- What a `Neighbors` message does to the request that it answers, and the nodes to insert. -/
def Shared.acceptNeighbors (s : Shared) (nodeId : H512) (nodes : List Node) : Option (List Node) × Shared :=
  match s.table.getByNodeId nodeId with
  | none => (none, s)
  | some node =>
    match node.findNodeRequest with
    | none => (none, s)
    | some req =>
      if 60 ≤ s.now - req.sentAt then (none, s.setRequest nodeId none)
      else
        let nodesSent := req.nodesSent + nodes.length
        let s' := if nodesSent ≤ MAX_NODES_PER_BUCKET
          then (s.setRequest nodeId (some { req with nodesSent := nodesSent })).forward req.tx nodes else s
        (if nodesSent ≤ MAX_NODES_PER_BUCKET then some nodes else none,
          if nodesSent = MAX_NODES_PER_BUCKET then s'.setRequest nodeId none else s')

/-- A node of a `Neighbors` message, while the table is locked. -/
def insertNeighbor (udpAddr : SocketAddr) (signer : SigningKey) (node : Node) : Discovery Unit := do
  let (peer, insertedToTable) ← guarded fun now table => table.insertNode node now
  match insertedToTable, peer with
  | true, some peer =>
    let pingHash ← ping .server udpAddr peer.node.udpAddr signer
    guarded fun now table => ((), table.updatePeerPing peer.node.nodeId pingHash now)
  | _, _ => pure ()

def onNeighbors (udpAddr : SocketAddr) (signer : SigningKey) (packet : Packet) (msg : NeighborsMessage) :
    Discovery Unit := do
  if isExpired msg.expiration (← timeNowUnix) then pure ()
  else
    lockTable .server
    match ← access fun _ s => some (s.acceptNeighbors packet.nodeId msg.nodes) with
    | some nodes => .forEach (insertNeighbor udpAddr signer) nodes
    | none => pure ()
    unlockTable

def onMessage (udpAddr : SocketAddr) (signer : SigningKey) (source : SocketAddr) (packet : Packet) :
    Discovery Unit :=
  match packet.message with
  | .ping msg => onPing udpAddr signer source packet msg
  | .pong msg => onPong packet msg
  | .findNode msg => onFindNode signer source packet msg
  | .neighbors msg => onNeighbors udpAddr signer packet msg
  | .enrRequest _ => pure ()
  | .enrResponse _ => pure ()

/-- A packet that cannot be decoded is dropped. A panic of the decoder ends the server. -/
def serveOne (udpAddr : SocketAddr) (signer : SigningKey) : Discovery (Unit ⊕ Unit) := do
  match ← receive with
  | (.ok packet, source) =>
    onMessage udpAddr signer source packet
    pure (.inl ())
  | (.error (.error _), _) => pure (.inl ())
  | (.error (.panic message), _) => abort .server message
  | (.error .diverged, _) => .crash

def discoverPeersServer (udpAddr : SocketAddr) (signer : SigningKey) : Discovery Unit :=
  .loopFrom (fun _ => serveOne udpAddr signer) ()

/-! ## Revalidation -/

def PeerData.updateLiveness {ε : Type} (self : PeerData) : Outcome ε PeerData :=
  match self.revalidation with
  | some true => self.incrementLiveness
  | some false => pure self.decrementLiveness
  | none => pure self

def PeerData.revalidated {ε : Type} (self : PeerData) : Outcome ε PeerData := do
  let peer ← self.updateLiveness
  pure { peer with revalidation := none }

omit [Keccak256] [K256] in
/-- The check forgets the answer, and the liveness goes down only if there was none. -/
theorem PeerData.revalidated_ok {ε : Type} {peer peer' : PeerData}
    (h : (peer.revalidated : Outcome ε PeerData) = .ok peer') :
    ∃ liveness, peer' = { peer with liveness := liveness, revalidation := none } ∧
      (peer.revalidation ≠ some false → peer.liveness ≤ liveness) ∧
      (peer.revalidation = some false → liveness = peer.liveness / 3) := by
  obtain ⟨changed, hchanged, hpeer⟩ := Outcome.bind_ok_inv h
  cases hpeer
  unfold PeerData.updateLiveness at hchanged
  split at hchanged
  · rename_i hanswered
    unfold PeerData.incrementLiveness at hchanged
    split at hchanged
    · cases hchanged
      exact ⟨_, rfl, fun _ => Nat.le_succ _, fun hfalse => by rw [hanswered] at hfalse; cases hfalse⟩
    · cases hchanged
  · rename_i hsilent
    cases hchanged
    exact ⟨_, rfl, fun hne => absurd hsilent hne, fun _ => rfl⟩
  · rename_i hnone
    cases hchanged
    exact ⟨_, rfl, fun _ => le_rfl, fun hfalse => by rw [hnone] at hfalse; cases hfalse⟩

/-- A peer without liveness makes room for a replacement, which is pinged. -/
def evictPeer (udpAddr : SocketAddr) (signer : SigningKey) (nodeId : H512) : Discovery Unit := do
  match ← guarded fun _ table => table.replacePeer nodeId with
  | some newPeer =>
    let pingHash ← ping .revalidation udpAddr newPeer.node.udpAddr signer
    guarded fun now table => ((), table.updatePeerPing newPeer.node.nodeId pingHash now)
  | none => pure ()

/-- The turn of a peer, from the moment when the table is locked. -/
def turn (udpAddr : SocketAddr) (signer : SigningKey) (nodeId : H512) : Discovery Unit := do
  let peer ← guarded fun _ table => (table.getByNodeId nodeId, table)
  let peer ← checked .revalidation (Rust.expect peer "called `Option::unwrap()` on a `None` value")
  let peer ← checked .revalidation peer.revalidated
  guarded fun _ table => ((), table.modifyPeer nodeId fun _ => peer)
  if peer.liveness = 0 then do
    evictPeer udpAddr signer nodeId
    unlockTable
  else unlockTable

def revalidatePeer (udpAddr : SocketAddr) (signer : SigningKey) (nodeId : H512) : Discovery Unit := do
  lockTable .revalidation
  turn udpAddr signer nodeId

def pingToRevalidate (udpAddr : SocketAddr) (signer : SigningKey) (peer : PeerData) : Discovery Unit := do
  let pingHash ← ping .revalidation udpAddr peer.node.udpAddr signer
  withTable fun now table => ((), table.updatePeerPingWithRevalidation peer.node.nodeId pingHash now)

def traverse (set : Finset H512) : Discovery (List H512) :=
  access fun i s => if i.order.Nodup ∧ i.order.toFinset = set then some (i.order, s) else none

/-- One round: the time of its tick and the peers that the last one has pinged. -/
def revalidationRound (udpAddr : SocketAddr) (signer : SigningKey) (interval : Nat)
    (round : Nat × Finset H512) : Discovery ((Nat × Finset H512) ⊕ Unit) := do
  waitUntil round.1
  -- first check that the peers we ping have responded
  let previouslyPingedPeers ← traverse round.2
  .forEach (revalidatePeer udpAddr signer) previouslyPingedPeers
  -- now send a ping to the least recently pinged peers
  let peers ← withTable fun _ table => (table.getLeastRecentlyPingedPeers 3, table)
  let peers ← checked .revalidation peers
  .forEach (pingToRevalidate udpAddr signer) peers
  pure (.inl (round.1 + interval, (peers.map fun peer => peer.node.nodeId).toFinset))

def peersRevalidation (udpAddr : SocketAddr) (signer : SigningKey) (interval : Nat) : Discovery Unit := do
  -- first tick starts immediately
  let start ← timeNowUnix
  .loopFrom (revalidationRound udpAddr signer interval) (start + interval, ∅)

/-! ## Lookups -/

/-- A new request to a peer of the table that has none, and its channel. -/
def Shared.openRequest (s : Shared) (nodeId : H512) : Option Nat × Shared :=
  match s.table.getByNodeId nodeId with
  | some peer =>
    if peer.findNodeRequest.isSome then (none, s)
    else
      let tx := s.channels.length
      (some tx,
        { s with
          table := s.table.modifyPeer nodeId fun peer => peer.newFindNodeRequestWithSender tx s.now
          channels := s.channels ++ [[]] })
  | none => (none, s)

/-- `recv` with a timeout: where no nodes wait it may give up, for the sender is gone or five seconds are over. -/
def recv (rx : Nat) : Discovery (Option (List Node)) :=
  access fun _ s =>
    match s.channels[rx]? with
    | some (nodes :: rest) => some (some nodes, { s with channels := s.channels.set rx rest })
    | _ => some (none, s)

def findNodeAndWaitForResponse (toAddr : SocketAddr) (signer : SigningKey) (targetNodeId : H512) (rx : Nat) :
    Discovery (List Node) := do
  let expiration := getExpiration 20 (← timeNowUnix)
  let message := Message.findNode ⟨targetNodeId, expiration⟩
  let buf ← checked .lookup (message.encodeWithHeader signer)
  match ← sendTo toAddr message buf with
  | none => pure []
  | some _ =>
    .loopFrom (fun nodes => do
      match ← recv rx with
      | some foundNodes =>
        let nodes := nodes ++ foundNodes
        pure (if nodes.length = MAX_NODES_PER_BUCKET then .inr nodes else .inl nodes)
      | none => pure (.inr nodes)) ([] : List Node)

structure Progress where
  askedPeers : Finset H512
  queries : Nat
  nodes : List Node

def lookup (signer : SigningKey) (target : H512) (progress : Progress) : List Node → Discovery Progress
  | [] => pure progress
  | node :: nodesToAsk => do
    let alpha := 3
    if node.nodeId ∈ progress.askedPeers then
      if progress.queries = alpha then pure progress else lookup signer target progress nodesToAsk
    else
      match ← access fun _ s => if s.lock.isSome then none else some (s.openRequest node.nodeId) with
      | none => lookup signer target progress nodesToAsk
      | some rx =>
        let foundNodes ← findNodeAndWaitForResponse node.udpAddr signer target rx
        let progress : Progress :=
          ⟨insert node.nodeId progress.askedPeers, progress.queries + 1, progress.nodes ++ foundNodes⟩
        if progress.queries = alpha then pure progress else lookup signer target progress nodesToAsk

/-- The node takes the place of the furthest of sixteen, the last one of several. -/
def peersToAskPush (peersToAsk : List Node) (target : H512) (node : Node) : List Node :=
  let distance := bucketNumber target node.nodeId
  if peersToAsk.length < MAX_NODES_PER_BUCKET then peersToAsk ++ [node]
  else
    let (idxToReplace, _) := peersToAsk.zipIdx.foldl (fun (idxToReplace, highestDistance) (peer, i) =>
      let currentDistance := bucketNumber peer.nodeId target
      if distance < currentDistance ∧ highestDistance ≤ currentDistance then (some i, currentDistance)
      else (idxToReplace, highestDistance)) ((none : Option Nat), 0)
    match idxToReplace with
    | some idx => peersToAsk.set idx node
    | none => peersToAsk

structure Candidates where
  askedPeers : Finset H512
  seenPeers : Finset H512
  peersToAsk : List Node

def Candidates.push (self : Candidates) (target : H512) (node : Node) : Candidates :=
  if node.nodeId ∈ self.seenPeers then self
  else
    { self with
      seenPeers := insert node.nodeId self.seenPeers
      peersToAsk := peersToAskPush self.peersToAsk target node }

def lookupRound (signer : SigningKey) (target : H512) (candidates : Candidates) :
    Discovery (Candidates ⊕ Unit) := do
  let progress ← lookup signer target ⟨candidates.askedPeers, 0, []⟩ candidates.peersToAsk
  let candidates := progress.nodes.foldl (fun candidates node => candidates.push target node)
    { candidates with askedPeers := progress.askedPeers }
  pure (if progress.queries = 0 then .inr () else .inl candidates)

def recursiveLookup (signer : SigningKey) (target localNodeId : H512) : Discovery Unit := do
  -- lookups start with the closest from our table
  let closestNodes ← withTable fun _ table => (table.getClosestNodes target, table)
  let seenPeers := insert localNodeId (closestNodes.map Node.nodeId).toFinset
  .loopFrom (lookupRound signer target) ⟨∅, seenPeers, closestNodes⟩
  leave .lookup

def spawnLookup (signer : SigningKey) (target : H512) : Discovery Unit := do
  access fun _ s => some ((), { s with lookups := s.lookups + 1 })
  .fork .lookup (recursiveLookup signer target signer.nodeId)

def spawnRandomLookup (signer : SigningKey) : Discovery Unit := do
  let target ← access fun i s => some (i.randomNodeId, s)
  spawnLookup signer target

/-- One round of lookups: the time of its tick. -/
def lookupsRound (signer : SigningKey) (interval tick : Nat) : Discovery (Nat ⊕ Unit) := do
  waitUntil tick
  spawnLookup signer signer.nodeId
  .forEach (fun _ => spawnRandomLookup signer) [1, 2, 3]
  access fun _ s => if s.lookups = 0 then some ((), s) else none
  pure (.inl (tick + interval))

def peersLookup (signer : SigningKey) (interval : Nat) : Discovery Unit := do
  let start ← timeNowUnix
  .loopFrom (lookupsRound signer interval) start

/-! ## Startup -/

def pingBootnode (udpAddr : SocketAddr) (signer : SigningKey) (bootnode : BootNode) : Discovery Unit := do
  let _ ← withTable fun now table =>
    table.insertNode ⟨bootnode.socketAddress.ip, bootnode.socketAddress.port, 0, bootnode.nodeId⟩ now
  let pingHash ← ping .startup udpAddr bootnode.socketAddress signer
  withTable fun now table => ((), table.updatePeerPing bootnode.nodeId pingHash now)

def discoveryStartup (udpAddr : SocketAddr) (signer : SigningKey) (bootnodes : List BootNode) : Discovery Unit :=
  .forEach (pingBootnode udpAddr signer) bootnodes

def startup (udpAddr : SocketAddr) (signer : SigningKey) (bootnodes : List BootNode) : Discovery Unit := do
  discoveryStartup udpAddr signer bootnodes
  let now ← timeNowUnix
  waitUntil (now + 10)
  .fork .lookups (peersLookup signer (PEERS_RANDOM_LOOKUP_TIME_IN_MIN * 60))

def discoverPeers (udpAddr : SocketAddr) (signer : SigningKey) (bootnodes : List BootNode) (now : Nat) :
    Pool Task Input Shared where
  tasks := [(.server, discoverPeersServer udpAddr signer),
    (.revalidation, peersRevalidation udpAddr signer REVALIDATION_INTERVAL_IN_SECONDS),
    (.startup, startup udpAddr signer bootnodes)]
  state := ⟨.new signer.nodeId, none, now, [], 0, [], []⟩

end
end EthereumRust.Net
