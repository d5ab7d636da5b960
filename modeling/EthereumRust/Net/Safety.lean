import EthereumRust.Net.Rules

/-! # The discovery tasks keep the rules

One proof for each program of the tasks. -/

namespace EthereumRust.Net

open Rlp Mpt List

/-! ## Pings -/

theorem packetHash_ok {ε : Type} {buf hash} (h : (packetHash buf : Outcome ε H256) = .ok hash) :
    buf.take 32 = hash.1 := by
  obtain ⟨bytes, hslice, hfrom⟩ := Outcome.bind_ok_inv h
  unfold Rust.slice at hslice
  split at hslice
  · cases hslice
    unfold fromSlice at hfrom
    split at hfrom
    · cases hfrom
      rfl
    · cases hfrom
  · cases hslice

theorem packetHash_ne_missingPeer (buf : ByteString) :
    (packetHash buf : Outcome Empty H256) ≠ .error (.panic missingPeer) := by
  unfold packetHash Rust.slice
  split_ifs
  · change fromSlice 32 _ ≠ _
    unfold fromSlice
    split_ifs
    · nofun
    · exact fun h => absurd (Fault.panic.inj (Except.error.inj h)) (by decide)
  · exact fun h => absurd (Fault.panic.inj (Except.error.inj h)) (by decide)

theorem encodeWithHeader_ne_missingPeer [Keccak256] (message : Message) (signer : SigningKey) :
    (message.encodeWithHeader signer : Outcome Empty ByteString) ≠ .error (.panic missingPeer) := by
  unfold Message.encodeWithHeader
  dsimp only
  cases signer.signPrehashRecoverable (digest message.encodeWithType) with
  | none => exact fun h => absurd (Fault.panic.inj (Except.error.inj h)) (by decide)
  | some signature => exact fun h => by cases h

section

variable [Keccak256]

theorem keeps_ping (nodeId : H512) (hP : Steady bootnodes task P) (hleave : MayLeave task P)
    (hknown : ∀ s, P s → Known bootnodes s.log nodeId toAddr) (localAddr : SocketAddr) (signer : SigningKey) :
    Keeps bootnodes task P (ping task localAddr toAddr signer) fun result s => P s ∧
      ∀ hash, result = some hash → PingSent bootnodes s.log nodeId hash := by
  refine (keeps_timeNowUnix hP).bind fun now => ?_
  dsimp only
  refine keeps_checked_bind hP hleave (fun _ _ _ => encodeWithHeader_ne_missingPeer _ _) fun buf _ => ?_
  refine (keeps_sendTo (K := fun log => Known bootnodes log nodeId toAddr) hP hknown (by nofun)).bind_option hP
    (fun _ => steady_sentAt _ _ _) ?_ fun n => ?_
  · exact .done hP fun _ _ h => ⟨h, nofun⟩
  have hsent (message : Message) : Steady bootnodes task fun s =>
      P s ∧ SentAt (fun log => Known bootnodes log nodeId toAddr) toAddr message buf s.log :=
    hP.and (steady_sentAt _ _ _)
  dsimp only
  split
  · refine keeps_checked_bind (hsent _) (hleave.imp fun _ => And.left) (fun _ _ _ => packetHash_ne_missingPeer _)
      fun hash hhash => .done (hsent _) fun s _ h => ⟨h.1, ?_⟩
    rintro _ ⟨⟩
    obtain ⟨-, time, earlier, hsuffix, hearlier⟩ := h
    exact ⟨time, toAddr, _, buf, earlier, hsuffix, packetHash_ok hhash, hearlier⟩
  · exact .done (hsent _) fun _ _ h => ⟨h.1, nofun⟩

theorem steady_pinged (nodeId : H512) (pingHash : Option H256) :
    Steady bootnodes task fun s => ∀ hash, pingHash = some hash → PingSent bootnodes s.log nodeId hash :=
  .all fun hash => (steady_pingSent nodeId hash).imp

theorem TableStep.updatePeerPing (task : Task) (s : Shared) (nodeId : H512) (pingHash : Option H256) :
    TableStep task s.lock s.log s.now s.table (s.table.updatePeerPing nodeId pingHash s.now) :=
  .note nodeId (fun _ => rfl) (fun _ => ⟨rfl, rfl⟩) fun _ _ _ hreq hnone => nomatch hreq.symm.trans hnone

theorem keeps_updatePeerPing (htask : task ≠ .revalidation)
    (hP : Steady bootnodes task P) (hP' : Steady bootnodes task P')
    (h : ∀ s, P s → (∀ hash, pingHash = some hash → PingSent bootnodes s.log nodeId hash) ∧
      ∀ table, P' { s with table := table }) :
    Keeps bootnodes task P (withTable fun now table => ((), table.updatePeerPing nodeId pingHash now)) fun _ => P' :=
  keeps_update htask hP (fun _ => hP') fun s hs hp =>
    ⟨.updatePeerPing task s nodeId pingHash, hs.peers.updatePeerPing s.now (h s hp).1, (h s hp).2 _⟩

theorem keeps_ping_guarded {peer : PeerData} (hP : Steady bootnodes task P) (hleave : MayLeave task P)
    (hP' : Steady bootnodes task P') (hknown : ∀ s, P s → Known bootnodes s.log peer.node.nodeId peer.node.udpAddr)
    (h : ∀ s pingHash, Inv bootnodes s → P s → s.lock = some task ∧
      P' { s with table := s.table.updatePeerPing peer.node.nodeId pingHash s.now })
    (udpAddr : SocketAddr) (signer : SigningKey) :
    Keeps bootnodes task P (do
      let pingHash ← ping task udpAddr peer.node.udpAddr signer
      guarded fun now table => ((), table.updatePeerPing peer.node.nodeId pingHash now)) fun _ => P' := by
  refine (keeps_ping peer.node.nodeId hP hleave hknown udpAddr signer).bind fun pingHash => ?_
  refine keeps_guarded (hP.and (steady_pinged _ pingHash)) (fun _ => hP') fun s hs hp => ?_
  obtain ⟨hlock, hp'⟩ := h s pingHash hs hp.1
  exact ⟨hlock, .updatePeerPing task s _ pingHash, hs.peers.updatePeerPing s.now hp.2, hp'⟩

end

/-! ## The server -/

section

variable [Keccak256] {s : Shared}

theorem keeps_pong (hP : Steady bootnodes .server P) (toAddr : SocketAddr) (pingHash : H256) (signer : SigningKey) :
    Keeps bootnodes .server P (pong .server toAddr pingHash signer) fun _ => P := by
  refine (keeps_timeNowUnix hP).bind fun now => ?_
  dsimp only
  refine keeps_checked (by decide) hP fun buf _ => ?_
  exact (keeps_sendTo_other hP (by nofun)).bind fun _ => .pure hP ()

theorem keeps_findPeer (hP : Steady bootnodes .server P) (nodeId : H512) :
    Keeps bootnodes .server P (findPeer nodeId) fun found s => P s ∧
      ∀ peer, found = some peer → Sound bootnodes s.log peer ∧ peer.node.nodeId = nodeId := by
  refine keeps_read hP (fun _ => .all fun peer => .imp ((steady_sound peer).and (.const _ _ _)))
    fun s hs _ peer hfound => ?_
  obtain ⟨hholds, hid⟩ := KademliaTable.holds_getByNodeId hfound
  exact ⟨hs.peers peer hholds, hid⟩

theorem keeps_onPing (hmsg : packet.message = .ping msg) (udpAddr : SocketAddr)
    (signer : SigningKey) :
    Keeps bootnodes .server (Handles source packet) (onPing udpAddr signer source packet msg)
      fun _ => Handles source packet := by
  have hP : Steady bootnodes .server (Handles source packet) := steady_handles source packet
  have hknown (s : Shared) (h : Handles source packet s) : Known bootnodes s.log packet.nodeId source := h.known hmsg
  refine (keeps_timeNowUnix hP).bind fun now => ?_
  split
  · exact .pure hP ()
  refine (keeps_pong hP source packet.hash signer).bind fun _ => ?_
  refine (keeps_findPeer hP packet.nodeId).bind_option hP (fun peer => (steady_sound peer).and (.const _ _ _)) ?_
    fun peer => ?_
  · -- the sender is new
    have hinsert : Keeps bootnodes .server (Handles source packet)
        (withTable fun now table => table.insertNode ⟨source.ip, source.port, 0, packet.nodeId⟩ now) fun inserted s =>
          Handles source packet s ∧ ∀ peer, inserted.1 = some peer → peer.node.nodeId = packet.nodeId :=
      keeps_update (by decide) hP (fun _ => hP.and (.const _ _ _)) fun s hs hp =>
        ⟨.insert _, hs.peers.insertNode s.now (hknown s hp), hp, fun _ hpeer =>
          KademliaTable.insertNode_some hpeer ▸ rfl⟩
    refine hinsert.bind fun inserted => ?_
    obtain ⟨peer, insertedToTable⟩ := inserted
    have hP' := hP.and (.const _ _ (∀ peer', peer = some peer' → peer'.node.nodeId = packet.nodeId))
    refine (keeps_ping packet.nodeId hP' (mayLeave (by decide))
      (fun s h => hknown s h.1) udpAddr signer).bind_option hP'
      (fun hash => steady_pingSent packet.nodeId hash) ?_ fun hash => ?_
    · exact .done hP' fun _ _ h => h.1
    have hP'' := hP'.and (steady_pingSent packet.nodeId hash)
    dsimp only
    split
    · refine keeps_updatePeerPing (by decide) hP'' hP fun s h => ⟨?_, fun _ => h.1.1⟩
      rintro _ ⟨⟩
      rw [h.1.2 _ rfl]
      exact h.2
    · exact .done hP'' fun _ _ h => h.1.1
  · have hP' := hP.and ((steady_sound peer).and (.const _ _ (peer.node.nodeId = packet.nodeId)))
    refine (keeps_timeNowUnix hP').bind fun now' => ?_
    refine keeps_checked (by decide) hP' fun hours _ => ?_
    split
    · refine (keeps_ping packet.nodeId hP' (mayLeave (by decide)) (fun s h => hknown s h.1) udpAddr signer).bind_option
        hP' (fun hash => steady_pingSent packet.nodeId hash) ?_ fun hash => ?_
      · exact .done hP' fun _ _ h => h.1
      refine keeps_updatePeerPing (by decide) (hP'.and (steady_pingSent packet.nodeId hash)) hP fun s h =>
        ⟨?_, fun _ => h.1.1⟩
      rintro _ ⟨⟩
      rw [h.1.2.2]
      exact h.2
    · exact .done hP' fun _ _ h => h.1

theorem keeps_onPong (hmsg : packet.message = .pong msg) :
    Keeps bootnodes .server (Handles source packet) (onPong packet msg) fun _ => Handles source packet := by
  have hP : Steady bootnodes .server (Handles source packet) := steady_handles source packet
  refine (keeps_timeNowUnix hP).bind fun now => ?_
  split
  · exact .pure hP ()
  refine (keeps_findPeer hP packet.nodeId).bind_option hP (fun peer => (steady_sound peer).and (.const _ _ _)) ?_
    fun peer => ?_
  · exact .pure hP ()
  have hP' := hP.and ((steady_sound peer).and (.const _ _ (peer.node.nodeId = packet.nodeId)))
  dsimp only
  split
  · exact .done hP' fun _ _ h => h.1
  rename_i hash hhash
  split
  · rename_i heq
    refine keeps_update (by decide) hP' (fun _ => hP) fun s hs h => ⟨.answer _ rfl, hs.peers.pongAnswered s.now ?_, h.1⟩
    exact Handling.proven h.1 hmsg h.2.1 h.2.2 (heq ▸ hhash)
  · exact .done hP' fun _ _ h => h.1

theorem keeps_sendNeighbors (hP : Steady bootnodes .server P) (hentitled : ∀ s, P s → Entitled bootnodes s.log source)
    (signer : SigningKey) (expiration : UInt64) (nodes : List Node) :
    Keeps bootnodes .server P (sendNeighbors signer source expiration nodes) fun _ => P := by
  refine keeps_checked (by decide) hP fun buf _ => ?_
  refine (keeps_sendTo (K := fun _ => True) hP (fun _ _ => trivial) fun _ s _ => hentitled s).bind_option hP
    (fun _ => steady_sentAt _ _ _) ?_ fun n => ?_
  · exact keeps_abort hP (mayLeave (by decide)) fun h => by cases h
  · exact .done (hP.and (steady_sentAt _ _ _)) fun _ _ h => h.1

theorem keeps_onFindNode (hmsg : packet.message = .findNode msg) (signer : SigningKey) :
    Keeps bootnodes .server (Handles source packet) (onFindNode signer source packet msg)
      fun _ => Handles source packet := by
  have hP : Steady bootnodes .server (Handles source packet) := steady_handles source packet
  refine (keeps_timeNowUnix hP).bind fun now => ?_
  split
  · exact .pure hP ()
  refine (keeps_findPeer hP packet.nodeId).bind_option hP (fun peer => (steady_sound peer).and (.const _ _ _)) ?_
    fun peer => ?_
  · exact .pure hP ()
  have hP' := hP.and ((steady_sound peer).and (.const _ _ (peer.node.nodeId = packet.nodeId)))
  dsimp only
  split
  · rename_i hproven
    have hentitled : Steady bootnodes .server fun s => Handles source packet s ∧ Entitled bootnodes s.log source :=
      hP.and (steady_log Entitled.mono)
    refine Safe.weaken (P := fun s => Handles source packet s ∧ Entitled bootnodes s.log source) ?_ hP'
      fun s _ h => ⟨h.1, Handling.entitled h.1 hmsg h.2.1 h.2.2 hproven⟩
    refine (keeps_update (by decide) hentitled (fun _ => hentitled) fun _ hs h => ⟨.same, hs.peers, h⟩).bind
      fun nodes => ?_
    refine (keeps_timeNowUnix hentitled).bind fun now' => ?_
    exact (Safe.forEach hentitled fun chunk _ => keeps_sendNeighbors hentitled (fun _ => And.right) signer _ chunk).mono
      fun _ _ _ h => h.1
  · exact .done hP' fun _ _ h => h.1

/-- Nothing changes but the channels and the request of one peer. -/
structure Noted (nodeId : H512) (s s' : Shared) : Prop where
  now : s'.now = s.now
  log : s'.log = s.log
  lock : s'.lock = s.lock
  panics : s'.panics = s.panics
  table : s'.table = s.table ∨
    ∃ request, s'.table = s.table.modifyPeer nodeId fun peer => { peer with findNodeRequest := request }

theorem Noted.setRequest (h : Noted nodeId s s') (request : Option FindNodeRequest) :
    Noted nodeId s (s'.setRequest nodeId request) := by
  refine ⟨h.now, h.log, h.lock, h.panics, .inr ⟨request, ?_⟩⟩
  rw [Shared.setRequest]
  rcases h.table with htable | ⟨earlier, htable⟩
  · rw [htable]
  · dsimp only
    rw [htable, KademliaTable.modifyPeer_modifyPeer _ _ _ (by intro; rfl)]
    rfl

theorem Noted.forward (h : Noted nodeId s s') (tx : Option Nat) (nodes : List Node) :
    Noted nodeId s (s'.forward tx nodes) := by
  cases tx <;> exact ⟨h.now, h.log, h.lock, h.panics, h.table⟩

/-- Accepting neighbors writes to the request of a peer only. -/
theorem noted_acceptNeighbors (s : Shared) (nodeId : H512) (nodes : List Node) :
    Noted nodeId s (s.acceptNeighbors nodeId nodes).2 := by
  have hsame : Noted nodeId s s := ⟨rfl, rfl, rfl, rfl, .inl rfl⟩
  unfold Shared.acceptNeighbors
  split
  · exact hsame
  split
  · exact hsame
  rename_i request _
  split
  · exact hsame.setRequest none
  have haccepted : Noted nodeId s (if request.nodesSent + nodes.length ≤ MAX_NODES_PER_BUCKET
      then (s.setRequest nodeId (some { request with nodesSent := request.nodesSent + nodes.length })).forward
        request.tx
        nodes else s) := by
    split
    · exact (hsame.setRequest _).forward _ _
    · exact hsame
  dsimp only
  split
  · exact haccepted.setRequest none
  · exact haccepted

theorem acceptNeighbors_some
    (h : (s.acceptNeighbors nodeId nodes).1 = some accepted) : accepted = nodes := by
  unfold Shared.acceptNeighbors at h
  split at h
  · cases h
  split at h
  · cases h
  split at h
  · cases h
  dsimp only at h
  split at h
  · exact (Option.some.inj h).symm
  · cases h

/-- A `Neighbors` message ends the request if the request is a minute old or has all its nodes then. -/
theorem acceptNeighbors_ends_iff (hwell : s.table.WellFormed) (hfound : s.table.getByNodeId nodeId = some peer)
    (hreq : peer.findNodeRequest = some req) (nodes : List Node) :
    (s.acceptNeighbors nodeId nodes).2.request nodeId = none ↔
      60 ≤ s.now - req.sentAt ∨ req.nodesSent + nodes.length = MAX_NODES_PER_BUCKET := by
  have hset {s : Shared} (hwell : s.table.WellFormed) (request : Option FindNodeRequest) :
      (s.setRequest nodeId request).request nodeId = (s.table.getByNodeId nodeId).bind fun _ => request := by
    rw [Shared.request, Shared.setRequest, hwell.getByNodeId_modifyPeer_self (by intro; rfl)]
    cases s.table.getByNodeId nodeId <;> rfl
  have hforward (s : Shared) : (s.forward req.tx nodes).table = s.table := by cases req.tx <;> rfl
  have hnone {s : Shared} (hwell : s.table.WellFormed) : (s.setRequest nodeId none).request nodeId = none := by
    rw [hset hwell]
    cases s.table.getByNodeId nodeId <;> rfl
  simp only [Shared.acceptNeighbors, hfound, hreq]
  by_cases hold : 60 ≤ s.now - req.sentAt
  · rw [if_pos hold]
    exact iff_of_true (hnone hwell) (.inl hold)
  rw [if_neg hold]
  dsimp only
  split_ifs with hfull hroom hroom
  · refine iff_of_true (hnone ?_) (.inr hfull)
    rw [hforward]
    exact hwell.modifyPeer nodeId fun _ => rfl
  · exact absurd hfull.le hroom
  · refine iff_of_false (fun hgone => ?_) (not_or.mpr ⟨hold, hfull⟩)
    rw [Shared.request, hforward] at hgone
    cases ((hset hwell _).trans (by rw [hfound])).symm.trans hgone
  · refine iff_of_false (fun hgone => ?_) (not_or.mpr ⟨hold, hfull⟩)
    rw [Shared.request, hfound, Option.bind_some, hreq] at hgone
    cases hgone

theorem Noted.writes (h : Noted nodeId s s') (hs : Inv bootnodes s) (task : Task)
    (hends : ∀ peer req, s.table.getByNodeId nodeId = some peer → peer.findNodeRequest = some req →
      s'.request nodeId = none → task = .server ∧ EndedBy s.log s.now nodeId req) : Writes bootnodes task s s' := by
  obtain ⟨hnow, hlog, hlock, hpanics, htable | ⟨request, htable⟩⟩ := h
  · refine ⟨hlog, hlock, hpanics, ?_, ?_⟩
    · rw [htable]
      exact .same
    · rw [htable]
      exact hs.peers
  · refine ⟨hlog, hlock, hpanics, ?_, ?_⟩
    · rw [htable]
      refine .note nodeId (fun _ => rfl) (fun _ => ⟨rfl, rfl⟩) fun peer req hfound hreq hnone =>
        hnow ▸ hends peer req hfound hreq ?_
      rwa [Shared.request, htable, hs.table.getByNodeId_modifyPeer_self (by intro; rfl), hfound]
    · rw [htable]
      exact hs.peers.setRequest request

/-- What the server knows while it handles a packet and holds the lock. -/
def Holding (source : SocketAddr) (packet : Packet) (s : Shared) : Prop :=
  Locked .server (fun _ => True) s ∧ Handles source packet s

theorem steady_holding (source : SocketAddr) (packet : Packet) : Steady bootnodes .server (Holding source packet) :=
  (steady_locked (.inl rfl) _).and (steady_handles source packet)

theorem keeps_insertNeighbor {node : Node} (hP : Steady bootnodes .server P) (hlock : ∀ s, P s → s.lock = some .server)
    (hwrite : ∀ s table, P s → P { s with table := table })
    (hknown : ∀ s, P s → Known bootnodes s.log node.nodeId node.udpAddr) (udpAddr : SocketAddr) (signer : SigningKey) :
    Keeps bootnodes .server P (insertNeighbor udpAddr signer node) fun _ => P := by
  have hinsert : Keeps bootnodes .server P (guarded fun now table => table.insertNode node now)
      fun inserted s => P s ∧ ∀ peer, inserted.1 = some peer → peer.node = node :=
    keeps_guarded hP (fun _ => hP.and (.const _ _ _)) fun s hs hp => ⟨hlock s hp, .insert node,
      hs.peers.insertNode s.now (hknown s hp), hwrite s _ hp, fun _ hpeer => KademliaTable.insertNode_some hpeer ▸ rfl⟩
  refine hinsert.bind fun inserted => ?_
  obtain ⟨peer, insertedToTable⟩ := inserted
  have hP' := hP.and (.const _ _ (∀ peer', peer = some peer' → peer'.node = node))
  dsimp only
  split
  · rename_i peer
    exact keeps_ping_guarded hP' (mayLeave (by decide)) hP (fun s h => h.2 peer rfl ▸ hknown s h.1)
      (fun s _ _ h => ⟨hlock s h.1, hwrite s _ h.1⟩) udpAddr signer
  · exact .done hP' fun _ _ h => h.1

theorem keeps_onNeighbors (hmsg : packet.message = .neighbors msg) (udpAddr : SocketAddr)
    (signer : SigningKey) :
    Keeps bootnodes .server (Handles source packet) (onNeighbors udpAddr signer packet msg)
      fun _ => Handles source packet := by
  have hP : Steady bootnodes .server (Handles source packet) := steady_handles source packet
  have hholding : Steady bootnodes .server (Holding source packet) := steady_holding source packet
  have hunlock : Keeps bootnodes .server (Holding source packet) unlockTable fun _ => Handles source packet :=
    keeps_unlockTable hholding hP fun s h => ⟨h.1.1, (fun heq => by cases heq), h.2⟩
  refine (keeps_timeNowUnix hP).bind fun now => ?_
  split
  · exact .pure hP ()
  refine (keeps_lockTable hP hholding fun s _ h => ⟨⟨rfl, trivial⟩, h⟩).bind fun _ => ?_
  have haccept : Keeps bootnodes .server (Holding source packet)
      (access fun _ s => some (s.acceptNeighbors packet.nodeId msg.nodes)) fun accepted s =>
        Holding source packet s ∧ ∀ nodes, accepted = some nodes → nodes = msg.nodes := by
    refine keeps_write hholding (fun _ => hholding.and (.const _ _ _)) fun _ s accepted s' hs h hact => ?_
    obtain ⟨rfl, rfl⟩ := Prod.mk.inj (Option.some.inj hact)
    have hnoted := noted_acceptNeighbors s packet.nodeId msg.nodes
    have hlock := hnoted.lock.trans h.1.1
    have hends (peer : PeerData) (req : FindNodeRequest) (hfound : s.table.getByNodeId packet.nodeId = some peer)
        (hreq : peer.findNodeRequest = some req)
        (hnone : (s.acceptNeighbors packet.nodeId msg.nodes).2.request packet.nodeId = none) :
        Task.server = .server ∧ EndedBy s.log s.now packet.nodeId req :=
      ⟨rfl, source, packet, msg, h.2, rfl, hmsg, (acceptNeighbors_ends_iff hs.table hfound hreq msg.nodes).mp hnone⟩
    have hhandles : Handling source packet (s.acceptNeighbors packet.nodeId msg.nodes).2.log := hnoted.log ▸ h.2
    exact ⟨.inr h.1.1, hnoted.writes hs .server hends, (fun heq => by cases heq), ⟨⟨hlock, trivial⟩, hhandles⟩,
      fun _ => acceptNeighbors_some⟩
  refine haccept.bind_option hholding (fun _ => .const _ _ _) ?_ fun nodes => ?_
  · exact (Safe.pure hholding ()).bind fun _ => hunlock
  have hP' := hholding.and (.const _ _ (nodes = msg.nodes))
  refine Safe.bind (Q := fun _ s => Holding source packet s ∧ nodes = msg.nodes) ?_ fun _ =>
    hunlock.weaken hP' fun _ _ h => h.1
  refine Safe.forEach hP' fun node hnode => keeps_insertNeighbor hP' (fun _ h => h.1.1.1)
    (fun _ _ h => h) (fun s h => ?_)
    udpAddr signer
  obtain ⟨time, hmem⟩ := Handling.mem h.1.2
  exact .told hmem hmsg (h.2 ▸ hnode) rfl rfl

theorem keeps_onMessage (udpAddr : SocketAddr) (signer : SigningKey) :
    Keeps bootnodes .server (Handles source packet) (onMessage udpAddr signer source packet)
      fun _ => Handles source packet := by
  unfold onMessage
  split
  · exact keeps_onPing ‹_› udpAddr signer
  · exact keeps_onPong ‹_›
  · exact keeps_onFindNode ‹_› signer
  · exact keeps_onNeighbors ‹_› udpAddr signer
  · exact .pure (steady_handles source packet) ()
  · exact .pure (steady_handles source packet) ()

variable [K256]

theorem keeps_receive : Keeps bootnodes .server (fun _ => True) receive fun result s =>
    ∀ packet, result.1 = .ok packet → Handles result.2 packet s := by
  refine .atomic (.const _ _ _) (fun result => .all fun packet => (steady_handles result.2 packet).imp)
    fun i s result s' hs _ hact => ?_
  dsimp only at hact
  cases hpacket : Packet.decode (i.datagram.take MAX_DISC_PACKET_SIZE) with
  | error e =>
    rw [hpacket] at hact
    cases hact
    have helapsed := Still.elapsed s (s.now + i.elapsed)
    exact ⟨helapsed.inv hs, helapsed.quiet.changes .server, nofun⟩
  | ok packet =>
    rw [hpacket] at hact
    cases hact
    refine ⟨hs.log_cons _ _ nofun, ⟨⟨[_], rfl, fun h => absurd rfl h⟩, .same, fun _ _ => Iff.rfl, fun _ _ _ => rfl⟩, ?_⟩
    rintro _ ⟨⟩
    exact ⟨s.log, rfl⟩

theorem keeps_discoverPeersServer (udpAddr : SocketAddr) (signer : SigningKey) :
    Keeps bootnodes .server (fun _ => True) (discoverPeersServer udpAddr signer) fun _ _ => True := by
  refine Safe.loopFrom (.const _ _ _) fun _ => keeps_receive.bind fun result => ?_
  obtain ⟨decoded, source⟩ := result
  have hpre : Steady bootnodes .server fun s => ∀ packet, decoded = .ok packet → Handles source packet s :=
    .all fun packet => (steady_handles source packet).imp
  rcases decoded with (e | m | _) | packet
  · exact .done hpre fun _ _ _ => trivial
  · exact keeps_abort hpre (mayLeave (by decide)) fun h => by cases h
  · exact .crash hpre
  · refine Safe.weaken (P := Handles source packet) ?_ hpre fun _ _ h => h packet rfl
    exact (keeps_onMessage udpAddr signer).bind fun _ => .done (steady_handles source packet) fun _ _ _ => trivial

end

/-! ## Lookups -/

section

variable [Keccak256]

theorem openRequest_of_request {s : Shared} (hpeer : s.table.getByNodeId nodeId = some peer)
    (hrequest : peer.findNodeRequest.isSome) : s.openRequest nodeId = (none, s) := by
  simp only [Shared.openRequest, hpeer, hrequest, if_true]

theorem noted_openRequest (s : Shared) (nodeId : H512) : Noted nodeId s (s.openRequest nodeId).2 := by
  have hsame : Noted nodeId s s := ⟨rfl, rfl, rfl, rfl, .inl rfl⟩
  unfold Shared.openRequest
  split
  · split
    · exact hsame
    · exact ⟨rfl, rfl, rfl, rfl, .inr ⟨_, rfl⟩⟩
  · exact hsame

theorem keeps_findNodeAndWaitForResponse (toAddr : SocketAddr) (signer : SigningKey) (target : H512) (rx : Nat) :
    Keeps bootnodes .lookup (fun _ => True) (findNodeAndWaitForResponse toAddr signer target rx) fun _ _ => True := by
  have htrue : Steady bootnodes .lookup fun _ => True := .const _ _ _
  refine (keeps_timeNowUnix htrue).bind fun now => ?_
  dsimp only
  refine keeps_checked (by decide) htrue fun buf _ => ?_
  refine (keeps_sendTo_other htrue (by nofun)).bind fun sent => ?_
  cases sent with
  | none => exact .pure htrue []
  | some bytes =>
    refine Safe.loopFrom htrue fun nodes => (keeps_look htrue fun _ s _ _ h => ?_).bind fun found => ?_
    · split at h <;> cases h <;> exact ⟨rfl, rfl, rfl, rfl⟩
    · cases found <;> exact .pure htrue _

theorem keeps_lookup (signer : SigningKey) (target : H512) (progress : Progress) (nodesToAsk : List Node) :
    Keeps bootnodes .lookup (fun _ => True) (lookup signer target progress nodesToAsk) fun _ _ => True := by
  have htrue : Steady bootnodes .lookup fun _ => True := .const _ _ _
  induction nodesToAsk generalizing progress with
  | nil => exact .pure htrue progress
  | cons node nodesToAsk ih =>
    unfold lookup
    dsimp only
    split
    · split
      · exact .pure htrue progress
      · exact ih progress
    have hopen : Keeps bootnodes .lookup (fun _ => True)
        (access fun _ s => if s.lock.isSome then none else some (s.openRequest node.nodeId)) fun _ _ => True := by
      refine keeps_write htrue (fun _ => htrue) fun _ s _ s' hs _ hact => ?_
      split at hact
      · cases hact
      rename_i hlock
      obtain ⟨rfl, rfl⟩ := Prod.mk.inj (Option.some.inj hact)
      have hends (peer : PeerData) (req : FindNodeRequest) (hfound : s.table.getByNodeId node.nodeId = some peer)
          (hreq : peer.findNodeRequest = some req) (hnone : (s.openRequest node.nodeId).2.request node.nodeId = none) :
          Task.lookup = .server ∧ EndedBy s.log s.now node.nodeId req := by
        rw [openRequest_of_request hfound (Option.isSome_of_eq_some hreq), Shared.request, hfound, Option.bind_some,
          hreq] at hnone
        cases hnone
      exact ⟨.inl (Option.not_isSome_iff_eq_none.mp hlock), (noted_openRequest s node.nodeId).writes hs .lookup hends,
        (fun heq => by cases heq), trivial⟩
    refine hopen.bind fun opened => ?_
    cases opened with
    | none => exact ih progress
    | some rx =>
      refine (keeps_findNodeAndWaitForResponse _ signer target rx).bind fun found => ?_
      split
      · exact .pure htrue _
      · exact ih _

theorem keeps_recursiveLookup (signer : SigningKey) (target localNodeId : H512) :
    Keeps bootnodes .lookup (fun _ => True) (recursiveLookup signer target localNodeId) fun _ _ => True := by
  have htrue : Steady bootnodes .lookup fun _ => True := .const _ _ _
  refine (keeps_update (by decide) htrue (fun _ => htrue) fun _ hs _ => ⟨.same, hs.peers, trivial⟩).bind
    fun closest => ?_
  refine Safe.bind (Q := fun _ _ => True) ?_ fun _ => keeps_leave htrue (mayLeave (by decide))
  exact Safe.loopFrom htrue fun candidates =>
    (keeps_lookup signer target _ _).bind fun progress => .pure htrue _

theorem keeps_spawnLookup (signer : SigningKey) (target : H512) :
    Keeps bootnodes .lookups (fun _ => True) (spawnLookup signer target) fun _ _ => True := by
  have htrue : Steady bootnodes .lookups fun _ => True := .const _ _ _
  refine (keeps_look htrue fun _ _ _ _ h => by cases h; exact ⟨rfl, rfl, rfl, rfl⟩).bind fun _ => ?_
  exact Safe.fork htrue (free_of_ne (by decide)) (keeps_recursiveLookup signer target signer.nodeId)

theorem keeps_peersLookup (signer : SigningKey) (interval : Nat) :
    Keeps bootnodes .lookups (fun _ => True) (peersLookup signer interval) fun _ _ => True := by
  have htrue : Steady bootnodes .lookups fun _ => True := .const _ _ _
  refine (keeps_timeNowUnix htrue).bind fun start => Safe.loopFrom htrue fun tick => ?_
  refine (keeps_waitUntil htrue tick).bind fun _ => ?_
  refine (keeps_spawnLookup signer signer.nodeId).bind fun _ => ?_
  refine (Safe.forEach htrue fun _ _ => ?_).bind fun _ => ?_
  · exact (keeps_look htrue fun _ _ _ _ h => by cases h; exact ⟨rfl, rfl, rfl, rfl⟩).bind fun target =>
      keeps_spawnLookup signer target
  refine (keeps_look htrue fun _ _ _ _ h => ?_).bind fun _ => .pure htrue _
  split at h <;> cases h
  exact ⟨rfl, rfl, rfl, rfl⟩

/-! ## Startup -/

theorem keeps_pingBootnode (hmem : bootnode ∈ bootnodes) (udpAddr : SocketAddr)
    (signer : SigningKey) :
    Keeps bootnodes .startup (fun _ => True) (pingBootnode udpAddr signer bootnode) fun _ _ => True := by
  have htrue : Steady bootnodes .startup fun _ => True := .const _ _ _
  refine (keeps_update (by decide) htrue (fun _ => htrue) fun s hs _ =>
    ⟨.insert _, hs.peers.insertNode s.now (.bootnode hmem rfl rfl), trivial⟩).bind fun _ => ?_
  refine (keeps_ping bootnode.nodeId htrue (mayLeave (by decide)) (fun _ _ => .bootnode hmem rfl rfl) udpAddr
    signer).bind fun pingHash => ?_
  exact keeps_updatePeerPing (by decide) (htrue.and (steady_pinged _ pingHash)) htrue fun s h => ⟨h.2, fun _ => trivial⟩

theorem keeps_startup (udpAddr : SocketAddr) (signer : SigningKey) :
    Keeps bootnodes .startup (fun _ => True) (startup udpAddr signer bootnodes) fun _ _ => True := by
  have htrue : Steady bootnodes .startup fun _ => True := .const _ _ _
  refine (Safe.forEach htrue fun bootnode hmem => keeps_pingBootnode hmem udpAddr signer).bind fun _ => ?_
  refine (keeps_timeNowUnix htrue).bind fun now => (keeps_waitUntil htrue (now + 10)).bind fun _ => ?_
  exact Safe.fork htrue (free_of_ne (by decide)) (keeps_peersLookup signer _)

end

/-! ## Revalidation -/

section

variable [Keccak256] {peers : List PeerData}

omit [Keccak256] in
theorem sound_revalidated (hsound : Sound bootnodes log peer)
    (h : (peer.revalidated : Outcome Empty PeerData) = .ok peer') :
    Sound bootnodes log peer' := by
  obtain ⟨liveness, rfl, -⟩ := PeerData.revalidated_ok h
  exact ⟨hsound.known, hsound.ping, hsound.proven⟩

omit [Keccak256] in
theorem revalidated_ne_missingPeer (peer : PeerData) :
    (peer.revalidated : Outcome Empty PeerData) ≠ .error (.panic missingPeer) := by
  unfold PeerData.revalidated PeerData.updateLiveness PeerData.incrementLiveness
  split
  · split_ifs
    · exact fun h => by cases h
    · exact fun h => absurd (Fault.panic.inj (Except.error.inj h)) (by decide)
  · exact fun h => by cases h
  · exact fun h => by cases h

/-- The peers that wait for their turn are in the table, and each waits once. -/
structure Present (ids : List H512) (table : KademliaTable) : Prop where
  nodup : ids.Nodup
  found : ∀ id ∈ ids, (table.getByNodeId id).isSome

/-- What the revalidation knows while it does not hold the lock. -/
def Watched (ids : List H512) (s : Shared) : Prop := s.lock ≠ some .revalidation ∧ Present ids s.table

theorem steady_watched (ids : List H512) : Steady bootnodes .revalidation (Watched ids) := by
  have hsteady := steady_unlocked.and ((Rules.Stable.const (rules bootnodes) _ ids.Nodup).and (steady_present ids))
  intro other hbeside s s' hs hs' hchanges h
  obtain ⟨hlock, hnodup, hfound⟩ := hsteady other hbeside s s' hs hs' hchanges ⟨h.1, h.2.nodup, h.2.found⟩
  exact ⟨hlock, hnodup, hfound⟩

theorem mayLeave_watched (ids : List H512) : MayLeave .revalidation (Watched ids) :=
  fun _ _ h hlock => absurd hlock h.1

omit [Keccak256] in
theorem mayLeave_locked {R : KademliaTable → Prop} (h : ∀ table, R table → table.AllLive) :
    MayLeave .revalidation (Locked .revalidation R) :=
  fun _ s hr _ => h s.table hr.2

theorem steady_turn (R : KademliaTable → Prop) : Steady bootnodes .revalidation (Locked .revalidation R) :=
  steady_locked (.inr rfl) R

/-- What is known behind the check of a peer: it is the only one that may be without liveness. -/
structure Checked (nodeId : H512) (peer : PeerData) (ids : List H512) (table : KademliaTable) : Prop where
  entry : table.getByNodeId nodeId = some peer
  others : ∀ other, table.Holds other → other = peer ∨ other.liveness ≠ 0
  gone : nodeId ∉ ids
  present : Present ids table

/-- What is known when the lock goes back. -/
structure Restored (ids : List H512) (table : KademliaTable) : Prop where
  live : table.AllLive
  present : Present ids table

section

theorem Present.modifyPeer (h : Present ids table) (hwell : table.WellFormed) {f : PeerData → PeerData}
    (hf : ∀ peer, (f peer).node = peer.node) : Present ids (table.modifyPeer nodeId f) := by
  refine ⟨h.nodup, fun id hid => ?_⟩
  rw [hwell.isSome_modifyPeer hf]
  exact h.found id hid

theorem Restored.check (h : Restored (nodeId :: ids) table) (hwell : table.WellFormed)
    (hfound : table.getByNodeId nodeId = some peer)
    (hchecked : (peer.revalidated : Outcome Empty PeerData) = .ok peer') :
    Checked nodeId peer' ids (table.modifyPeer nodeId fun _ => peer') := by
  obtain ⟨hnew, hnodup⟩ := nodup_cons.mp h.present.nodup
  have hpresent : Present ids table := ⟨hnodup, fun id hid => h.present.found id (mem_cons_of_mem _ hid)⟩
  refine ⟨?_, fun other hother => ?_, hnew, ?_⟩
  · obtain ⟨liveness, rfl, -⟩ := PeerData.revalidated_ok hchecked
    rw [TableStep.check_eq hfound hchecked, hwell.getByNodeId_modifyPeer_self (by intro; rfl), hfound]
    rfl
  · rcases hother.of_modifyPeer with hold | ⟨-, -, -, rfl⟩
    · exact .inr (h.live other hold)
    · exact .inl rfl
  · rw [TableStep.check_eq hfound hchecked]
    exact hpresent.modifyPeer hwell (by intro; rfl)

theorem Checked.replacePeer (h : Checked nodeId peer ids table) (hwell : table.WellFormed) :
    Restored ids (table.replacePeer nodeId).2 := by
  refine ⟨fun other hother => ?_, h.present.nodup, fun id hid => ?_⟩
  · rcases h.others other hother.of_replacePeer with rfl | hlive
    · exact absurd (KademliaTable.holds_getByNodeId h.entry).2 (hwell.ne_of_holds_replacePeer h.entry hother)
    · exact hlive
  · have hne : id ≠ nodeId := by
      rintro rfl
      exact h.gone hid
    have hsome := h.present.found id hid
    rcases hwell.getByNodeId_replacePeer_of_ne h.entry hne with heq | ⟨hnone, -⟩
    · rwa [heq]
    · rw [hnone] at hsome
      cases hsome

theorem Checked.restored (h : Checked nodeId peer ids table) (hlive : peer.liveness ≠ 0) : Restored ids table := by
  refine ⟨fun other hother => ?_, h.present⟩
  rcases h.others other hother with rfl | hother
  · exact hlive
  · exact hother

theorem Restored.updatePeerPing (h : Restored ids table) (hwell : table.WellFormed)
    (pingHash : Option H256) (now : Nat) :
    Restored ids (table.updatePeerPing nodeId pingHash now) :=
  ⟨h.live.modifyPeer fun _ => rfl, h.present.modifyPeer hwell fun _ => rfl⟩

end

theorem keeps_evictPeer (udpAddr : SocketAddr) (signer : SigningKey) (nodeId : H512) (ids : List H512)
    (hdead : peer.liveness = 0) :
    Keeps bootnodes .revalidation (Locked .revalidation (Checked nodeId peer ids)) (evictPeer udpAddr signer nodeId)
      fun _ => Locked .revalidation (Restored ids) := by
  have hrestored : Steady bootnodes .revalidation (Locked .revalidation (Restored ids)) := steady_turn _
  have hreplace : Keeps bootnodes .revalidation (Locked .revalidation (Checked nodeId peer ids))
      (guarded fun _ table => table.replacePeer nodeId) fun found s => Locked .revalidation (Restored ids) s ∧
        ∀ newPeer, found = some newPeer → Sound bootnodes s.log newPeer :=
    keeps_guarded (steady_turn _) (fun _ => hrestored.and (.all fun newPeer => (steady_sound newPeer).imp))
      fun s hs hp => ⟨hp.1, .evict rfl hp.2.entry hdead, hs.peers.replacePeer, ⟨hp.1, hp.2.replacePeer hs.table⟩,
        fun newPeer hnew => hs.peers newPeer (KademliaTable.holds_replacePeer hnew)⟩
  refine hreplace.bind_option hrestored (fun newPeer => steady_sound newPeer) ?_ fun newPeer => ?_
  · exact .pure hrestored ()
  · exact keeps_ping_guarded (hrestored.and (steady_sound newPeer)) ((mayLeave_locked fun _ h => h.live).imp
      fun _ => And.left) hrestored (fun _ h => h.2.known)
      (fun s pingHash hs h => ⟨h.1.1, h.1.1, h.1.2.updatePeerPing hs.table pingHash s.now⟩) udpAddr signer

/-- The turn of a peer, which is in the table. -/
theorem keeps_revalidatePeer (udpAddr : SocketAddr) (signer : SigningKey) (nodeId : H512) (ids : List H512) :
    Keeps bootnodes .revalidation (Watched (nodeId :: ids)) (revalidatePeer udpAddr signer nodeId)
      fun _ => Watched ids := by
  have hunlock : Keeps bootnodes .revalidation (Locked .revalidation (Restored ids)) unlockTable fun _ => Watched ids :=
    keeps_unlockTable (steady_turn _) (steady_watched ids) fun _ h => ⟨h.1, fun _ => h.2.live, nofun, h.2.present⟩
  have hlock : Keeps bootnodes .revalidation (Watched (nodeId :: ids)) (lockTable .revalidation) fun _ =>
      Locked .revalidation (Restored (nodeId :: ids)) :=
    keeps_lockTable (steady_watched _) (steady_turn _) fun _ hlive h => ⟨rfl, hlive, h.2⟩
  refine hlock.bind fun _ => ?_
  have hread : Keeps bootnodes .revalidation (Locked .revalidation (Restored (nodeId :: ids)))
      (guarded fun _ table => (table.getByNodeId nodeId, table)) fun found =>
        Locked .revalidation fun table => found = table.getByNodeId nodeId ∧ Restored (nodeId :: ids) table :=
    keeps_guarded (steady_turn _) (fun _ => steady_turn _) fun _ hs h => ⟨h.1, .same, hs.peers, h.1, rfl, h.2⟩
  refine hread.bind fun found => ?_
  -- here the task would panic if the peer were gone
  refine keeps_checked_bind (steady_turn _) (mayLeave_locked fun _ h => h.2.live) (fun _ s h => ?_) fun peer hpeer => ?_
  · have hsome := h.2.2.present.found nodeId mem_cons_self
    rw [← h.2.1] at hsome
    obtain ⟨peer, rfl⟩ := Option.isSome_iff_exists.mp hsome
    nofun
  obtain rfl : found = some peer := by
    cases found with
    | none => cases hpeer
    | some peer => cases hpeer; rfl
  refine keeps_checked_bind (steady_turn _) (mayLeave_locked fun _ h => h.2.live)
    (fun _ _ _ => revalidated_ne_missingPeer peer) fun peer' hpeer' => ?_
  have hwrite : Keeps bootnodes .revalidation
      (Locked .revalidation fun table => some peer = table.getByNodeId nodeId ∧ Restored (nodeId :: ids) table)
      (guarded fun _ table => ((), table.modifyPeer nodeId fun _ => peer')) fun _ =>
        Locked .revalidation (Checked nodeId peer' ids) := by
    refine keeps_guarded (steady_turn _) (fun _ => steady_turn _) fun s hs h => ?_
    have hholds := (KademliaTable.holds_getByNodeId h.2.1.symm).1
    exact ⟨h.1, .check rfl h.1 h.2.1.symm (h.2.2.live peer hholds) hpeer',
      hs.peers.modifyPeer fun _ _ _ => sound_revalidated (hs.peers peer hholds) hpeer',
      h.1, h.2.2.check hs.table h.2.1.symm hpeer'⟩
  refine hwrite.bind fun _ => ?_
  split_ifs with hdead
  · exact (keeps_evictPeer udpAddr signer nodeId ids hdead).bind fun _ => hunlock
  · exact hunlock.weaken (steady_turn _) fun _ _ h => ⟨h.1, h.2.restored hdead⟩

/-- Each peer has its turn, and no turn takes a peer whose turn is still to come. -/
theorem keeps_turns (udpAddr : SocketAddr) (signer : SigningKey) (ids : List H512) :
    Keeps bootnodes .revalidation (Watched ids) (.forEach (revalidatePeer udpAddr signer) ids) fun _ => Watched [] := by
  induction ids with
  | nil => exact .pure (steady_watched []) ()
  | cons id ids ih => exact (keeps_revalidatePeer udpAddr signer id ids).bind fun _ => ih

/-- The peers that are chosen for a round. -/
structure Chosen (bootnodes : List BootNode) (peers : List PeerData) (s : Shared) : Prop where
  watched : Watched (peers.map fun peer => peer.node.nodeId).toFinset.toList s
  sound : ∀ peer ∈ peers, Sound bootnodes s.log peer

theorem steady_chosen (peers : List PeerData) : Steady bootnodes .revalidation (Chosen bootnodes peers) := by
  have hsteady : Steady bootnodes .revalidation fun s =>
      Watched (peers.map fun peer => peer.node.nodeId).toFinset.toList s ∧
      ∀ peer, peer ∈ peers → Sound bootnodes s.log peer :=
    (steady_watched _).and (.all fun peer => (steady_sound peer).imp)
  intro other hbeside s s' hs hs' hchanges h
  obtain ⟨hwatched, hsound⟩ := hsteady other hbeside s s' hs hs' hchanges ⟨h.watched, h.sound⟩
  exact ⟨hwatched, hsound⟩

theorem keeps_pingToRevalidate (udpAddr : SocketAddr) (signer : SigningKey)
    (hpeer : peer ∈ peers) :
    Keeps bootnodes .revalidation (Chosen bootnodes peers) (pingToRevalidate udpAddr signer peer)
      fun _ => Chosen bootnodes peers := by
  have hchosen : Steady bootnodes .revalidation (Chosen bootnodes peers) := steady_chosen peers
  refine (keeps_ping peer.node.nodeId hchosen ((mayLeave_watched _).imp fun _ h => h.watched)
    (fun _ h => (h.sound peer hpeer).known) udpAddr signer).bind fun pingHash => ?_
  refine keeps_withTable (hchosen.and (steady_pinged _ pingHash)) (fun _ => hchosen) fun s hs hnone h => ?_
  refine ⟨.record _ _ rfl, hs.peers.updatePeerPingWithRevalidation s.now h.2, fun _ => ?_,
    ⟨h.1.watched.1, ?_⟩, h.1.sound⟩
  · exact (hs.live (by rw [hnone]; nofun)).modifyPeer fun _ => rfl
  · exact h.1.watched.2.modifyPeer hs.table fun _ => rfl

theorem present_chosen {table : KademliaTable} (hwell : table.WellFormed)
    (hpeers : ∀ peer ∈ peers, peer ∈ table.peers) :
    Present (peers.map fun peer => peer.node.nodeId).toFinset.toList table := by
  refine ⟨Finset.nodup_toList _, fun id hid => ?_⟩
  obtain ⟨peer, hpeer, rfl⟩ := mem_map.mp (mem_toFinset.mp (Finset.mem_toList.mp hid))
  obtain ⟨idx, hmem⟩ := KademliaTable.exists_bucket_of_mem (hpeers peer hpeer)
  exact Option.isSome_iff_exists.mpr ⟨peer, hwell.getByNodeId_eq_some.mpr ⟨rfl, idx, hmem⟩⟩

/-- A round leaves the ids of the peers that it has pinged, and they are all in the table. -/
theorem keeps_revalidationRound (udpAddr : SocketAddr) (signer : SigningKey) (interval : Nat)
    (round : Nat × Finset H512) :
    Keeps bootnodes .revalidation (Watched round.2.toList) (revalidationRound udpAddr signer interval round)
      (Sum.elim (fun next => Watched next.2.toList) fun _ _ => True) := by
  refine (keeps_waitUntil (steady_watched _) round.1).bind fun _ => ?_
  have htraverse : Keeps bootnodes .revalidation (Watched round.2.toList) (traverse round.2)
      fun order => Watched order := by
    refine (keeps_view (F := fun order => order.Nodup ∧ order.toFinset = round.2) (steady_watched _)
      fun i s a s' h => ?_).mono fun order s _ h => ⟨h.1.1, h.2.1, fun id hid => h.1.2.found id ?_⟩
    · split at h <;> cases h
      exact ⟨⟨rfl, rfl, rfl, rfl⟩, ‹_›⟩
    · rwa [Finset.mem_toList, ← h.2.2, mem_toFinset]
  refine htraverse.bind fun order => (keeps_turns udpAddr signer order).bind fun _ => ?_
  have hfound (found : Outcome Empty (List PeerData)) :
      Steady bootnodes .revalidation fun s => ∀ peers, found = .ok peers → Chosen bootnodes peers s :=
    .all fun peers => (steady_chosen peers).imp
  have hchoose : Keeps bootnodes .revalidation (Watched [])
      (withTable fun _ table => (table.getLeastRecentlyPingedPeers 3, table))
      fun (found : Outcome Empty _) s => Watched [] s ∧
        (∃ peers, found = .ok peers) ∧ ∀ peers, found = .ok peers → Chosen bootnodes peers s := by
    refine keeps_read (steady_watched _) (fun found => (Rules.Stable.const _ _ _).and (hfound found)) fun s hs h => ?_
    obtain ⟨peers, hok, hpeers⟩ := s.table.getLeastRecentlyPingedPeers_ok (ε := Empty) (by decide : 1 ≤ 3)
    refine ⟨⟨peers, hok⟩, fun others hothers => ?_⟩
    obtain rfl := Except.ok.inj (hok.symm.trans hothers)
    exact ⟨⟨h.1, present_chosen hs.table hpeers⟩, fun peer hpeer =>
      hs.peers peer (KademliaTable.holds_of_mem_peers (hpeers peer hpeer))⟩
  refine hchoose.bind fun found => ?_
  have hsteady := (steady_watched []).and ((Rules.Stable.const _ _ (∃ peers, found = .ok peers)).and (hfound found))
  refine keeps_checked_bind hsteady ((mayLeave_watched []).imp fun _ => And.left) (fun _ _ h => ?_)
    fun peers hpeers => ?_
  · obtain ⟨peers, rfl⟩ := h.2.1
    nofun
  refine Safe.weaken (P := Chosen bootnodes peers) ?_ hsteady fun _ _ h => h.2.2 peers hpeers
  refine (Safe.forEach (steady_chosen peers) fun peer hpeer => keeps_pingToRevalidate udpAddr signer hpeer).bind
    fun _ => ?_
  exact .done (steady_chosen peers) fun _ _ h => h.watched

theorem keeps_peersRevalidation (udpAddr : SocketAddr) (signer : SigningKey) (interval : Nat) :
    Keeps bootnodes .revalidation (Watched []) (peersRevalidation udpAddr signer interval) fun _ _ => True := by
  refine (keeps_timeNowUnix (steady_watched [])).bind fun start => ?_
  refine .loop (steady_watched []) (fun _ _ h => ?_)
    (fun round => keeps_revalidationRound udpAddr signer interval round)
    fun _ => .done (.const _ _ _) fun _ _ _ => trivial
  rwa [Finset.toList_empty]

end

/-! ## Runs -/

section

variable [Keccak256] [K256]

omit [Keccak256] [K256] in
theorem KademliaTable.fresh_new (localNodeId : H512) : (KademliaTable.new localNodeId).Fresh := by
  intro idx peer hpeer
  exact (KademliaTable.not_holds_new localNodeId ⟨idx, .inr hpeer⟩).elim

theorem follows_discoverPeers (bootnodes : List BootNode) (udpAddr : SocketAddr) (signer : SigningKey) (now : Nat) :
    (discoverPeers udpAddr signer bootnodes now).Follows (rules bootnodes) where
  inv := ⟨fun _ h => (KademliaTable.not_holds_new _ h).elim, (fun _ _ _ _ _ h => by cases suffix_nil.mp h),
    KademliaTable.wellFormed_new _, KademliaTable.fresh_new _, fun _ _ h => (KademliaTable.not_holds_new _ h).elim,
    not_mem_nil⟩
  safe n task htask := by
    have hmem := mem_of_getElem? htask
    simp only [discoverPeers, mem_cons, not_mem_nil, or_false] at hmem
    rcases hmem with rfl | rfl | rfl
    · exact ⟨_, trivial, keeps_discoverPeersServer udpAddr signer⟩
    · exact ⟨_, ⟨nofun, nodup_nil, by simp⟩, keeps_peersRevalidation udpAddr signer _⟩
    · exact ⟨_, trivial, keeps_startup udpAddr signer⟩
  beside n m task other htask hother hne := by
    -- the three tasks have different labels
    refine .inl fun heq => hne ?_
    have hlabels : ((discoverPeers udpAddr signer bootnodes now).tasks.map Prod.fst).Nodup := by
      simp [discoverPeers]
    have hlt := (List.getElem?_eq_some_iff.mp htask).1
    refine (List.getElem?_inj (by rwa [length_map]) hlabels).mp ?_
    rw [List.getElem?_map, List.getElem?_map, htask, hother, Option.map_some, Option.map_some, heq]

end

end EthereumRust.Net
