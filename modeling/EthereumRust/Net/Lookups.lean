import Mathlib.Algebra.BigOperators.Group.Multiset.Basic
import EthereumRust.Lib.Runs
import EthereumRust.Net.Closest

/-! # The requests of a lookup

Whatever is answered, a node is asked once, and there are not many nodes to ask: when a
node takes the place of another the distances of the candidates add up to less. -/

namespace EthereumRust.Net
open Rlp Mpt Prog List

/-- What a step of a lookup shows: a request is entered in the table, or one is sent. -/
inductive LookupEvent where
  | opened (before after : Shared)
  | requested (recipient : SocketAddr)

def lookupEvents (s s' : Shared) : List LookupEvent :=
  (if s'.channels.length = s.channels.length + 1 then [.opened s s'] else []) ++
    match s'.log with
    | .sent _ recipient (.findNode _) _ :: log => if log.length = s.log.length then [.requested recipient] else []
    | _ => []

def openings (events : List LookupEvent) : List (Shared × Shared) :=
  events.filterMap fun
    | .opened s s' => some (s, s')
    | .requested _ => none

def requests (events : List LookupEvent) : List SocketAddr :=
  events.filterMap fun
    | .opened .. => none
    | .requested recipient => some recipient

theorem lookupEvents_of_same {s s' : Shared} (hchannels : s'.channels.length = s.channels.length)
    (hlog : s'.log = s.log) : lookupEvents s s' = [] := by
  rw [lookupEvents, hlog, hchannels, if_neg (Nat.succ_ne_self _).symm, nil_append]
  split
  · rename_i log heq
    rw [if_neg (by rw [heq]; exact (Nat.succ_ne_self _).symm)]
  · rfl

theorem lookupEvents_self (s : Shared) : lookupEvents s s = [] := lookupEvents_of_same rfl rfl

section

variable [Keccak256] {candidates : Candidates}

def Shared.Opens (nodeId : H512) (s s' : Shared) : Prop :=
  ∃ now tx, ({ s with now := now } : Shared).openRequest nodeId = (some tx, s')

/-- The events of a lookup that has opened a request to each of some nodes, and sent it to some of them. -/
structure Asks (asked sent : List Node) (events : List LookupEvent) : Prop where
  openings : List.Forall₂ (fun node move => Shared.Opens node.nodeId move.1 move.2) asked (openings events)
  requests : requests events = sent.map Node.udpAddr
  sublist : sent.Sublist asked
  nodup : (asked.map Node.nodeId).Nodup

/-- No node was asked twice and not too many were asked. -/
def Bounded (events : List LookupEvent) : Prop :=
  ∃ asked sent, Asks asked sent events ∧ asked.length ≤ 16 + 16 * 255

/-! ## The candidates -/

/-- The nodes that were candidates once, in a set that is paid for: each new one costs one of the sum of the
distances. -/
structure Candidates.Within (target : H512) (candidates : Candidates) (entered : Finset H512) : Prop where
  asked : candidates.askedPeers ⊆ entered
  peers : ∀ node ∈ candidates.peersToAsk, node.nodeId ∈ entered
  length : candidates.peersToAsk.length ≤ 16
  potential : entered.card + (candidates.peersToAsk.map (distanceTo target)).sum +
    256 * (16 - candidates.peersToAsk.length) ≤ 16 + 16 * 255

theorem distanceTo_le (target : H512) (node : Node) : distanceTo target node ≤ 255 :=
  Nat.le_of_lt_succ (bucketNumber_lt target node.nodeId)

theorem length_getClosestNodes_le (table : KademliaTable) (target : H512) :
    (table.getClosestNodes target).length ≤ 16 := by
  have hlength := (@FirstFit.foldl_keep _ _ _ 16 [] (distanceTo target) table.nodes (Nat.zero_le _)).2
  rw [KademliaTable.getClosestNodes_eq, hlength]
  exact min_le_left _ _

theorem sum_distances_le (target : H512) (nodes : List Node) :
    (nodes.map (distanceTo target)).sum ≤ 255 * nodes.length := by
  induction nodes with
  | nil => exact Nat.zero_le _
  | cons node nodes ih =>
    have hdistance := distanceTo_le target node
    rw [map_cons, sum_cons, length_cons]
    omega

theorem Candidates.within_start (target : H512) {nodes : List Node} (h : nodes.length ≤ 16) (seen : Finset H512) :
    Candidates.Within target ⟨∅, seen, nodes⟩ (nodes.map Node.nodeId).toFinset where
  asked := Finset.empty_subset _
  peers node hnode := mem_toFinset.mpr (mem_map_of_mem hnode)
  length := h
  potential := by
    have hcard := toFinset_card_le (nodes.map Node.nodeId)
    rw [length_map] at hcard
    have hsum := sum_distances_le target nodes
    dsimp only
    omega

theorem Candidates.Within.entered_card_le
    (h : candidates.Within target entered) : entered.card ≤ 16 + 16 * 255 := by
  have hpotential := h.potential
  omega

theorem Candidates.Within.push
    (h : candidates.Within target entered) (node : Node) :
    ∃ entered', entered ⊆ entered' ∧ (candidates.push target node).Within target entered' := by
  rw [Candidates.push]
  split_ifs with hseen
  · exact ⟨entered, subset_rfl, h⟩
  have hlength := h.length
  have hpotential := h.potential
  have hcard := Finset.card_insert_le node.nodeId entered
  have hstep := step_peersToAskPush candidates.peersToAsk target node
  generalize peersToAskPush candidates.peersToAsk target node = pushed at hstep
  cases hstep with
  | room hroom =>
    have hdistance := distanceTo_le target node
    refine ⟨insert node.nodeId entered, Finset.subset_insert _ _, ?_, ?_, ?_, ?_⟩
    · exact h.asked.trans (Finset.subset_insert _ _)
    · intro other hother
      rcases mem_append.mp hother with hother | hother
      · exact Finset.mem_insert_of_mem (h.peers other hother)
      · rw [mem_singleton.mp hother]
        exact Finset.mem_insert_self _ _
    · rw [length_append]
      exact hroom
    · have hroom' : candidates.peersToAsk.length < 16 := hroom
      rw [map_append, sum_append, length_append]
      simp only [map_cons, map_nil, sum_singleton, length_cons]
      omega
  | skip => exact ⟨entered, subset_rfl, h.asked, h.peers, hlength, hpotential⟩
  | @replace i peer _ hi hlt _ =>
    obtain ⟨rest, hold, hnew⟩ := Smallest.exists_cons_set node hi
    have hsum : (candidates.peersToAsk.map (distanceTo target)).sum =
        distanceTo target peer + (rest.map (distanceTo target)).sum := by
      rw [← Multiset.sum_coe, ← Multiset.map_coe, hold, Multiset.map_cons, Multiset.sum_cons]
    have hsum' : ((candidates.peersToAsk.set i node).map (distanceTo target)).sum =
        distanceTo target node + (rest.map (distanceTo target)).sum := by
      rw [← Multiset.sum_coe, ← Multiset.map_coe, hnew, Multiset.map_cons, Multiset.sum_cons]
    refine ⟨insert node.nodeId entered, Finset.subset_insert _ _, ?_, ?_, ?_, ?_⟩
    · exact h.asked.trans (Finset.subset_insert _ _)
    · intro other hother
      rcases mem_or_eq_of_mem_set hother with hother | rfl
      · exact Finset.mem_insert_of_mem (h.peers other hother)
      · exact Finset.mem_insert_self _ _
    · rwa [length_set]
    · rw [hsum', length_set]
      omega

theorem Candidates.Within.foldl
    (h : candidates.Within target entered) (nodes : List Node) :
    ∃ entered', entered ⊆ entered' ∧
      (nodes.foldl (fun candidates node => candidates.push target node) candidates).Within target entered' := by
  induction nodes generalizing candidates entered with
  | nil => exact ⟨entered, subset_rfl, h⟩
  | cons node nodes ih =>
    obtain ⟨entered', hsub, hpush⟩ := h.push node
    obtain ⟨final, hsub', hfinal⟩ := ih hpush
    exact ⟨final, hsub.trans hsub', hfinal⟩

theorem askedPeers_foldl (candidates : Candidates) (nodes : List Node) :
    (nodes.foldl (fun candidates node => candidates.push target node) candidates).askedPeers =
      candidates.askedPeers := by
  induction nodes generalizing candidates with
  | nil => rfl
  | cons node nodes ih =>
    rw [foldl_cons, ih, Candidates.push]
    split_ifs <;> rfl

/-! ## The requests -/

/-- The peers that count as asked are those with an opened request. -/
def AskedIs (entered askedPeers : Finset H512) (events : List LookupEvent) : Prop :=
  ∃ asked sent, Asks asked sent events ∧ (asked.map Node.nodeId).toFinset = askedPeers ∧ askedPeers ⊆ entered

theorem AskedIs.mono (h : AskedIs entered askedPeers events) (hsub : entered ⊆ entered') :
    AskedIs entered' askedPeers events := by
  obtain ⟨asked, sent, hasks, hids, hasked⟩ := h
  exact ⟨asked, sent, hasks, hids, hasked.trans hsub⟩

theorem Asks.length_eq (h : Asks asked sent events) : asked.length = (asked.map Node.nodeId).toFinset.card := by
  rw [toFinset_card_of_nodup h.nodup, length_map]

theorem AskedIs.bounded (h : AskedIs entered askedPeers events) (hcard : entered.card ≤ 16 + 16 * 255) :
    Bounded events := by
  obtain ⟨asked, sent, hasks, rfl, hasked⟩ := h
  refine ⟨asked, sent, hasks, ?_⟩
  rw [hasks.length_eq]
  exact (Finset.card_le_card hasked).trans hcard

theorem asks_nil : Asks [] [] [] := ⟨.nil, rfl, .slnil, nodup_nil⟩

theorem Asks.open (h : Asks asked sent events) (hnew : node.nodeId ∉ asked.map Node.nodeId)
    (hopens : Shared.Opens node.nodeId s s') :
    Asks (asked ++ [node]) sent (events ++ [.opened s s']) where
  openings := by
    rw [Net.openings, filterMap_append]
    exact rel_append h.openings (.cons hopens .nil)
  requests := by
    rw [Net.requests, filterMap_append]
    exact (append_nil _).trans h.requests
  sublist := h.sublist.trans (sublist_append_left _ _)
  nodup := by
    rw [map_append]
    refine List.Nodup.append h.nodup (nodup_singleton _) ?_
    intro id hid hnode
    rw [mem_singleton.mp hnode] at hid
    exact hnew hid

theorem Asks.send (h : Asks (asked ++ [node]) sent events) (hsent : sent.Sublist asked) :
    Asks (asked ++ [node]) (sent ++ [node]) (events ++ [.requested node.udpAddr]) where
  openings := by
    rw [Net.openings, filterMap_append]
    exact (append_nil (Net.openings events)).symm ▸ h.openings
  requests := by
    rw [Net.requests, filterMap_append, map_append]
    exact congrArg (· ++ [node.udpAddr]) h.requests
  sublist := hsent.append (List.Sublist.refl [node])
  nodup := h.nodup

/-! ## The steps of a lookup -/

variable {α : Type}

omit [Keccak256] in
theorem guarded_silent {action : Input → Shared → Option (α × Shared)} (hok : ok events)
    (hsilent : ∀ i s a s', action i s = some (a, s') → s'.channels.length = s.channels.length ∧ s'.log = s.log) :
    Guarded lookupEvents ok events (access action) fun _ events' => events' = events := by
  refine .act hok fun i s a s' hact => ?_
  obtain ⟨hchannels, hlog⟩ := hsilent i _ a s' hact
  have hnone : lookupEvents s s' = [] := lookupEvents_of_same hchannels hlog
  rw [hnone, append_nil]
  exact .done hok rfl

omit [Keccak256] in
theorem guarded_leave (hok : ok events) (task : Task) :
    Guarded lookupEvents ok events (leave task) fun _ events' => events' = events := by
  refine guarded_silent hok fun i s a s' hact => ?_
  cases hact
  exact ⟨rfl, rfl⟩

omit [Keccak256] in
theorem guarded_checked (hok : ok events) (task : Task) (x : Outcome Empty α) :
    Guarded lookupEvents ok events (checked task x) fun _ events' => events' = events := by
  rcases x with (e | message | _) | a
  · exact e.elim
  · refine (guarded_silent hok fun i s a s' hact => ?_).bind fun _ events' h => .crash (h ▸ hok)
    cases hact
    exact ⟨rfl, rfl⟩
  · exact .crash hok
  · exact .done hok rfl

omit [Keccak256] in
theorem guarded_recv (hok : ok events) (rx : Nat) :
    Guarded lookupEvents ok events (recv rx) fun _ events' => events' = events := by
  refine guarded_silent hok fun i s a s' hact => ?_
  split at hact
  · cases hact
    exact ⟨length_set, rfl⟩
  · cases hact
    exact ⟨rfl, rfl⟩

omit [Keccak256] in
theorem lookupEvents_sent (s : Shared) (now : Nat) (recipient : SocketAddr) (message : FindNodeMessage)
    (packet : ByteString) :
    lookupEvents s { s with now := now, log := .sent now recipient (.findNode message) packet :: s.log } =
      [.requested recipient] := by
  simp [lookupEvents]

theorem guarded_findNodeAndWaitForResponse (signer : SigningKey) (target : H512) (rx : Nat)
    (h : Asks (asked ++ [node]) sent events) (hsent : sent.Sublist asked)
    (hlength : (asked ++ [node]).length ≤ 16 + 16 * 255) :
    Guarded lookupEvents Bounded events (findNodeAndWaitForResponse node.udpAddr signer target rx) fun _ events' =>
      ∃ sent', Asks (asked ++ [node]) sent' events' := by
  have hok : ∀ {sent events}, Asks (asked ++ [node]) sent events → Bounded events := fun h => ⟨_, _, h, hlength⟩
  refine (guarded_silent (hok h) fun i s a s' hact => ?_).bind fun now _ heq => ?_
  · cases hact
    exact ⟨rfl, rfl⟩
  subst heq
  refine (guarded_checked (hok h) _ _).bind fun buf _ heq => ?_
  subst heq
  -- the only action that shows
  refine Guarded.bind (Q := fun _ events' => ∃ sent', Asks (asked ++ [node]) sent' events')
    ?_ fun bytes events' hsent' => ?_
  · refine .act (hok h) fun i s bytes s' hact => ?_
    cases hbytes : i.bytesSent with
    | none =>
      have hnone : lookupEvents s s' = [] := by
        cases hact
        rw [hbytes]
        exact lookupEvents_of_same rfl rfl
      rw [hnone, append_nil]
      exact .done (hok h) ⟨sent, h⟩
    | some n =>
      cases hact
      rw [hbytes, lookupEvents_sent]
      exact .done (hok (h.send hsent)) ⟨_, h.send hsent⟩
  · obtain ⟨sent', hasks⟩ := hsent'
    cases bytes with
    | none => exact .done (hok hasks) ⟨sent', hasks⟩
    | some n =>
      refine .loopFrom (fun _ events' => ∃ sent', Asks (asked ++ [node]) sent' events') _ (hok hasks) ⟨sent', hasks⟩
        (fun nodes events' hinside => ?_) fun nodes events' hinside => ?_
      · obtain ⟨sent', hasks⟩ := hinside
        refine (guarded_recv (hok hasks) rx).bind fun found _ heq => ?_
        subst heq
        cases found with
        | none => exact .done (hok hasks) ⟨sent', hasks⟩
        | some foundNodes =>
          refine .done (hok hasks) ?_
          split_ifs
          · exact ⟨sent', hasks⟩
          · exact ⟨sent', hasks⟩
      · obtain ⟨sent', hasks⟩ := hinside
        exact hok hasks

theorem openRequest_action (s : Shared) (now : Nat)
    (h : (if s.lock.isSome then none else some (({ s with now := now } : Shared).openRequest nodeId)) = some (rx, s')) :
    (rx = none ∧ lookupEvents s s' = []) ∨
    ∃ tx, rx = some tx ∧ Shared.Opens nodeId s s' ∧ lookupEvents s s' = [.opened s s'] := by
  split_ifs at h
  have hopen := Option.some.inj h
  unfold Shared.openRequest at hopen
  split at hopen
  · split_ifs at hopen with hrequest
    · cases hopen
      exact .inl ⟨rfl, lookupEvents_of_same rfl rfl⟩
    · obtain ⟨rfl, hs'⟩ := Prod.mk.inj hopen
      have hchannels : s'.channels.length = s.channels.length + 1 := by
        rw [← hs']
        exact length_append
      have hlog : s'.log = s.log := by rw [← hs']
      refine .inr ⟨_, rfl, ⟨now, _, Option.some.inj h⟩, ?_⟩
      have hnone := lookupEvents_self s
      rw [lookupEvents, if_neg (Nat.succ_ne_self _).symm, nil_append] at hnone
      rw [lookupEvents, if_pos hchannels, hlog, hnone]
      rfl
  · cases hopen
    exact .inl ⟨rfl, lookupEvents_of_same rfl rfl⟩

/-- The peers that a lookup asks are new, and from the list it was given. -/
theorem guarded_lookup (signer : SigningKey) (target : H512) (hcard : entered.card ≤ 16 + 16 * 255)
    (nodesToAsk : List Node) (hnodes : ∀ node ∈ nodesToAsk, node.nodeId ∈ entered) (progress : Progress)
    (h : AskedIs entered progress.askedPeers events) :
    Guarded lookupEvents Bounded events (lookup signer target progress nodesToAsk) fun progress' events' =>
      AskedIs entered progress'.askedPeers events' := by
  induction nodesToAsk generalizing progress events with
  | nil => exact .done (h.bounded hcard) h
  | cons node nodesToAsk ih =>
    have hrest : ∀ node ∈ nodesToAsk, node.nodeId ∈ entered := fun node hnode => hnodes node (mem_cons_of_mem _ hnode)
    unfold lookup
    dsimp only
    by_cases hasked : node.nodeId ∈ progress.askedPeers
    · split_ifs
      · exact .done (h.bounded hcard) h
      · exact ih hrest progress h
    · rw [if_neg hasked]
      refine .act (h.bounded hcard) fun i s rx s' hact => ?_
      rcases openRequest_action s (s.now + i.elapsed) hact with ⟨rfl, hevents⟩ | ⟨tx, rfl, hopens, hevents⟩
      · rw [hevents, append_nil]
        exact ih hrest progress h
      · obtain ⟨asked, sent, hasks, hids, hsub⟩ := h
        have hnew : node.nodeId ∉ asked.map Node.nodeId := by
          rw [← mem_toFinset, hids]
          exact hasked
        have hopened := hasks.open hnew hopens
        have hids' : ((asked ++ [node]).map Node.nodeId).toFinset = insert node.nodeId progress.askedPeers := by
          rw [← hids, map_append, toFinset_append]
          exact Finset.union_comm _ _
        have hsub' : insert node.nodeId progress.askedPeers ⊆ entered :=
          Finset.insert_subset (hnodes node mem_cons_self) hsub
        have hlength : (asked ++ [node]).length ≤ 16 + 16 * 255 := by
          rw [hopened.length_eq, hids']
          exact (Finset.card_le_card hsub').trans hcard
        rw [hevents]
        refine (guarded_findNodeAndWaitForResponse signer target _ hopened hasks.sublist hlength).bind
          fun foundNodes events' hwait => ?_
        obtain ⟨sent', hasks'⟩ := hwait
        have hinv : AskedIs entered (insert node.nodeId progress.askedPeers) events' := ⟨_, sent', hasks', hids', hsub'⟩
        split_ifs
        · exact .done (hinv.bounded hcard) hinv
        · exact ih hrest _ hinv

theorem guarded_recursiveLookup (signer : SigningKey) (target localNodeId : H512) :
    Guarded lookupEvents Bounded [] (recursiveLookup signer target localNodeId) fun _ _ => True := by
  have hok : Bounded [] := ⟨[], [], asks_nil, Nat.zero_le _⟩
  refine Guarded.bind (Q := fun nodes events => events = [] ∧ nodes.length ≤ 16) ?_ fun nodes events hnodes => ?_
  · refine .act hok fun i s nodes s' hact => ?_
    dsimp only at hact
    split_ifs at hact
    cases hact
    have hnone : lookupEvents s { s with now := s.now + i.elapsed } = [] := lookupEvents_of_same rfl rfl
    rw [hnone]
    exact .done hok ⟨rfl, length_getClosestNodes_le _ _⟩
  obtain ⟨rfl, hlength⟩ := hnodes
  refine Guarded.bind (Q := fun _ events => Bounded events) ?_ fun _ events hevents =>
    (guarded_leave hevents .lookup).mono fun _ _ _ => trivial
  -- between two rounds the nodes with a request have been candidates
  refine .loopFrom (fun candidates events => ∃ entered, candidates.Within target entered ∧
    AskedIs entered candidates.askedPeers events) _ hok ?_ (fun candidates events hinside => ?_) fun _ _ h => h
  · exact ⟨_, Candidates.within_start target hlength _, [], [], asks_nil, rfl, Finset.empty_subset _⟩
  · obtain ⟨entered, hwithin, hasked⟩ := hinside
    have hcard := hwithin.entered_card_le
    refine (guarded_lookup signer target hcard candidates.peersToAsk hwithin.peers _ hasked).bind
      fun progress events' hprogress => .done (hprogress.bounded hcard) ?_
    split_ifs
    · exact hprogress.bounded hcard
    · obtain ⟨asked, sent, hasks, hids, hsub⟩ := hprogress
      have hupdated : Candidates.Within target { candidates with askedPeers := progress.askedPeers } entered :=
        ⟨hsub, hwithin.peers, hwithin.length, hwithin.potential⟩
      obtain ⟨entered', hentered, hfinal⟩ := hupdated.foldl progress.nodes
      refine ⟨entered', hfinal, ?_⟩
      rw [askedPeers_foldl]
      exact AskedIs.mono ⟨asked, sent, hasks, hids, hsub⟩ hentered

/-! ## The end of a lookup -/

/-- The waits for a reply. -/
inductive ReplyWait (signer : SigningKey) (target : H512) : (β : Type) → Discovery β → Prop
  | mk (toAddr : SocketAddr) (rx : Nat) :
    ReplyWait signer target (List Node) (findNodeAndWaitForResponse toAddr signer target rx)

/-- A lookup counts the peers that it asks, and takes them from its list. -/
theorem yields_lookup (signer : SigningKey) (target : H512) (nodesToAsk : List Node) (progress : Progress) :
    Yields (ReplyWait signer target) (lookup signer target progress nodesToAsk) fun progress' =>
      progress'.askedPeers ⊆ progress.askedPeers ∪ (nodesToAsk.map Node.nodeId).toFinset ∧
      progress'.askedPeers.card + progress.queries = progress.askedPeers.card + progress'.queries := by
  induction nodesToAsk generalizing progress with
  | nil => exact .done ⟨Finset.subset_union_left, rfl⟩
  | cons node nodesToAsk ih =>
    have hids : (nodesToAsk.map Node.nodeId).toFinset ⊆ ((node :: nodesToAsk).map Node.nodeId).toFinset := by
      rw [map_cons, toFinset_cons]
      exact Finset.subset_insert _ _
    have hskip : Yields (ReplyWait signer target) (lookup signer target progress nodesToAsk) fun progress' =>
        progress'.askedPeers ⊆ progress.askedPeers ∪ ((node :: nodesToAsk).map Node.nodeId).toFinset ∧
        progress'.askedPeers.card + progress.queries = progress.askedPeers.card + progress'.queries :=
      (ih progress).mono fun progress' h => ⟨h.1.trans (Finset.union_subset_union_right hids), h.2⟩
    unfold lookup
    dsimp only
    by_cases hasked : node.nodeId ∈ progress.askedPeers
    · split_ifs
      · exact .done ⟨Finset.subset_union_left, rfl⟩
      · exact hskip
    · rw [if_neg hasked]
      have hcard : (insert node.nodeId progress.askedPeers).card = progress.askedPeers.card + 1 :=
        Finset.card_insert_of_notMem hasked
      have hsub : insert node.nodeId progress.askedPeers ⊆
          progress.askedPeers ∪ ((node :: nodesToAsk).map Node.nodeId).toFinset := by
        refine Finset.insert_subset (Finset.mem_union_right _ ?_) Finset.subset_union_left
        exact mem_toFinset.mpr mem_cons_self
      refine .act fun i s rx s' _ => ?_
      cases rx with
      | none => exact hskip
      | some rx =>
        change Yields _ ((findNodeAndWaitForResponse node.udpAddr signer target rx).bind _) _
        refine .wait (.mk node.udpAddr rx) fun foundNodes => ?_
        split_ifs
        · refine .done ⟨hsub, ?_⟩
          dsimp only
          omega
        · refine (ih _).mono fun progress' h => ⟨h.1.trans (Finset.union_subset hsub ?_), ?_⟩
          · exact hids.trans Finset.subset_union_right
          · have hcount := h.2
            dsimp only at hcount
            omega

/-- Every round but the last asks a peer that was not asked before. -/
theorem yields_rounds (signer : SigningKey) (target : H512) (candidates : Candidates)
    (h : ∃ entered, candidates.Within target entered) :
    Yields (ReplyWait signer target)
      (.loop (lookupRound signer target) candidates fun _ => leave .lookup) fun _ => True := by
  induction hn : 16 + 16 * 255 - candidates.askedPeers.card using Nat.strong_induction_on generalizing candidates with
  | _ n ih =>
    obtain ⟨entered, hwithin⟩ := h
    refine .loop (Yields.bind (Yields.bind (yields_lookup signer target candidates.peersToAsk _)
      fun progress hprogress =>
      .done (Q := Sum.elim (fun next : Candidates => (∃ entered, next.Within target entered) ∧
        candidates.askedPeers.card < next.askedPeers.card) fun _ => True) ?_) fun result hresult => ?_)
    · split_ifs with hqueries
      · trivial
      · obtain ⟨hsub, hcount⟩ := hprogress
        have hasked : progress.askedPeers ⊆ entered := by
          refine hsub.trans (Finset.union_subset hwithin.asked fun id hid => ?_)
          obtain ⟨node, hnode, rfl⟩ := mem_map.mp (mem_toFinset.mp hid)
          exact hwithin.peers node hnode
        have hupdated : Candidates.Within target { candidates with askedPeers := progress.askedPeers } entered :=
          ⟨hasked, hwithin.peers, hwithin.length, hwithin.potential⟩
        obtain ⟨entered', -, hfinal⟩ := hupdated.foldl progress.nodes
        refine ⟨⟨entered', hfinal⟩, ?_⟩
        rw [askedPeers_foldl]
        dsimp only at hcount ⊢
        omega
    · cases result with
      | inl next =>
        obtain ⟨⟨entered', hnext⟩, hmore⟩ := hresult
        have hle := (Finset.card_le_card hnext.asked).trans hnext.entered_card_le
        exact ih _ (by omega) next ⟨entered', hnext⟩ rfl
      | inr _ => exact .act fun _ _ _ _ _ => .done trivial

theorem yields_recursiveLookup (signer : SigningKey) (target localNodeId : H512) :
    Yields (ReplyWait signer target) (recursiveLookup signer target localNodeId) fun _ => True := by
  refine .act fun i s nodes s' hact => yields_rounds signer target _ ?_
  dsimp only at hact
  split_ifs at hact
  cases hact
  exact ⟨_, Candidates.within_start target (length_getClosestNodes_le _ _) _⟩

/-- Whatever the table holds and whatever is answered, a lookup opens a request to any node at most once and to at most
`16 + 16 * 255` nodes, it sends a request to a node only after opening it, and it goes on forever only in a wait for a
reply. -/
theorem recursiveLookup_bounded (signer : SigningKey) (target localNodeId : H512) :
    (∀ events rest, Runs lookupEvents (recursiveLookup signer target localNodeId) events rest →
      ∃ asked sent : List Node, (asked.map Node.nodeId).Nodup ∧ asked.length ≤ 16 + 16 * 255 ∧ sent.Sublist asked ∧
        List.Forall₂ (fun node move => Shared.Opens node.nodeId move.1 move.2) asked (openings events) ∧
        requests events = sent.map Node.udpAddr) ∧
    ∀ run : Nat → Discovery Unit, run 0 = recursiveLookup signer target localNodeId → Forever run →
      StaysIn (ReplyWait signer target) run := by
  refine ⟨fun events rest hrun => ?_, fun run h0 hforever =>
    (yields_recursiveLookup signer target localNodeId).staysIn h0 hforever⟩
  obtain ⟨asked, sent, hasks, hlength⟩ :=
    (guarded_recursiveLookup signer target localNodeId).runs lookupEvents_self hrun
  exact ⟨asked, sent, hasks.nodup, hlength, hasks.sublist, hasks.openings, hasks.requests⟩

end
end EthereumRust.Net
