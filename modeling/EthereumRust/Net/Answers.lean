import EthereumRust.Net.Upkeep

/-! # Which peers lose liveness

A `Pong` counts if the server looks up its sender when the ping is entered in the table. The
server drops one that it looks at between the sending and the entry. -/

namespace EthereumRust.Net

open Rlp Mpt List Option

section

variable [Keccak256]

def Shared.entry (s : Shared) (nodeId : H512) : Option PeerData := s.table.getByNodeId nodeId

abbrev Move := Pool.Transition Task Input Shared

variable (nodeId : H512) (t : Move)

/-- The revalidation enters a ping to the peer. -/
def Records : Prop :=
  t.task.1 = .revalidation ∧ ∃ peer pingHash, t.before.entry nodeId = some peer ∧ t.after.entry nodeId =
    some { peer with lastPingHash := pingHash, lastPing := t.after.now, revalidation := some false }

/-- The task is about to look up the sender of a `Pong`, which is signed by the peer and was not
expired, and the hash in it is the one on record. -/
def LooksUp : Prop :=
  ∃ packet msg rest peer, t.task.2 = (answerPong packet msg).bind rest ∧ packet.nodeId = nodeId ∧
    t.before.entry nodeId = some peer ∧ peer.lastPingHash = some msg.pingHash

/-- The peer stays in the table and loses no liveness. -/
def Spares : Prop :=
  ∀ peer, t.before.entry nodeId = some peer →
    ∃ peer', t.after.entry nodeId = some peer' ∧ peer.liveness ≤ peer'.liveness

/-- In its last step a task has looked up such a `Pong`. Histories have the last step first. -/
inductive Looked : Nat → List Move → Prop
  | look {t : Move} {past : List Move} (looks : LooksUp nodeId t) : Looked t.index (t :: past)
  | wait {n : Nat} {t : Move} {past : List Move} (looked : Looked n past) (other : t.index ≠ n)
      (none : ¬ Records nodeId t) : Looked n (t :: past)

/-- The task has gone on since it looked up the `Pong`, and no new ping was entered. -/
inductive Answered : List Move → Prop
  | register {t : Move} {past : List Move} (looked : Looked nodeId t.index past) : Answered (t :: past)
  | wait {t : Move} {past : List Move} (answered : Answered past) (none : ¬ Records nodeId t) : Answered (t :: past)

/-- The step does to the entry of the peer what the steps of its task can do. -/
abbrev EntryMove : Prop :=
  EntryStep t.task.1 t.before.lock t.before.log t.after.now nodeId (t.before.entry nodeId) (t.after.entry nodeId)

variable {nodeId t}

theorem entry_modifyPeer {s s' : Shared} {f : PeerData → PeerData} (hwell : s.table.WellFormed)
    (htable : s'.table = s.table.modifyPeer nodeId f) (hf : ∀ peer, (f peer).node = peer.node) :
    s'.entry nodeId = (s.entry nodeId).map f := by
  rw [Shared.entry, htable, hwell.getByNodeId_modifyPeer_self hf]
  rfl

/-! ## What the history of a peer tells -/

/-- The server registers an answer. -/
def register (nodeId : H512) : Discovery Unit := withTable fun now table => ((), table.pongAnswered nodeId now)

/-- After it has looked up the `Pong`, the task is about to register it, and an answered ping is
not taken for one that is not. -/
structure Tracks (nodeId : H512) (past : List Move) (pool : Pool Task Input Shared) : Prop where
  looked : ∀ n, Looked nodeId n past → ∃ label rest, pool.tasks[n]? = some (label, (register nodeId).bind rest)
  answered : Answered nodeId past → ∀ peer, pool.state.entry nodeId = some peer → peer.revalidation ≠ some false
  live : ∀ peer, pool.state.entry nodeId = some peer → peer.liveness ≠ 0

theorem LooksUp.step {i : Input} (h : LooksUp nodeId t) (hstep : t.task.2.step i t.before = some (p, spawned, s)) :
    ∃ rest, p = (register nodeId).bind rest := by
  obtain ⟨packet, msg, rest, peer, hprogram, rfl, hentry, hhash⟩ := h
  have hid : peer.node.nodeId = packet.nodeId := (KademliaTable.holds_getByNodeId hentry).2
  rw [hprogram] at hstep
  obtain ⟨⟨found, s'⟩, hact, heq⟩ := map_eq_some_iff.mp hstep
  have hfound : found = some peer := by
    change (if t.before.lock.isSome then none else some (t.before.entry packet.nodeId, _)) = _ at hact
    split_ifs at hact
    exact (congrArg Prod.fst (Option.some.inj hact)).symm.trans hentry
  subst hfound
  refine ⟨rest, (congrArg Prod.fst heq).symm.trans ?_⟩
  simp only [Prog.bind, hhash, hid, if_true]
  rfl

variable {pool next : Pool Task Input Shared} {task : Task × Discovery Unit}

theorem Tracks.cons (h : Tracks nodeId past pool) (hwell : pool.state.table.WellFormed)
    (htask : pool.tasks[n]? = some task) (hstep : pool.step n i = some next)
    (hentry : EntryMove nodeId ⟨n, task, pool.state, next.state⟩)
    (hspares : Spares nodeId ⟨n, task, pool.state, next.state⟩) :
    Tracks nodeId (⟨n, task, pool.state, next.state⟩ :: past) next := by
  have hmove := hstep
  rw [Pool.step, htask] at hmove
  obtain ⟨⟨rest, spawned, s'⟩, hmove, heq⟩ := map_eq_some_iff.mp hmove
  have hlt := (List.getElem?_eq_some_iff.mp htask).1
  refine ⟨fun m hlooked => ?_, fun hanswered peer' hpeer' => ?_, fun peer' hpeer' => ?_⟩
  · cases hlooked with
    | look looks =>
      obtain ⟨rest', rfl⟩ := looks.step hmove
      refine ⟨task.1, rest', ?_⟩
      rw [← heq, List.getElem?_append_left (by rwa [length_set]), List.getElem?_set_self hlt]
    | wait looked other =>
      obtain ⟨label, rest', htask'⟩ := h.looked m looked
      exact ⟨label, rest', Pool.getElem?_step hstep other htask'⟩
  · cases hanswered with
    | register looked =>
      obtain ⟨label, rest', htask'⟩ := h.looked n looked
      obtain rfl := Option.some.inj (htask.symm.trans htask')
      obtain ⟨⟨⟨⟩, s⟩, hact, hs⟩ := map_eq_some_iff.mp hmove
      have htable : next.state.table = pool.state.table.pongAnswered nodeId (pool.state.now + i.elapsed) := by
        change (if pool.state.lock.isSome then none else some ((), _)) = _ at hact
        split_ifs at hact
        rw [← heq, ← congrArg (·.2.2) hs, ← congrArg Prod.snd (Option.some.inj hact)]
      have hflag := entry_modifyPeer hwell htable (by intro; rfl)
      obtain ⟨peer, -, rfl⟩ := map_eq_some_iff.mp (hflag.symm.trans hpeer')
      cases peer.revalidation <;> simp
    | wait answered none =>
      dsimp only [EntryMove] at hentry
      generalize hbefore : pool.state.entry nodeId = before at hentry
      rw [hpeer'] at hentry
      cases hentry with
      | same => exact h.answered answered _ hbefore
      | appear flag => simp [flag]
      | note _ flag => exact flag ▸ h.answered answered _ hbefore
      | @answer peer _ _ flag => cases hnone : peer.revalidation <;> simp [flag, hnone]
      | record pingHash revalidation => exact absurd ⟨revalidation, _, pingHash, hbefore, hpeer'⟩ none
      | check _ _ _ checked =>
        obtain ⟨liveness, rfl, -⟩ := PeerData.revalidated_ok checked
        simp
  · cases hbefore : pool.state.entry nodeId with
    | none =>
      dsimp only [EntryMove] at hentry
      rw [hbefore, hpeer'] at hentry
      cases hentry with
      | appear _ live => exact live
    | some peer =>
      have hlive := h.live peer hbefore
      obtain ⟨after, hafter, hle⟩ := hspares peer hbefore
      cases hpeer'.symm.trans hafter
      omega

theorem Answered.append {moves : List Move} (h : Answered nodeId past) (hnone : ∀ t ∈ moves, ¬ Records nodeId t) :
    Answered nodeId (moves.reverse ++ past) := by
  induction moves generalizing past with
  | nil => exact h
  | cons t moves ih =>
    obtain ⟨ht, hmoves⟩ := forall_mem_cons.mp hnone
    rw [reverse_cons, append_assoc]
    exact ih (h.wait ht) hmoves

end

namespace Sample

end Sample

namespace Sample

end Sample

end EthereumRust.Net
