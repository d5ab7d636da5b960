import EthereumRust.Net.Entries
import EthereumRust.Net.Evidence

/-! # The rules of the discovery tasks

A task that holds the lock finds the table as it has left it, and outside of the lock the
revalidation can rely on the peers that it has pinged: nobody else takes them out. -/

namespace EthereumRust.Net

open Rlp Mpt

/-- The panic of `get_by_node_id_mut(node_id).unwrap()`. -/
def missingPeer : String := "called `Option::unwrap()` on a `None` value"

section

variable [Keccak256] (bootnodes : List BootNode)

structure Inv (s : Shared) : Prop where
  peers : AllSound bootnodes s.log s.table
  neighbors : ∀ time addr msg packet earlier, .sent time addr (.neighbors msg) packet :: earlier <:+ s.log →
    Entitled bootnodes earlier addr
  table : s.table.WellFormed
  fresh : s.table.Fresh
  live : s.lock ≠ some .revalidation → s.table.AllLive
  found : (.revalidation, missingPeer) ∉ s.panics

/-- The log grows, and only the server receives packets. A task takes and frees the lock for itself only, and it leaves
the table alone while another task has the lock. -/
structure Changes (task : Task) (s s' : Shared) : Prop where
  log : ∃ new, s'.log = new ++ s.log ∧ (task ≠ .server → ∀ event ∈ new, event.IsSent)
  table : TableStep task s.lock s.log s'.now s.table s'.table
  lock : ∀ holder, holder ≠ task → (s'.lock = some holder ↔ s.lock = some holder)
  left : ∀ holder, holder ≠ task → s.lock = some holder → s'.table = s.table

/-- There is one server and one revalidation. -/
def rules : Rules Task Shared where
  inv := Inv bootnodes
  changes := Changes
  beside task other := task ≠ other ∨ task ≠ .server ∧ task ≠ .revalidation

/-- A fact that a task can rely on. -/
abbrev Steady (task : Task) (P : Shared → Prop) : Prop := (rules bootnodes).Stable task P

/-- The program keeps the rules if `P` holds before it, and then `Q` holds. -/
abbrev Keeps {α : Type} (task : Task) (P : Shared → Prop) (p : Discovery α) (Q : α → Shared → Prop) : Prop :=
  Safe (rules bootnodes) task P p Q

end

section

variable [Keccak256]

theorem ne_of_beside (h : (rules bootnodes).beside other task) (htask : task = .server ∨ task = .revalidation) :
    other ≠ task := by
  rintro rfl
  rcases h with hne | ⟨hserver, hrevalidation⟩
  · exact hne rfl
  · exact htask.elim hserver hrevalidation

theorem steady_log {P : List Event → Prop} (h : ∀ {log log'}, P log → log <:+ log' → P log') :
    Steady bootnodes task fun s => P s.log := by
  rintro other - s s' - - hchanges hp
  obtain ⟨new, hlog, -⟩ := hchanges.log
  exact h hp ⟨new, hlog.symm⟩

theorem steady_sound (peer : PeerData) : Steady bootnodes task fun s => Sound bootnodes s.log peer :=
  steady_log Sound.mono

theorem steady_pingSent (nodeId : H512) (hash : H256) :
    Steady bootnodes task fun s => PingSent bootnodes s.log nodeId hash := steady_log PingSent.mono

/-- What the server knows while it handles a packet. -/
def Handles (source : SocketAddr) (packet : Packet) (s : Shared) : Prop := Handling source packet s.log

theorem steady_handles (source : SocketAddr) (packet : Packet) : Steady bootnodes .server (Handles source packet) := by
  rintro other hbeside s s' - - hchanges hp
  obtain ⟨new, hlog, hnew⟩ := hchanges.log
  rw [Handles, hlog]
  exact hp.append (hnew (ne_of_beside hbeside (.inl rfl)))

/-- A fact about the table that a task knows while it holds the lock. -/
def Locked (task : Task) (R : KademliaTable → Prop) (s : Shared) : Prop := s.lock = some task ∧ R s.table

theorem steady_locked (htask : task = .server ∨ task = .revalidation) (R : KademliaTable → Prop) :
    Steady bootnodes task (Locked task R) := by
  rintro other hbeside s s' - - hchanges ⟨hholder, hp⟩
  have hne := (ne_of_beside hbeside htask).symm
  rw [Locked, hchanges.left task hne hholder]
  exact ⟨(hchanges.lock task hne).mpr hholder, hp⟩

/-- Nobody locks the table for the revalidation. -/
theorem steady_unlocked : Steady bootnodes .revalidation fun s => s.lock ≠ some .revalidation := by
  rintro other hbeside s s' - - hchanges hp
  exact fun heq => hp ((hchanges.lock _ (ne_of_beside hbeside (.inr rfl)).symm).mp heq)

/-- The revalidation can rely on the peers in the table. -/
theorem steady_present (ids : List H512) :
    Steady bootnodes .revalidation fun s => ∀ id ∈ ids, (s.table.getByNodeId id).isSome := by
  rintro other hbeside s s' hs - hchanges hp id hid
  exact hchanges.table.isSome (ne_of_beside hbeside (.inr rfl)) hs.table (hp id hid)

end

/-! ## Actions -/

section

variable [Keccak256] {α β : Type} {Q : α → Shared → Prop}

/-- The table and the lock stay, and packets may have been sent. -/
structure Quiet (s s' : Shared) : Prop where
  log : ∃ new, s'.log = new ++ s.log ∧ ∀ event ∈ new, event.IsSent
  table : s'.table = s.table
  lock : s'.lock = s.lock

theorem Quiet.changes (h : Quiet s s') (task : Task) : Changes task s s' := by
  obtain ⟨new, hlog, hnew⟩ := h.log
  refine ⟨⟨new, hlog, fun _ => hnew⟩, ?_, fun _ _ => by rw [h.lock], fun _ _ _ => h.table⟩
  rw [h.table]
  exact .same

/-- Any task may take such a step beside another one, so that each fact that a task can rely on survives it. -/
theorem Quiet.keeps (h : Quiet s s') (hP : Steady bootnodes task P) (hs : Inv bootnodes s) (hs' : Inv bootnodes s')
    (hp : P s) : P s' :=
  hP .startup (.inr (by decide)) s s' hs hs' (h.changes _) hp

/-- Nothing changes that the rules read. -/
structure Still (s s' : Shared) : Prop where
  log : s'.log = s.log
  table : s'.table = s.table
  lock : s'.lock = s.lock
  panics : s'.panics = s.panics

omit [Keccak256] in
theorem Still.quiet (h : Still s s') : Quiet s s' := ⟨⟨[], h.log, by simp⟩, h.table, h.lock⟩

theorem Still.inv (h : Still s s') (hs : Inv bootnodes s) : Inv bootnodes s' := by
  obtain ⟨hlog, htable, hlock, hpanics⟩ := h
  refine ⟨?_, ?_, ?_, ?_, ?_, ?_⟩
  · rw [hlog, htable]; exact hs.peers
  · rw [hlog]; exact hs.neighbors
  · rw [htable]; exact hs.table
  · rw [htable]; exact hs.fresh
  · rw [htable, hlock]; exact hs.live
  · rw [hpanics]; exact hs.found

omit [Keccak256] in
theorem Still.elapsed (s : Shared) (now : Nat) : Still s { s with now := now } := ⟨rfl, rfl, rfl, rfl⟩

theorem keeps_view {F : α → Prop} (hP : Steady bootnodes task P)
    (h : ∀ i s a s', action i s = some (a, s') → Still s s' ∧ F a) :
    Keeps bootnodes task P (access action) fun a s => P s ∧ F a := by
  refine .atomic hP (fun a => hP.and (.const _ _ _)) fun i s a s' hs hp hact => ?_
  obtain ⟨⟨hlog, htable, hlock, hpanics⟩, hfact⟩ := h i { s with now := s.now + i.elapsed } a s' hact
  have hstill : Still s s' := ⟨hlog, htable, hlock, hpanics⟩
  exact ⟨hstill.inv hs, hstill.quiet.changes task, hstill.quiet.keeps hP hs (hstill.inv hs) hp, hfact⟩

theorem keeps_look (hP : Steady bootnodes task P)
    (h : ∀ i s a s', action i s = some (a, s') → Still s s') : Keeps bootnodes task P (access action) fun _ => P :=
  (keeps_view (F := fun _ => True) hP fun i s a s' hact => ⟨h i s a s' hact, trivial⟩).mono fun _ _ _ => And.left

theorem keeps_timeNowUnix (hP : Steady bootnodes task P) : Keeps bootnodes task P timeNowUnix fun _ => P :=
  keeps_look hP fun _ _ _ _ h => by cases h; exact ⟨rfl, rfl, rfl, rfl⟩

theorem keeps_waitUntil (hP : Steady bootnodes task P) (time : Nat) :
    Keeps bootnodes task P (waitUntil time) fun _ => P :=
  keeps_look hP fun _ s _ _ h => by
    split at h <;> cases h
    exact ⟨rfl, rfl, rfl, rfl⟩

/-- A write to the table, after which its entries are still true. -/
structure Writes (bootnodes : List BootNode) (task : Task) (s s' : Shared) : Prop where
  log : s'.log = s.log
  lock : s'.lock = s.lock
  panics : s'.panics = s.panics
  step : TableStep task s.lock s.log s'.now s.table s'.table
  sound : AllSound bootnodes s.log s'.table

theorem Writes.of_step (hstep : TableStep task s.lock s.log s.now s.table table')
    (hsound : AllSound bootnodes s.log table') : Writes bootnodes task s { s with table := table' } :=
  ⟨rfl, rfl, rfl, hstep, hsound⟩

/-- An action on the table of a task that nobody keeps from it. The revalidation may leave a peer without liveness
only while it holds the lock. -/
theorem keeps_write (hP : Steady bootnodes task P)
    (hQ : ∀ a, Steady bootnodes task (Q a))
    (h : ∀ i s a s', Inv bootnodes s → P s → action i s = some (a, s') → (s.lock = none ∨ s.lock = some task) ∧
      Writes bootnodes task s s' ∧ (task = .revalidation → s.lock = none → s'.table.AllLive) ∧ Q a s') :
    Keeps bootnodes task P (access action) Q := by
  refine .atomic hP hQ fun i s a s' hs hp hact => ?_
  have helapsed := Still.elapsed s (s.now + i.elapsed)
  obtain ⟨hfree, ⟨hlog, hlock, hpanics, hstep, hsound⟩, hlive, hq⟩ := h i _ a s' (helapsed.inv hs)
    (helapsed.quiet.keeps hP hs (helapsed.inv hs) hp) hact
  refine ⟨⟨?_, ?_, hstep.wellFormed hs.table, hstep.fresh hs.fresh, fun hother => ?_, ?_⟩,
    ⟨⟨[], hlog, nofun⟩, hstep, fun _ _ => by rw [hlock], fun holder hne hholder => ?_⟩, hq⟩
  · rw [hlog]; exact hsound
  · rw [hlog]; exact hs.neighbors
  · rw [hlock] at hother
    by_cases htask : task = .revalidation
    · exact hlive htask (hfree.resolve_right (htask ▸ hother))
    · exact hstep.allLive htask (hs.live hother)
  · rw [hpanics]; exact hs.found
  · rcases hfree with hnone | hown
    · cases hnone.symm.trans hholder
    · exact absurd (Option.some.inj (hown.symm.trans hholder)).symm hne

theorem keeps_withTable (hP : Steady bootnodes task P)
    (hQ : ∀ a, Steady bootnodes task (Q a))
    (h : ∀ s, Inv bootnodes s → s.lock = none → P s →
      TableStep task s.lock s.log s.now s.table (f s.now s.table).2 ∧ AllSound bootnodes s.log (f s.now s.table).2 ∧
        (task = .revalidation → (f s.now s.table).2.AllLive) ∧
        Q (f s.now s.table).1 { s with table := (f s.now s.table).2 }) :
    Keeps bootnodes task P (withTable f) Q := by
  refine keeps_write hP hQ fun i s a s' hs hp hact => ?_
  split at hact
  · cases hact
  rename_i hlock
  have hnone : s.lock = none := Option.not_isSome_iff_eq_none.mp hlock
  cases hact
  obtain ⟨hstep, hsound, hlive, hq⟩ := h s hs hnone hp
  exact ⟨.inl hnone, .of_step hstep hsound, fun htask _ => hlive htask, hq⟩

theorem keeps_read {g : Nat → KademliaTable → α} (hP : Steady bootnodes task P) (hQ : ∀ a, Steady bootnodes task (Q a))
    (h : ∀ s, Inv bootnodes s → P s → Q (g s.now s.table) s) :
    Keeps bootnodes task P (withTable fun now table => (g now table, table)) fun a s => P s ∧ Q a s :=
  keeps_withTable hP (fun a => hP.and (hQ a)) fun s hs hnone hp =>
    ⟨.same, hs.peers, fun _ => hs.live (by rw [hnone]; nofun), hp, h s hs hp⟩

theorem keeps_update (htask : task ≠ .revalidation)
    (hP : Steady bootnodes task P) (hQ : ∀ a, Steady bootnodes task (Q a))
    (h : ∀ s, Inv bootnodes s → P s →
      TableStep task s.lock s.log s.now s.table (f s.now s.table).2 ∧ AllSound bootnodes s.log (f s.now s.table).2 ∧
        Q (f s.now s.table).1 { s with table := (f s.now s.table).2 }) :
    Keeps bootnodes task P (withTable f) Q :=
  keeps_withTable hP hQ fun s hs _ hp =>
    ⟨(h s hs hp).1, (h s hs hp).2.1, fun heq => absurd heq htask, (h s hs hp).2.2⟩

theorem keeps_guarded (hP : Steady bootnodes task P)
    (hQ : ∀ a, Steady bootnodes task (Q a))
    (h : ∀ s, Inv bootnodes s → P s → s.lock = some task ∧
      TableStep task s.lock s.log s.now s.table (f s.now s.table).2 ∧ AllSound bootnodes s.log (f s.now s.table).2 ∧
        Q (f s.now s.table).1 { s with table := (f s.now s.table).2 }) :
    Keeps bootnodes task P (guarded f) Q := by
  refine keeps_write hP hQ fun i s a s' hs hp hact => ?_
  cases hact
  obtain ⟨hlock, hstep, hsound, hq⟩ := h s hs hp
  exact ⟨.inr hlock, .of_step hstep hsound, fun _ hnone => absurd (hnone.symm.trans hlock) nofun, hq⟩

theorem keeps_lockTable (hP : Steady bootnodes task P) (hP' : Steady bootnodes task P')
    (h : ∀ s, s.table.AllLive → P s → P' { s with lock := some task }) :
    Keeps bootnodes task P (lockTable task) fun _ => P' := by
  refine .atomic hP (fun _ => hP') fun i s a s' hs hp hact => ?_
  have helapsed := Still.elapsed s (s.now + i.elapsed)
  have hp := helapsed.quiet.keeps hP hs (helapsed.inv hs) hp
  dsimp only at hact
  split at hact
  · cases hact
  rename_i hlock
  have hnone : s.lock = none := Option.not_isSome_iff_eq_none.mp hlock
  cases hact
  have hlive := hs.live (by rw [hnone]; nofun)
  refine ⟨⟨hs.peers, hs.neighbors, hs.table, hs.fresh, fun _ => hlive, hs.found⟩,
    ⟨⟨[], rfl, nofun⟩, .same, fun holder hne => ?_, fun _ _ _ => rfl⟩,
    h { s with now := s.now + i.elapsed } hlive hp⟩
  simp [hnone, Ne.symm hne]

theorem keeps_unlockTable (hP : Steady bootnodes task P) (hP' : Steady bootnodes task P')
    (h : ∀ s, P s → s.lock = some task ∧ (task = .revalidation → s.table.AllLive) ∧ P' { s with lock := none }) :
    Keeps bootnodes task P unlockTable fun _ => P' := by
  refine .atomic hP (fun _ => hP') fun i s a s' hs hp hact => ?_
  have helapsed := Still.elapsed s (s.now + i.elapsed)
  obtain ⟨hlock, hlive, hp'⟩ := h _ (helapsed.quiet.keeps hP hs (helapsed.inv hs) hp)
  dsimp only at hlock hlive
  cases hact
  refine ⟨⟨hs.peers, hs.neighbors, hs.table, hs.fresh, fun _ => ?_, hs.found⟩,
    ⟨⟨[], rfl, nofun⟩, .same, fun holder hne => ?_, fun _ _ _ => rfl⟩, hp'⟩
  · by_cases heq : task = .revalidation
    · exact hlive heq
    · exact hs.live (by rw [hlock]; exact fun hsome => heq (Option.some.inj hsome))
  · simp [hlock, Ne.symm hne]

/-! ### The end of a task -/

/-- A task that ends or panics gives its lock back, so every peer must be alive. -/
def MayLeave (task : Task) (P : Shared → Prop) : Prop :=
  task = .revalidation → ∀ s, P s → s.lock = some .revalidation → s.table.AllLive

omit [Keccak256] in
theorem mayLeave (htask : task ≠ .revalidation) : MayLeave task P := fun heq => absurd heq htask

omit [Keccak256] in
theorem MayLeave.imp (h : MayLeave task P) (himp : ∀ s, P' s → P s) : MayLeave task P' :=
  fun htask s hp => h htask s (himp s hp)

theorem inv_leave (hs : Inv bootnodes s) (hp : P s) (hleave : MayLeave task P) (now : Nat)
    (hpanics : (.revalidation, missingPeer) ∉ panics) :
    Inv bootnodes { (({ s with now := now } : Shared).leave task) with panics := panics } := by
  refine ⟨hs.peers, hs.neighbors, hs.table, hs.fresh, fun hother => ?_, hpanics⟩
  by_cases heq : s.lock = some .revalidation
  · by_cases htask : task = .revalidation
    · exact hleave htask s hp heq
    · refine absurd ?_ hother
      simp only [Shared.leave]
      rw [heq, if_neg fun h => htask (Option.some.inj h).symm]
  · exact hs.live heq

theorem changes_leave (s : Shared) (now : Nat) (panics : List (Task × String)) :
    Changes task s { (({ s with now := now } : Shared).leave task) with panics := panics } := by
  refine ⟨⟨[], rfl, nofun⟩, .same, fun holder hne => ?_, fun _ _ _ => rfl⟩
  simp only [Shared.leave]
  split_ifs with hlock
  · simp [hlock, Ne.symm hne]
  · rfl

theorem keeps_leave (hP : Steady bootnodes task P) (hleave : MayLeave task P) :
    Keeps bootnodes task P (leave task) fun _ _ => True := by
  refine .atomic hP (fun _ => .const _ _ _) fun i s a s' hs hp hact => ?_
  cases hact
  exact ⟨inv_leave hs hp hleave (s.now + i.elapsed) hs.found, changes_leave s (s.now + i.elapsed) s.panics, trivial⟩

theorem keeps_abort (hP : Steady bootnodes task P) (hleave : MayLeave task P) {message}
    (hmessage : task = .revalidation → ∀ s, P s → message ≠ missingPeer) :
    Keeps bootnodes task P (abort task message) Q := by
  refine Safe.bind (Q := fun _ _ => True) ?_ fun _ => .crash (.const _ _ _)
  refine .atomic hP (fun _ => .const _ _ _) fun i s a s' hs hp hact => ?_
  cases hact
  have hpanics : (.revalidation, missingPeer) ∉ (task, message) :: s.panics := by
    rw [List.mem_cons, not_or]
    refine ⟨fun heq => ?_, hs.found⟩
    cases heq
    exact hmessage rfl s hp rfl
  exact ⟨inv_leave hs hp hleave (s.now + i.elapsed) hpanics, changes_leave s _ _, trivial⟩

theorem keeps_checked_bind {f : α → Discovery β}
    (hP : Steady bootnodes task P) (hleave : MayLeave task P)
    (hmessage : task = .revalidation → ∀ s, P s → x ≠ .error (.panic missingPeer))
    (h : ∀ a, x = .ok a → Keeps bootnodes task P (f a) R) : Keeps bootnodes task P (checked task x >>= f) R := by
  rcases x with (e | message | _) | a
  · exact e.elim
  · exact keeps_abort hP hleave fun htask s hp heq => hmessage htask s hp (heq ▸ rfl)
  · exact .crash hP
  · exact h a rfl

theorem keeps_checked {f : α → Discovery β}
    (htask : task ≠ .revalidation) (hP : Steady bootnodes task P)
    (h : ∀ a, x = .ok a → Keeps bootnodes task P (f a) R) : Keeps bootnodes task P (checked task x >>= f) R :=
  keeps_checked_bind hP (mayLeave htask) (fun heq => absurd heq htask) h

theorem free_of_ne (hlabel : label ≠ .server ∧ label ≠ .revalidation) (other : Task) :
    (rules bootnodes).beside label other ∧ (rules bootnodes).beside other label := by
  refine ⟨.inr hlabel, ?_⟩
  by_cases heq : other = label
  · exact .inr (heq ▸ hlabel)
  · exact .inl heq

/-! ### Packets -/

/-- The packet was sent when the fact held. -/
def SentAt (K : List Event → Prop) (recipient : SocketAddr) (message : Message) (packet : ByteString)
    (log : List Event) : Prop :=
  ∃ time earlier, .sent time recipient message packet :: earlier <:+ log ∧ K earlier

theorem steady_sentAt (recipient : SocketAddr) (message : Message) (packet : ByteString) :
    Steady bootnodes task fun s => SentAt K recipient message packet s.log := by
  refine steady_log fun h hlog => ?_
  obtain ⟨time, earlier, hsuffix, hk⟩ := h
  exact ⟨time, earlier, hsuffix.trans hlog, hk⟩

/-- The log has one packet more. If it was sent with neighbors, its recipient must be entitled to them. -/
theorem Inv.log_cons (hs : Inv bootnodes s) (event : Event) (now : Nat)
    (hevent : ∀ time addr msg packet, event = .sent time addr (.neighbors msg) packet → Entitled bootnodes s.log addr) :
    Inv bootnodes { s with now := now, log := event :: s.log } := by
  refine ⟨fun peer hpeer => (hs.peers peer hpeer).mono (List.suffix_cons _ _), ?_, hs.table,
    hs.fresh, hs.live, hs.found⟩
  intro time addr msg packet earlier hsuffix
  rcases List.suffix_cons_iff.mp hsuffix with heq | hold
  · cases heq
    exact hevent time addr msg packet rfl
  · exact hs.neighbors time addr msg packet earlier hold

theorem keeps_sendTo
    (hP : Steady bootnodes task P) (hK : ∀ s, P s → K s.log)
    (hentitled : ∀ msg s, message = .neighbors msg → P s → Entitled bootnodes s.log recipient) :
    Keeps bootnodes task P (sendTo recipient message packet) fun result s => P s ∧
      ∀ n, result = some n → SentAt K recipient message packet s.log := by
  refine .atomic hP (fun result => hP.and (.all fun n => (steady_sentAt _ _ _).imp)) fun i s result s' hs hp hact => ?_
  dsimp only at hact
  cases hresult : i.bytesSent with
  | none =>
    rw [hresult] at hact
    cases hact
    have helapsed := Still.elapsed s (s.now + i.elapsed)
    exact ⟨helapsed.inv hs, helapsed.quiet.changes task, helapsed.quiet.keeps hP hs (helapsed.inv hs) hp, nofun⟩
  | some n =>
    rw [hresult] at hact
    cases hact
    have hs' := hs.log_cons (.sent (s.now + i.elapsed) recipient message packet) (s.now + i.elapsed)
      fun _ _ msg _ heq => by
        cases heq
        exact hentitled msg s rfl hp
    have hquiet : Quiet s { s with
        now := s.now + i.elapsed, log := .sent (s.now + i.elapsed) recipient message packet :: s.log } := by
      refine ⟨⟨[_], rfl, fun event hevent => ?_⟩, rfl, rfl⟩
      rw [List.mem_singleton.mp hevent]
      trivial
    exact ⟨hs', hquiet.changes task, hquiet.keeps hP hs hs' hp, fun _ _ => ⟨_, _, List.suffix_rfl, hK s hp⟩⟩

theorem keeps_sendTo_other
    (hP : Steady bootnodes task P) (hmessage : ∀ msg, message ≠ .neighbors msg) :
    Keeps bootnodes task P (sendTo recipient message packet) fun _ => P :=
  (keeps_sendTo (K := fun _ => True) hP (fun _ _ => trivial) fun msg _ heq => absurd heq (hmessage msg)).mono
    fun _ _ _ => And.left

end

end EthereumRust.Net
