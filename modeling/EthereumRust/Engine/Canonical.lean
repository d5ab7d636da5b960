import EthereumRust.Engine.Run

/-! # When the canonical chain stays linked

An import may skip over entries that a sibling has cut off, and a fork choice update may
rewrite an entry below others. No other step breaks a link. -/

namespace EthereumRust.Engine
open Rlp Mpt Core Storage Evm Blockchain List UInt64

/-! ## Links of a store -/

/-- The canonical entry of a number names a stored block of this number, whose parent is the
canonical block below. -/
def LinkedAt (s : Store) (n : BlockNumber) : Prop :=
  ∃ hash block, s.getCanonicalBlockHash n = some hash ∧ s.getBlockByHash hash = some block ∧
    block.header.number = n ∧ s.getCanonicalBlockHash (n - 1) = some block.header.parentHash

def CanonicalLinked (s : Store) : Prop :=
  ∃ latest, s.getLatestBlockNumber = some latest ∧ ∀ n, 0 < n → n ≤ latest → LinkedAt s n

section

variable [Keccak256] {s : Store}

omit [Keccak256] in
theorem canon_sub_one (hn : 0 < n) :
    s.chain.ledger.canon (n.toNat - 1) = s.getCanonicalBlockHash (n - 1) := by
  have hone : 1 ≤ n := le_iff_toNat_le.mpr (Nat.succ_le_of_lt (lt_iff_toNat_lt.mp hn))
  have hsub : Rust.saturatingSub n 1 = n - 1 := by rw [Rust.saturatingSub, if_pos hone]
  rw [Store.Chain.canon_pred, hsub]
  rfl

theorem Sound.linkedAt_iff (hs : Sound S g s.chain) (hn : 0 < n) :
    LinkedAt s n ↔ Ledger.LinkedAt Store.scheme s.chain.ledger n.toNat := by
  unfold LinkedAt Ledger.LinkedAt
  rw [Store.Chain.canon_toNat, canon_sub_one hn]
  constructor
  · rintro ⟨hash, block, hhash, hblock, hnumber, hparent⟩
    exact ⟨hash, block.header, hhash, header_of_getBlockByHash hblock, congrArg UInt64.toNat hnumber, hparent⟩
  · rintro ⟨hash, header, hhash, hheader, hnumber, hparent⟩
    obtain ⟨body, hblock⟩ := hs.getBlockByHash hheader
    exact ⟨hash, ⟨header, body⟩, hhash, hblock, UInt64.toNat.inj hnumber, hparent⟩

theorem Sound.canonicalLinked_iff (hs : Sound S g s.chain) :
    CanonicalLinked s ↔ Ledger.LinkedTo Store.scheme s.chain.ledger s.chain.ledger.latest := by
  obtain ⟨latest, hlatest⟩ := hs.latest
  have hl := Store.ledger_latest hlatest
  rw [hl]
  constructor
  · rintro ⟨latest', hlatest', h⟩ n hn hle
    obtain rfl : latest' = latest := Option.some.inj (hlatest'.symm.trans hlatest)
    have hword : n < Rust.wordSize := hle.trans_lt (Rust.toNat_lt_wordSize latest')
    have hnat : (UInt64.ofNat n).toNat = n := toNat_ofNat_of_lt hword
    have hpos : 0 < UInt64.ofNat n := lt_iff_toNat_lt.mpr (by rw [hnat]; exact hn)
    have := (hs.linkedAt_iff hpos).mp (h _ hpos (le_iff_toNat_le.mpr (by rw [hnat]; exact hle)))
    rwa [hnat] at this
  · intro h
    refine ⟨latest, hlatest, fun n hn hle => (hs.linkedAt_iff hn).mpr ?_⟩
    exact h n.toNat (lt_iff_toNat_lt.mp hn) (le_iff_toNat_le.mp hle)

end

/-! ## When the links are kept -/

section

variable [Keccak256] [Secp256k1] [EthBloom] [Revm] {a : Action}

/-- The condition under which an action leaves linked entries linked. An import that is accepted
may not skip entries that are not linked, and a fork choice update may not rewrite an entry below
the latest number. -/
def KeepsLinks (s : Store) : Action → Prop
  | .importBlock block => (addBlock block s).1 = .ok () →
    ∀ latest ∈ s.getLatestBlockNumber, ∀ n, latest < n → n < block.header.number → LinkedAt s n
  | .newPayload _ => True
  | .forkchoiceUpdated r => ∀ headBlock, r.Rewrites s headBlock →
    ∀ latest ∈ s.getLatestBlockNumber, latest ≤ headBlock.number

theorem Sound.linked_extend_iff (hs : Sound S g s.chain) (hS : Set.InjOn BlockHeader.computeBlockHash S)
    (hadds : a.Adds s block) (ha : ∀ header ∈ a.header?, header ∈ S)
    (hl : CanonicalLinked s) :
    CanonicalLinked (a.run s) ↔
      ∀ latest ∈ s.getLatestBlockNumber, ∀ n, latest < n → n < block.header.number → LinkedAt s n := by
  obtain ⟨s₁, hadd⟩ := hadds.added
  have hmem := ha _ hadds.header
  obtain ⟨latest, hlatest⟩ := hs.latest
  have hlnat := Store.ledger_latest hlatest
  have hiff := Ledger.linkedTo_extend_iff hs.ledger hS hmem (Added.follows hs (addBlock_ok hadd))
    (hs.canonicalLinked_iff.mp hl)
  rw [(hs.run hS ha).canonicalLinked_iff, hadds.chain, Store.Chain.ledger_extend, hiff, hlnat]
  constructor
  · intro h latest' hlatest' n hlt hnb
    obtain rfl : latest = latest' := Option.some.inj (hlatest.symm.trans hlatest')
    refine (hs.linkedAt_iff (lt_iff_toNat_lt.mpr ?_)).mpr
      (h n.toNat hlt (lt_iff_toNat_lt.mp hnb))
    exact (Nat.zero_le _).trans_lt hlt
  · intro h n hlt hnb
    have hword : n < Rust.wordSize := hnb.trans (Rust.toNat_lt_wordSize _)
    have hnat : (UInt64.ofNat n).toNat = n := toNat_ofNat_of_lt hword
    have hlinked := h latest hlatest (UInt64.ofNat n) (lt_iff_toNat_lt.mpr (by rw [hnat]; exact hlt))
      (lt_iff_toNat_lt.mpr (by rw [hnat]; exact hnb))
    have hpos : 0 < UInt64.ofNat n := lt_iff_toNat_lt.mpr (by
      rw [hnat]; exact (Nat.zero_le _).trans_lt hlt)
    have := (hs.linkedAt_iff hpos).mp hlinked
    rwa [hnat] at this

theorem Sound.linked_repoint_iff (hs : Sound S g s.chain) (hS : Set.InjOn BlockHeader.computeBlockHash S)
    {r : ForkChoiceUpdatedV3} (hr : r.Rewrites s headBlock)
    (hl : CanonicalLinked s) :
    CanonicalLinked (r.handle s).2 ↔ ∀ latest ∈ s.getLatestBlockNumber, latest ≤ headBlock.number := by
  obtain ⟨latest, hlatest⟩ := hs.latest
  have hlnat := Store.ledger_latest hlatest
  have hchain := r.handle_of_rewrites hr
  have hs' : Sound S g (r.handle s).2.chain :=
    hs.run hS (a := .forkchoiceUpdated r) fun header h => nomatch h
  have hiff := Ledger.linkedTo_repoint_iff hr.takesOver (hs.canonicalLinked_iff.mp hl)
  rw [hs'.canonicalLinked_iff, hchain, Store.Chain.ledger_repoint, hiff, hlnat]
  constructor
  · intro h latest' hlatest'
    obtain rfl : latest = latest' := Option.some.inj (hlatest.symm.trans hlatest')
    exact le_iff_toNat_le.mpr h
  · intro h
    exact le_iff_toNat_le.mp (h latest hlatest)

omit [Secp256k1] [EthBloom] [Revm] in
theorem Sound.canonicalLinked_congr (hs : Sound S g s.chain) {s' : Store} (h : s'.chain = s.chain) :
    CanonicalLinked s' ↔ CanonicalLinked s := by
  rw [hs.canonicalLinked_iff, (h ▸ hs : Sound S g s'.chain).canonicalLinked_iff, h]

/-- Linked entries stay linked over an action exactly under its condition. -/
theorem Sound.linked_run_iff (hs : Sound S g s.chain) (hS : Set.InjOn BlockHeader.computeBlockHash S)
    (ha : ∀ header ∈ a.header?, header ∈ S) (hl : CanonicalLinked s) :
    CanonicalLinked (a.run s) ↔ KeepsLinks s a := by
  cases a with
  | importBlock block =>
    rcases importBlock_cases block s with ⟨s₁, hadd, hrun⟩ | ⟨hfail, hkeep⟩
    · rw [hs.linked_extend_iff hS (Action.adds_importBlock hadd hrun) ha hl]
      exact ⟨fun h _ => h, fun h => h (by rw [hadd])⟩
    · rw [Action.run, hs.canonicalLinked_congr (Store.chain_of_chainPart hkeep)]
      exact ⟨fun _ hok => absurd hok hfail, fun _ => hl⟩
  | newPayload r =>
    refine ⟨fun _ => trivial, fun _ => ?_⟩
    rcases r.handle_cases s with ⟨s₁, block, hadds⟩ | hstays
    · obtain ⟨latest, hlatest, hnext⟩ := hadds.next
      refine (hs.linked_extend_iff hS (Action.adds_newPayload hadds) ha hl).mpr ?_
      -- there is no number between the latest one and the next
      intro latest' hlatest' n hlt hnb
      obtain rfl : latest = latest' := Option.some.inj (hlatest.symm.trans hlatest')
      have hlt := lt_iff_toNat_lt.mp hlt
      have hnb := lt_iff_toNat_lt.mp hnb
      omega
    · exact (hs.canonicalLinked_congr (Store.chain_of_chainPart hstays.chainPart)).mpr hl
  | forkchoiceUpdated r =>
    by_cases h : ∃ headBlock, r.Rewrites s headBlock
    · obtain ⟨headBlock, hr⟩ := h
      rw [Action.run, hs.linked_repoint_iff hS hr hl]
      constructor
      · intro hle headBlock' hr'
        obtain ⟨_, hp, -⟩ := hr
        obtain ⟨_, hp', -⟩ := hr'
        obtain rfl : headBlock = headBlock' := Option.some.inj (hp.stored.symm.trans hp'.stored)
        exact hle
      · exact fun hle => hle headBlock hr
    · push Not at h
      rw [Action.run, hs.canonicalLinked_congr (r.handle_of_not_rewrites h)]
      exact ⟨fun _ headBlock hr => absurd hr (h headBlock), fun _ => hl⟩

/-- Over a run, the states are linked exactly if every step meets its condition. -/
theorem Sound.linked_states_iff (hs : Sound S g s.chain)
    (hS : Set.InjOn BlockHeader.computeBlockHash S)
    (ha : ∀ a ∈ actions, ∀ header ∈ a.header?, header ∈ S) (hl : CanonicalLinked s) :
    (∀ s' ∈ states s actions, CanonicalLinked s') ↔ ∀ p ∈ steps s actions, KeepsLinks p.1 p.2 := by
  induction actions generalizing s with
  | nil => simp [states, steps, hl]
  | cons a actions ih =>
    have ha₁ := ha a mem_cons_self
    have hrest := fun a' h => ha a' (mem_cons_of_mem a h)
    have hstep := hs.linked_run_iff hS ha₁ hl
    simp only [states, steps, forall_mem_cons, hl, true_and]
    by_cases hkeeps : KeepsLinks s a
    · rw [ih (hs.run hS ha₁) hrest (hstep.mpr hkeeps)]
      exact ⟨fun h => ⟨hkeeps, h⟩, And.right⟩
    · -- the state after this step is not linked
      refine ⟨fun h => absurd (hstep.mp (h _ ?_)) hkeeps, fun h => absurd h.1 hkeeps⟩
      cases actions <;> exact mem_cons_self

end

/-! ## Runs from the genesis block -/

section

variable [Keccak256] [Secp256k1] [EthBloom] [Revm]

omit [Secp256k1] [EthBloom] [Revm] in
theorem sound_of_addInitialState (actions : List Action)
    (h₀ : Store.addInitialState genesis Store.new = (.ok (), s₀)) :
    ∃ g, Sound (runHeaders genesis actions) g s₀.chain := by
  obtain ⟨header, hheader, hchain⟩ := addInitialState_chain h₀
  exact ⟨_, hchain ▸ sound_genesisChain (number_getBlockHeader hheader) (Or.inl hheader)⟩

omit [Secp256k1] [EthBloom] [Revm] in
theorem linked_of_addInitialState
    (h₀ : Store.addInitialState genesis Store.new = (.ok (), s₀)) : CanonicalLinked s₀ := by
  obtain ⟨header, hheader, hchain⟩ := addInitialState_chain h₀
  have hlatest : s₀.getLatestBlockNumber = some header.number :=
    congrArg Store.Chain.latestBlockNumber hchain
  refine ⟨_, hlatest, fun n hn hle => ?_⟩
  rw [number_getBlockHeader hheader] at hle
  exact absurd hn (UInt64.not_lt.mpr hle)

/-- **The canonical chain is hash-linked** in every state of a run exactly if every step of the run
meets its condition. -/
theorem canonical_chain_linked_iff (genesis : Genesis) (s₀ : Store) (actions : List Action)
    (h₀ : Store.addInitialState genesis Store.new = (.ok (), s₀))
    (hhash : Set.InjOn BlockHeader.computeBlockHash (runHeaders genesis actions)) :
    (∀ s ∈ states s₀ actions, CanonicalLinked s) ↔ ∀ p ∈ steps s₀ actions, KeepsLinks p.1 p.2 := by
  obtain ⟨g, hs⟩ := sound_of_addInitialState actions h₀
  exact hs.linked_states_iff hhash (header_mem_runHeaders genesis) (linked_of_addInitialState h₀)

omit [Secp256k1] [EthBloom] [Revm] in
theorem injOn_runHeaders {actions : List Action} {header : BlockHeader}
    {headers : List BlockHeader}
    (hinj : Set.InjOn BlockHeader.computeBlockHash {header | header ∈ headers})
    (hheader : (genesis.getBlockHeader : Outcome StoreError BlockHeader) = .ok header)
    (hlist : ∀ a ∈ header :: actions.filterMap Action.header?, a ∈ headers) :
    Set.InjOn BlockHeader.computeBlockHash (runHeaders genesis actions) := by
  refine hinj.mono ?_
  rintro a (ha | ⟨action, haction, ha⟩)
  · obtain rfl : header = a := Except.ok.inj (hheader.symm.trans ha)
    exact hlist _ mem_cons_self
  · exact hlist _ (mem_cons_of_mem _ (mem_filterMap.mpr ⟨action, haction, ha⟩))

end

/-! ### A fork that is not linked -/

attribute [local instance] forkKeccak noRecovery noBloom idleRevm

def forkHeaders : List BlockHeader :=
  [(sampleBlock 0 0 0).header, blockA1.header, blockA2.header, blockB1.header, blockC3.header]

theorem forkHeaders_injOn :
    Set.InjOn BlockHeader.computeBlockHash {header | header ∈ forkHeaders} := by
  have hnodup : (forkHeaders.map BlockHeader.computeBlockHash).Nodup := by decide +kernel
  exact fun a ha b hb => inj_on_of_nodup_map hnodup ha hb

theorem genesisStore_ok :
    Store.addInitialState sampleGenesis Store.new = (.ok (), genesisStore) :=
  Exec.eq_of_fst (by decide +kernel)

theorem sampleGenesis_header :
    (sampleGenesis.getBlockHeader : Outcome StoreError BlockHeader) = .ok (sampleBlock 0 0 0).header := by
  decide +kernel

def forkedImports : List Action :=
  [.importBlock blockA1, .importBlock blockA2, .importBlock blockB1, .importBlock blockC3]

theorem canonical_chain_unlinked :
    Store.addInitialState sampleGenesis Store.new = (.ok (), genesisStore) ∧
      Set.InjOn BlockHeader.computeBlockHash (runHeaders sampleGenesis forkedImports) ∧
      ∃ s ∈ states genesisStore forkedImports, ¬ CanonicalLinked s := by
  refine ⟨genesisStore_ok, injOn_runHeaders forkHeaders_injOn sampleGenesis_header (by decide +kernel),
    importedStore [blockA1, blockA2, blockB1, blockC3], ?_, ?_⟩
  · simp [states, forkedImports, Action.run, importedStore]
  · rintro ⟨latest, hlatest, h⟩
    have hstate : (importedStore [blockA1, blockA2, blockB1, blockC3]).getLatestBlockNumber = some 3 ∧
        (((importedStore [blockA1, blockA2, blockB1, blockC3]).getCanonicalBlockHash 2).bind
          (importedStore [blockA1, blockA2, blockB1, blockC3]).getBlockByHash).map
            (fun block => block.header.parentHash) ≠
          (importedStore [blockA1, blockA2, blockB1, blockC3]).getCanonicalBlockHash 1 := by
      decide +kernel
    obtain rfl : 3 = latest := Option.some.inj (hstate.1.symm.trans hlatest)
    obtain ⟨hash, block, hhash, hblock, -, hparent⟩ := h 2 (by decide) (by decide)
    refine hstate.2 ?_
    rw [hhash, Option.bind_some, hblock]
    exact hparent.symm

theorem canonical_chain_linked_sample :
    genesisStore.getLatestBlockNumber = some 0 ∧
      ∀ s ∈ states genesisStore [.importBlock blockA1], CanonicalLinked s := by
  have hzero : genesisStore.getLatestBlockNumber = some 0 := by decide +kernel
  refine ⟨hzero, (canonical_chain_linked_iff sampleGenesis genesisStore [.importBlock blockA1]
    genesisStore_ok
    (injOn_runHeaders forkHeaders_injOn sampleGenesis_header (by decide +kernel))).mpr ?_⟩
  intro p hp
  obtain rfl : p = (genesisStore, .importBlock blockA1) := by simpa [steps] using hp
  intro _ latest hlatest n hlt hn
  obtain rfl : 0 = latest := Option.some.inj (hzero.symm.trans hlatest)
  -- no number lies between the genesis block's and its child's
  have hlt := lt_iff_toNat_lt.mp hlt
  have hn := lt_iff_toNat_lt.mp hn
  rw [show blockA1.header.number.toNat = 1 from rfl] at hn
  rw [UInt64.toNat_zero] at hlt
  omega

end EthereumRust.Engine
