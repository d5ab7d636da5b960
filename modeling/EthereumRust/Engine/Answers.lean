import EthereumRust.Engine.Canonical

/-! # What the answers of the engine API say

Without imports the stored blocks form a single chain. -/

namespace EthereumRust.Engine
open Rlp Mpt Core Storage Evm Blockchain

/-- The block is stored and canonical, and so is each of its ancestors down to the genesis block. -/
inductive OnCanonicalChain (s : Store) : BlockHash → Prop
  | genesis {hash : BlockHash} {block : Block} (stored : s.getBlockByHash hash = some block)
    (first : block.header.number = 0) (canonical : s.getCanonicalBlockHash 0 = some hash) :
    OnCanonicalChain s hash
  | child {hash : BlockHash} {block : Block} (stored : s.getBlockByHash hash = some block)
    (canonical : s.getCanonicalBlockHash block.header.number = some hash)
    (parent : OnCanonicalChain s block.header.parentHash) : OnCanonicalChain s hash

def Action.fromEngine : Action → Bool
  | importBlock _ => false
  | newPayload _ => true
  | forkchoiceUpdated _ => true

section

variable [Keccak256] {s : Store}

theorem Sound.onCanonicalChain (hs : Sound S g s.chain)
    (hsingle : Ledger.Single Store.scheme s.chain.ledger) :
    ∀ {hash : BlockHash} {header : BlockHeader}, s.getBlockHeaderByHash hash = some header →
      header.number.toNat = n → OnCanonicalChain s hash := by
  induction n with
  | zero =>
    intro hash header hheader hn
    obtain ⟨body, hblock⟩ := hs.getBlockByHash hheader
    have hzero : header.number = 0 := UInt64.toNat.inj hn
    have hcanon := (hsingle hash header hheader).1
    rw [show Store.scheme.number header = header.number.toNat from rfl,
      hzero] at hcanon
    exact .genesis hblock hzero hcanon
  | succ n ih =>
    intro hash header hheader hn
    obtain ⟨body, hblock⟩ := hs.getBlockByHash hheader
    have hcanon := (hsingle hash header hheader).1
    rw [show Store.scheme.number header = header.number.toNat from rfl, Store.Chain.canon_toNat] at hcanon
    have hne : Store.scheme.number header ≠ 0 := by
      change header.number.toNat ≠ 0
      omega
    obtain ⟨parent, hparent, hnumber⟩ := hs.ledger.parents hash header hheader hne
    have hparentNumber : parent.number.toNat = n := by
      change header.number.toNat = parent.number.toNat + 1 at hnumber
      omega
    exact .child hblock hcanon (ih hparent hparentNumber)

variable [Secp256k1] [EthBloom] [Revm]

theorem Action.Adds.next {r : NewPayloadV3Request} (h : r.Adds s s₁ block) :
    Store.scheme.number block.header = s.chain.ledger.latest + 1 := by
  obtain ⟨latest, hlatest, hnext⟩ := h.next
  rw [Store.ledger_latest hlatest]
  exact hnext

theorem Sound.single_run (hs : Sound S g s.chain) (hS : Set.InjOn BlockHeader.computeBlockHash S)
    {a : Action} (ha : ∀ header ∈ a.header?, header ∈ S) (hengine : a.fromEngine)
    (hsingle : Ledger.Single Store.scheme s.chain.ledger) :
    Ledger.Single Store.scheme (a.run s).chain.ledger := by
  cases a with
  | importBlock block => cases hengine
  | newPayload r =>
    rcases r.handle_cases s with ⟨s₁, block, hadds⟩ | hstays
    · have hadd := Action.adds_newPayload hadds
      rw [hadd.chain, Store.Chain.ledger_extend]
      exact hsingle.extend hs.ledger hS (ha _ hadd.header) (Action.Adds.next hadds)
    · rw [Action.run, Store.chain_of_chainPart hstays.chainPart]
      exact hsingle
  | forkchoiceUpdated r =>
    -- no stored block is left to take an entry over
    rw [Action.run, r.handle_of_not_rewrites fun headBlock hr => hsingle.not_takesOver hr.takesOver]
    exact hsingle

omit [Secp256k1] [EthBloom] [Revm] in
theorem single_of_addInitialState
    (h₀ : Store.addInitialState genesis Store.new = (.ok (), s₀)) :
    Ledger.Single Store.scheme s₀.chain.ledger := by
  obtain ⟨header, hheader, hchain⟩ := addInitialState_chain h₀
  have hledger : s₀.chain.ledger = Store.new.chain.ledger.extend Store.scheme header := by
    rw [hchain]
    exact Store.Chain.ledger_extend Store.new.chain ⟨header, Genesis.getBlockBody⟩
  rw [hledger]
  exact .genesis fun _ => rfl

/-- A request for which `VALID` was answered is about a block on the canonical chain. -/
structure Truthful (s : Store) (a : Action) : Prop where
  newPayload : ∀ r status, a = .newPayload r → (r.handle s).1 = .ok status → status.status = .valid →
    OnCanonicalChain (a.run s) r.payload.blockHash
  forkchoiceUpdated : ∀ r answer, a = .forkchoiceUpdated r → (r.handle s).1 = .ok answer →
    answer.status.status = .valid → OnCanonicalChain (a.run s) r.forkChoiceState.headBlockHash
  latest : ∀ latest ∈ s.getLatestBlockNumber, ∃ latest' ∈ (a.run s).getLatestBlockNumber, latest ≤ latest'

theorem Sound.truthful (hs : Sound S g s.chain) (hS : Set.InjOn BlockHeader.computeBlockHash S)
    {a : Action} (ha : ∀ header ∈ a.header?, header ∈ S) (hengine : a.fromEngine)
    (hsingle : Ledger.Single Store.scheme s.chain.ledger) : Truthful s a := by
  have hs' := hs.run hS ha
  have hsingle' := hs.single_run hS ha hengine hsingle
  refine ⟨?_, ?_, ?_⟩
  · rintro r status rfl hstatus hvalid
    rcases r.handle_cases s with ⟨s₁, block, hadds⟩ | hstays
    · have hstored : ((Action.newPayload r).run s).getBlockHeaderByHash r.payload.blockHash =
          some block.header := by
        change ((Action.newPayload r).run s).chain.headers.lookup _ = _
        rw [(Action.adds_newPayload hadds).chain, hadds.hash]
        exact AList.lookup_insert _
      exact hs'.onCanonicalChain hsingle' hstored rfl
    · obtain ⟨block, -, hnumber⟩ := hstays.known status hstatus hvalid
      rw [hs.getBlockNumber] at hnumber
      obtain ⟨header, hheader, -⟩ := Option.map_eq_some_iff.mp hnumber
      have hstored : ((Action.newPayload r).run s).getBlockHeaderByHash r.payload.blockHash = some header := by
        change ((Action.newPayload r).run s).chain.headers.lookup _ = _
        rw [Action.run, Store.chain_of_chainPart hstays.chainPart]
        exact hheader
      exact hs'.onCanonicalChain hsingle' hstored rfl
  · rintro r answer rfl hanswer hvalid
    obtain ⟨headBlock, hheader⟩ := r.stored_of_valid hanswer hvalid
    have hstored : ((Action.forkchoiceUpdated r).run s).getBlockHeaderByHash
        r.forkChoiceState.headBlockHash = some headBlock := by
      change ((Action.forkchoiceUpdated r).run s).chain.headers.lookup _ = _
      rw [Action.run, r.handle_of_not_rewrites fun headBlock hr => hsingle.not_takesOver hr.takesOver]
      exact hheader
    exact hs'.onCanonicalChain hsingle' hstored rfl
  · intro latest hlatest
    cases a with
    | importBlock block => cases hengine
    | newPayload r =>
      rcases r.handle_cases s with ⟨s₁, block, hadds⟩ | hstays
      · obtain ⟨latest', hlatest', hnext⟩ := hadds.next
        obtain rfl : latest' = latest := Option.some.inj (hlatest'.symm.trans hlatest)
        refine ⟨block.header.number, ?_, UInt64.le_iff_toNat_le.mpr (by omega)⟩
        exact congrArg Store.Chain.latestBlockNumber (Action.adds_newPayload hadds).chain
      · have hchain := Store.chain_of_chainPart hstays.chainPart
        exact ⟨latest, (congrArg Store.Chain.latestBlockNumber hchain).trans hlatest, UInt64.le_refl latest⟩
    | forkchoiceUpdated r =>
      have hchain := r.handle_of_not_rewrites fun headBlock hr => hsingle.not_takesOver hr.takesOver
      exact ⟨latest, (congrArg Store.Chain.latestBlockNumber hchain).trans hlatest, UInt64.le_refl latest⟩

omit [Secp256k1] [EthBloom] [Revm] in
theorem Sound.latest_canonical (hs : Sound S g s.chain) : ∃ latest hash block,
    s.getLatestBlockNumber = some latest ∧ s.getCanonicalBlockHash latest = some hash ∧
      s.getBlockByHash hash = some block ∧ block.header.number = latest := by
  obtain ⟨latest, hlatest⟩ := hs.latest
  obtain ⟨hash, hhash⟩ := hs.ledger.head
  have hl := Store.ledger_latest hlatest
  obtain ⟨header, hheader, hnumber⟩ := hs.ledger.named _ _ hhash
  obtain ⟨body, hblock⟩ := hs.getBlockByHash hheader
  rw [hl, Store.Chain.canon_toNat] at hhash
  exact ⟨latest, hash, ⟨header, body⟩, hlatest, hhash, hblock, UInt64.toNat.inj (hnumber.trans hl)⟩

/-- **Answers are truthful** over every run of the engine API, and the latest number never falls. -/
theorem engine_answers_truthful (genesis : Genesis) (s₀ : Store) (actions : List Action)
    (h₀ : Store.addInitialState genesis Store.new = (.ok (), s₀))
    (hengine : ∀ a ∈ actions, a.fromEngine)
    (hhash : Set.InjOn BlockHeader.computeBlockHash (runHeaders genesis actions)) :
    (∀ p ∈ steps s₀ actions, Truthful p.1 p.2) ∧
    ∀ s ∈ states s₀ actions, ∃ latest hash block, s.getLatestBlockNumber = some latest ∧
      s.getCanonicalBlockHash latest = some hash ∧ s.getBlockByHash hash = some block ∧
      block.header.number = latest := by
  obtain ⟨g, hs₀⟩ := sound_of_addInitialState actions h₀
  have hmem : ∀ a ∈ actions, ∀ header ∈ a.header?, header ∈ runHeaders genesis actions :=
    header_mem_runHeaders genesis
  have hall : ∀ s ∈ states s₀ actions, Sound (runHeaders genesis actions) g s.chain ∧
      Ledger.Single Store.scheme s.chain.ledger :=
    states_invariant (P := fun s => Sound _ g s.chain ∧ Ledger.Single Store.scheme s.chain.ledger)
      ⟨hs₀, single_of_addInitialState h₀⟩ fun s a ha h =>
        ⟨h.1.run hhash (hmem a ha), h.1.single_run hhash (hmem a ha) (hengine a ha) h.2⟩
  constructor
  · intro p hp
    obtain ⟨hstate, haction⟩ := mem_steps hp
    obtain ⟨hs, hsingle⟩ := hall _ hstate
    exact hs.truthful hhash (hmem _ haction) (hengine _ haction) hsingle
  · exact fun s hstate => (hall s hstate).1.latest_canonical

end

attribute [local instance] forkKeccak noRecovery noBloom idleRevm

def payloadA1 : NewPayloadV3Request :=
  ⟨ExecutionPayloadV3.fromBlock blockA1, [], H256.zero⟩

theorem engine_answers_truthful_sample :
    OnCanonicalChain (payloadA1.handle genesisStore).2 payloadA1.payload.blockHash := by
  have htruthful := engine_answers_truthful sampleGenesis genesisStore [.newPayload payloadA1] genesisStore_ok
    (by decide) (injOn_runHeaders forkHeaders_injOn sampleGenesis_header (by decide +kernel))
  exact (htruthful.1 _ List.mem_cons_self).newPayload payloadA1
    (PayloadStatus.validWithHash payloadA1.payload.blockHash) rfl (by decide +kernel) rfl

end EthereumRust.Engine
