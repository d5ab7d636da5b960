import EthereumRust.Engine.Effects

/-! # Runs of the node

Imports, new payloads and fork choice updates in any order, with any arguments. `Sound` is
what every run keeps, whether the canonical entries stay linked or not. -/

namespace EthereumRust.Engine
open Rlp Mpt Core Storage Evm Blockchain List

/-! ## The invariant -/

section

variable [Keccak256] {hash : BlockHash} {r : ForkChoiceUpdatedV3}

omit [Keccak256] in
/-- The tables of the numbers and of the bodies have an entry for each header. -/
structure Tables (c : Store.Chain) : Prop where
  numbers : ∀ hash, c.blockNumbers.lookup hash = (c.headers.lookup hash).map BlockHeader.number
  bodies : ∀ hash header, c.headers.lookup hash = some header → ∃ body, c.bodies.lookup hash = some body

theorem Tables.withBlock (hc : Tables c) (block : Block) : Tables (c.withBlock block) := by
  constructor
  · intro hash
    change (c.blockNumbers.insert _ _).lookup hash = ((c.headers.insert _ _).lookup hash).map _
    by_cases hh : hash = block.header.computeBlockHash
    · subst hh
      rw [AList.lookup_insert, AList.lookup_insert]
      rfl
    · rw [AList.lookup_insert_ne hh, AList.lookup_insert_ne hh]
      exact hc.numbers hash
  · intro hash header hheader
    change (c.headers.insert _ _).lookup hash = some header at hheader
    change ∃ body, (c.bodies.insert _ _).lookup hash = some body
    by_cases hh : hash = block.header.computeBlockHash
    · subst hh
      exact ⟨_, AList.lookup_insert _⟩
    · rw [AList.lookup_insert_ne hh] at hheader ⊢
      exact hc.bodies hash header hheader

/-- What holds of a chain that grew from the genesis block `g` by blocks with headers of `S`. -/
structure Sound (S : Set BlockHeader) (g : BlockHash) (c : Store.Chain) : Prop extends Tables c where
  ledger : Ledger.WellFormed Store.scheme S g c.ledger
  latest : ∃ number, c.latestBlockNumber = some number
  config : ∃ config, c.chainConfig = some config

variable {s : Store}

theorem Sound.getBlockNumber (hs : Sound S g s.chain) (hash : BlockHash) :
    s.getBlockNumber hash = (s.getBlockHeaderByHash hash).map BlockHeader.number := hs.numbers hash

theorem Sound.getBlockByHash (hs : Sound S g s.chain)
    (h : s.getBlockHeaderByHash hash = some header) :
    ∃ body, s.getBlockByHash hash = some ⟨header, body⟩ := by
  obtain ⟨body, hbody⟩ := hs.bodies hash header h
  exact ⟨body, by rw [Store.getBlockByHash, h, show s.getBlockBodyByHash hash = some body from hbody]; rfl⟩

omit [Keccak256] in
theorem header_of_getBlockByHash (h : s.getBlockByHash hash = some block) :
    s.getBlockHeaderByHash hash = some block.header := by
  obtain ⟨header, hheader, h⟩ := Option.bind_eq_some_iff.mp h
  obtain ⟨body, -, h⟩ := Option.bind_eq_some_iff.mp h
  obtain rfl : (⟨header, body⟩ : Block) = block := Option.some.inj h
  exact hheader

theorem Sound.header_of_canonical (hs : Sound S g s.chain)
    (h : s.getBlockHeader n = some header) :
    s.getCanonicalBlockHash n = some header.computeBlockHash ∧
      s.getBlockHeaderByHash header.computeBlockHash = some header := by
  obtain ⟨hash, hhash, hheader⟩ := Option.bind_eq_some_iff.mp h
  obtain rfl : header.computeBlockHash = hash := hs.ledger.keyed hash header hheader
  exact ⟨hhash, hheader⟩

/-! ### Blocks that are added -/

section

variable [Secp256k1] [EthBloom] [Revm]

theorem Added.follows (hs : Sound S g s.chain) (h : Added s s₁ block) :
    Ledger.Follows Store.scheme s.chain.ledger block.header := by
  obtain ⟨_, parent, _, _, _, hpass, -⟩ := h.passes
  obtain ⟨n, -, hparent⟩ := findParentHeader_ok hpass.found
  have hf := validateBlock_ok hpass.valid
  obtain ⟨-, hstored⟩ := hs.header_of_canonical hparent
  rw [← hf.parentHash] at hstored
  refine ⟨parent, hstored, hf.number, ?_⟩
  have hcanon := hpass.parentCanonical
  unfold validateParentCanonical at hcanon
  split at hcanon
  · rename_i hash hlookup
    split at hcanon
    · rename_i heq
      have hpred := s.chain.canon_pred block.header.number
      rw [hf.number, Nat.add_sub_cancel] at hpred
      rw [show Store.scheme.number parent = parent.number.toNat from rfl, hpred]
      exact hlookup.trans (congrArg some heq)
    · cases hcanon
  · cases hcanon

theorem Sound.extend (hs : Sound S g s.chain) (hS : Set.InjOn BlockHeader.computeBlockHash S)
    (hb : block.header ∈ S) (h : Added s s₁ block) :
    Sound S g ((s.chain.withBlock block).setCanonicalBlock block.header.number
      block.header.computeBlockHash) := by
  have htables := hs.toTables.withBlock block
  refine ⟨⟨htables.numbers, htables.bodies⟩, ?_, ⟨_, rfl⟩, hs.config⟩
  rw [Store.Chain.ledger_extend]
  exact hs.ledger.extend hS hb (Added.follows hs h)

end

/-! ### Heads that are rewritten -/

theorem ForkChoiceUpdatedV3.Rewrites.takesOver
    (h : r.Rewrites s headBlock) :
    Ledger.TakesOver Store.scheme s.chain.ledger r.forkChoiceState.headBlockHash headBlock := by
  obtain ⟨current, hp, hchange⟩ := h
  unfold ForkChoiceUpdatedV3.headChange at hchange
  simp only at hchange
  split at hchange
  · rename_i hother
    obtain ⟨hash, hhash, hne⟩ : ∃ hash, s.getCanonicalBlockHash headBlock.number = some hash ∧
        hash ≠ r.forkChoiceState.headBlockHash := by
      simpa [Option.any_eq_true] using hother
    split at hchange
    · rename_i hbelow
      refine ⟨hp.stored, ⟨hash, ?_, hne⟩, ?_⟩
      · exact (s.chain.canon_toNat headBlock.number).trans hhash
      · exact (s.chain.canon_pred headBlock.number).trans hbelow
    · cases hchange
  · split at hchange <;> cases hchange

theorem Sound.repoint (hs : Sound S g s.chain)
    (h : r.Rewrites s headBlock) :
    Sound S g (s.chain.setCanonicalBlock headBlock.number r.forkChoiceState.headBlockHash) := by
  refine ⟨⟨hs.numbers, hs.bodies⟩, ?_, hs.latest, hs.config⟩
  rw [Store.Chain.ledger_repoint]
  exact hs.ledger.repoint h.takesOver

end

/-! ## Actions -/

inductive Action where
  | importBlock (block : Block)
  | newPayload (request : NewPayloadV3Request)
  | forkchoiceUpdated (request : ForkChoiceUpdatedV3)

namespace Action

variable [Keccak256]

def header? : Action → Option BlockHeader
  | importBlock block => some block.header
  | newPayload request =>
    (request.payload.intoBlock request.parentBeaconBlockRoot).toOption.map Block.header
  | forkchoiceUpdated _ => none

variable [Secp256k1] [EthBloom] [Revm]

def run (s : Store) : Action → Store
  | importBlock block => (Blockchain.importBlock block s).2
  | newPayload request => (request.handle s).2
  | forkchoiceUpdated request => (request.handle s).2

structure Adds (a : Action) (s : Store) (block : Block) : Prop where
  header : a.header? = some block.header
  added : ∃ s₁, addBlock block s = (.ok (), s₁)
  chain : (a.run s).chain = (s.chain.withBlock block).setCanonicalBlock block.header.number
    block.header.computeBlockHash

theorem adds_importBlock (hadd : addBlock block s = (.ok (), s₁))
    (hrun : (Blockchain.importBlock block s).2 =
      s₁.setCanonicalBlock block.header.number block.header.computeBlockHash) :
    (importBlock block).Adds s block := by
  refine ⟨rfl, ⟨s₁, hadd⟩, ?_⟩
  rw [run, hrun, Store.chain_setCanonicalBlock, (addBlock_ok hadd).chain]

theorem adds_newPayload {r : NewPayloadV3Request} (h : r.Adds s s₁ block) :
    (newPayload r).Adds s block := by
  refine ⟨?_, ⟨s₁, h.added⟩, ?_⟩
  · rw [header?, h.converted]
    rfl
  · rw [run, h.answer, Store.chain_setCanonicalBlock, (addBlock_ok h.added).chain, h.hash]

/-- An action adds a block, rewrites the entry of a head, or leaves the chain alone. -/
theorem run_cases (a : Action) (s : Store) :
    (∃ block, a.Adds s block) ∨
    (∃ r headBlock, a = .forkchoiceUpdated r ∧ r.Rewrites s headBlock ∧
      (a.run s).chain = s.chain.setCanonicalBlock headBlock.number r.forkChoiceState.headBlockHash) ∨
    (a.run s).chain = s.chain := by
  cases a with
  | importBlock block =>
    rcases importBlock_cases block s with ⟨s₁, hadd, hrun⟩ | ⟨-, hkeep⟩
    · exact .inl ⟨block, adds_importBlock hadd hrun⟩
    · exact .inr (.inr (Store.chain_of_chainPart hkeep))
  | newPayload r =>
    rcases r.handle_cases s with ⟨s₁, block, hadds⟩ | hstays
    · exact .inl ⟨block, adds_newPayload hadds⟩
    · exact .inr (.inr (Store.chain_of_chainPart hstays.chainPart))
  | forkchoiceUpdated r =>
    by_cases h : ∃ headBlock, r.Rewrites s headBlock
    · obtain ⟨headBlock, h⟩ := h
      exact .inr (.inl ⟨r, headBlock, rfl, h, r.handle_of_rewrites h⟩)
    · push Not at h
      exact .inr (.inr (r.handle_of_not_rewrites h))

end Action

/-! ## Runs -/

section

variable [Keccak256] [Secp256k1] [EthBloom] [Revm]

def states (s : Store) : List Action → List Store
  | [] => [s]
  | a :: actions => s :: states (a.run s) actions

def steps (s : Store) : List Action → List (Store × Action)
  | [] => []
  | a :: actions => (s, a) :: steps (a.run s) actions

theorem mem_steps (h : p ∈ steps s actions) :
    p.1 ∈ states s actions ∧ p.2 ∈ actions := by
  induction actions generalizing s with
  | nil => cases h
  | cons a actions ih =>
    rcases mem_cons.mp h with rfl | h
    · exact ⟨mem_cons_self, mem_cons_self⟩
    · exact ⟨mem_cons_of_mem _ (ih h).1, mem_cons_of_mem _ (ih h).2⟩

theorem Sound.run {a : Action} (hs : Sound S g s.chain)
    (hS : Set.InjOn BlockHeader.computeBlockHash S) (ha : ∀ header ∈ a.header?, header ∈ S) :
    Sound S g (a.run s).chain := by
  rcases a.run_cases s with ⟨block, hadds⟩ | ⟨r, headBlock, rfl, hrewrites, hchain⟩ | hchain
  · obtain ⟨s₁, hadd⟩ := hadds.added
    exact hadds.chain ▸ hs.extend hS (ha _ hadds.header) (addBlock_ok hadd)
  · exact hchain ▸ hs.repoint hrewrites
  · exact hchain ▸ hs

theorem states_invariant {P : Store → Prop} (h0 : P s)
    (hstep : ∀ s a, a ∈ actions → P s → P (a.run s)) : ∀ s' ∈ states s actions, P s' := by
  induction actions generalizing s with
  | nil => simpa [states] using h0
  | cons a actions ih =>
    intro s' hs'
    rcases mem_cons.mp hs' with rfl | hs'
    · exact h0
    · exact ih (hstep s a mem_cons_self h0) (fun s a ha => hstep s a (mem_cons_of_mem _ ha)) s' hs'

theorem Sound.of_mem_states (hs : Sound S g s.chain)
    (hS : Set.InjOn BlockHeader.computeBlockHash S)
    (ha : ∀ a ∈ actions, ∀ header ∈ a.header?, header ∈ S) :
    ∀ s' ∈ states s actions, Sound S g s'.chain :=
  states_invariant (P := fun s => Sound S g s.chain) hs fun _ a hmem h => h.run hS (ha a hmem)

end

/-! ## Genesis -/

section

variable [Keccak256] {genesis : Genesis}

def runHeaders (genesis : Genesis) (actions : List Action) : Set BlockHeader :=
  {header | (genesis.getBlockHeader : Outcome StoreError BlockHeader) = .ok header ∨
    ∃ a ∈ actions, a.header? = some header}

theorem header_mem_runHeaders (genesis : Genesis) :
    ∀ a ∈ actions, ∀ header ∈ a.header?, header ∈ runHeaders genesis actions :=
  fun a ha _ hheader => .inr ⟨a, ha, hheader⟩

theorem number_getBlockHeader {ε : Type}
    (h : (genesis.getBlockHeader : Outcome ε BlockHeader) = .ok header) : header.number = 0 := by
  obtain ⟨_, -, h⟩ := Outcome.bind_ok_inv h
  cases h
  rfl

def genesisChain (genesis : Genesis) (header : BlockHeader) : Store.Chain :=
  { (Store.new.chain.withBlock ⟨header, Genesis.getBlockBody⟩).setCanonicalBlock header.number
      header.computeBlockHash with chainConfig := some genesis.config }

theorem addInitialState_chain
    (h : Store.addInitialState genesis Store.new = (.ok (), s₀)) :
    ∃ header, (genesis.getBlockHeader : Outcome StoreError BlockHeader) = .ok header ∧
      s₀.chain = genesisChain genesis header := by
  obtain ⟨block, hblock, h⟩ := Exec.reads_bind_ok_inv h
  obtain ⟨header, hheader, hblock⟩ := Outcome.bind_ok_inv hblock
  obtain rfl : (⟨header, Genesis.getBlockBody⟩ : Block) = block := by simpa using hblock
  refine ⟨header, hheader, ?_⟩
  obtain ⟨root, s₁, hroot, h⟩ := Exec.bind_ok_inv (x := Store.setupGenesisStateTrie genesis.alloc) h
  have hs₁ : s₁.chainPart = Store.new.chainPart := by
    have := Store.keeps_setupGenesisStateTrie genesis.alloc Store.new
    rwa [hroot] at this
  obtain ⟨_, -, h⟩ := Exec.reads_bind_ok_inv h
  obtain ⟨_, s₂, hs₂, h⟩ := Exec.bind_ok_inv h
  obtain ⟨_, s₃, hs₃, h⟩ := Exec.bind_ok_inv h
  obtain ⟨difficulty, -, hs₃⟩ := Exec.reads_bind_ok_inv hs₃
  obtain rfl := congrArg Prod.snd hs₂
  obtain rfl := congrArg Prod.snd hs₃
  obtain rfl := congrArg Prod.snd h
  have hchain : (s₁.updateEarliestBlockNumber header.number).chain = Store.new.chain :=
    (Store.chain_of_chainPart hs₁ : s₁.chain = _)
  have hwith := Store.chain_withBlock (s₁.updateEarliestBlockNumber header.number)
    ⟨header, Genesis.getBlockBody⟩ difficulty
  rw [hchain] at hwith
  rw [genesisChain, ← hwith]
  rfl

theorem sound_genesisChain
    (hnumber : header.number = 0) (hS : header ∈ S) :
    Sound S header.computeBlockHash (genesisChain genesis header) := by
  have hnew : Tables Store.new.chain := ⟨fun _ => rfl, fun hash h hh => by cases hh⟩
  have htables := hnew.withBlock ⟨header, Genesis.getBlockBody⟩
  refine ⟨⟨htables.numbers, htables.bodies⟩, ?_, ⟨_, rfl⟩, ⟨_, rfl⟩⟩
  have hledger : (genesisChain genesis header).ledger = Store.new.chain.ledger.extend Store.scheme header :=
    Store.Chain.ledger_extend Store.new.chain ⟨header, Genesis.getBlockBody⟩
  rw [hledger]
  refine .genesis (fun _ => rfl) (fun n => ?_) hS (congrArg UInt64.toNat hnumber)
  simp [Store.Chain.ledger, Store.chain, Store.new]

end
end EthereumRust.Engine
