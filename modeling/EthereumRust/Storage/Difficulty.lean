import EthereumRust.Storage.Genesis
import EthereumRust.Storage.Locations

/-! # Total difficulties

A block is stored with the latest total difficulty plus its own, whatever its parent's is. -/

namespace EthereumRust.Storage
open Rlp Mpt Core List Exec

namespace Store

section

variable [Keccak256]

/-- The stores that are reached from the genesis state by adding blocks to stored parents, where `P` says which block
may be added to which store. Adding fails if the total does not fit, and then the store stays as it is. -/
inductive Grown (genesis : Genesis) (P : Store → Block → Prop) : List Block → Store → Prop
  | genesis {block : Block} {s : Store} (hblock : (genesis.getBlock : Outcome StoreError Block) = .ok block)
    (stored : Store.addInitialState genesis Store.new = (.ok (), s)) : Grown genesis P [block] s
  | addBlock {blocks : List Block} {s : Store} {block : Block} (h : Grown genesis P blocks s)
    (parent : (s.getBlockHeaderByHash block.header.parentHash).isSome) (may : P s block) :
    Grown genesis P (block :: blocks) (Store.addBlock block s).2

/-- The parent of the block has the latest total difficulty. -/
def OnLatest (s : Store) (block : Block) : Prop :=
  s.getBlockTotalDifficulty block.header.parentHash = s.chainData.latestTotalDifficulty

instance (s : Store) (block : Block) : Decidable (OnLatest s block) := inferInstanceAs (Decidable (_ = _))

/-- Every stored block but the first has the total difficulty of its parent plus its own. -/
def Accumulated (first : BlockHash) (s : Store) : Prop :=
  ∀ hash header, s.getBlockHeaderByHash hash = some header → hash ≠ first →
    ∃ total parentTotal, s.getBlockTotalDifficulty hash = some total ∧
      s.getBlockTotalDifficulty header.parentHash = some parentTotal ∧
      total.toNat = parentTotal.toNat + header.difficulty.toNat

/-- Headers with one hash are equal, and the first block has no parent among the blocks. -/
structure Chained (first : BlockHeader) (blocks : List Block) : Prop where
  headers : ∀ a ∈ blocks, ∀ b ∈ blocks, a.header.computeBlockHash = b.header.computeBlockHash → a.header = b.header
  root : ∀ a ∈ blocks, a.header.computeBlockHash ≠ first.parentHash

theorem Chained.tail (h : Chained first (block :: blocks)) :
    Chained first blocks where
  headers a ha b hb := h.headers a (mem_cons_of_mem _ ha) b (mem_cons_of_mem _ hb)
  root a ha := h.root a (mem_cons_of_mem _ ha)

/-! ## What is stored with a block -/

variable (s : Store) (block : Block)

theorem getBlockHeaderByHash_withBlock (total : U256) (hash : BlockHash) :
    (s.withBlock block total).getBlockHeaderByHash hash =
      if hash = block.header.computeBlockHash then some block.header else s.getBlockHeaderByHash hash := by
  have hheaders : (s.withBlock block total).headers = s.headers.insert block.header.computeBlockHash block.header :=
    congrArg Chain.headers (chain_withBlock s block total)
  rw [getBlockHeaderByHash, hheaders]
  split_ifs with h
  · rw [h, AList.lookup_insert]
  · rw [AList.lookup_insert_ne h, getBlockHeaderByHash]

theorem getBlockTotalDifficulty_withBlock (total : U256) (hash : BlockHash) :
    (s.withBlock block total).getBlockTotalDifficulty hash =
      if hash = block.header.computeBlockHash then some total else s.getBlockTotalDifficulty hash := by
  have htotals : (s.withBlock block total).blockTotalDifficulties =
      s.blockTotalDifficulties.insert block.header.computeBlockHash total := by
    obtain ⟨l, hl⟩ := s.addTransactionLocations_eq block.body.transactions block.header.number
      block.header.computeBlockHash
    rw [withBlock, hl]
    rfl
  rw [getBlockTotalDifficulty, htotals]
  split_ifs with h
  · rw [h, AList.lookup_insert]
  · rw [AList.lookup_insert_ne h, getBlockTotalDifficulty]

/-- Adding a block either stores it with the latest total plus its own difficulty, or changes nothing. -/
theorem addBlock_cases :
    (∃ total, Store.addBlock block s = (.ok (), s.withBlock block total) ∧
      total.toNat = (s.chainData.latestTotalDifficulty.getD 0).toNat + block.header.difficulty.toNat) ∨
    ∃ fault, Store.addBlock block s = (.error fault, s) := by
  rw [Store.addBlock, run_bind, run_reads, u256Add]
  split_ifs with hfits
  · refine .inl ⟨_, rfl, ?_⟩
    rw [BitVec.toNat_add, Nat.mod_eq_of_lt hfits]
  · exact .inr ⟨_, rfl⟩

/-! ## The tables agree -/

/-- The stored headers are those of added blocks, none is its own parent, and they are the ones with a total. -/
structure Tracked (blocks : List Block) (s : Store) : Prop where
  stored : ∀ hash header, s.getBlockHeaderByHash hash = some header →
    ∃ block ∈ blocks, block.header.computeBlockHash = hash ∧ block.header = header
  proper : ∀ hash header, s.getBlockHeaderByHash hash = some header → header.parentHash ≠ hash
  totals : ∀ hash, (s.getBlockTotalDifficulty hash).isSome = (s.getBlockHeaderByHash hash).isSome
  latest : s.chainData.latestTotalDifficulty.isSome

variable {genesis : Genesis} {first block : Block} {s : Store}

theorem addInitialState_tables (hblock : (genesis.getBlock : Outcome StoreError Block) = .ok first)
    (h : Store.addInitialState genesis Store.new = (.ok (), s)) :
    (∀ hash, s.getBlockHeaderByHash hash = if hash = first.header.computeBlockHash then some first.header else none) ∧
    (∃ total, ∀ hash, s.getBlockTotalDifficulty hash =
      if hash = first.header.computeBlockHash then some total else none) ∧
    s.chainData.latestTotalDifficulty.isSome := by
  obtain ⟨block, hread, h⟩ := reads_bind_ok_inv h
  obtain rfl : block = first := by
    rw [hblock] at hread
    exact (Except.ok.inj hread).symm
  rw [run_bind_ok (run_get _)] at h
  have hnone : Store.new.getBlockHeader block.header.number = none := rfl
  obtain ⟨root, s₀, hsetup, h⟩ := bind_ok_inv h
  have hkept : s₀.chainPart = Store.new.chainPart := by
    have hkeeps := Store.keeps_setupGenesisStateTrie genesis.alloc Store.new
    rwa [hsetup] at hkeeps
  have hheaders : s₀.headers = ∅ := congrArg Store.headers hkept
  have htotals : s₀.blockTotalDifficulties = ∅ := congrArg Store.blockTotalDifficulties hkept
  obtain ⟨_, -, h⟩ := reads_bind_ok_inv h
  rw [run_bind_ok (run_modify _ _)] at h
  obtain ⟨_, s₁, hadd, h⟩ := bind_ok_inv h
  obtain rfl : _ = s := congrArg Prod.snd h
  rcases addBlock_cases (s₀.updateEarliestBlockNumber block.header.number) block with
    ⟨total, hadded, -⟩ | ⟨fault, hfailed⟩
  · rw [hadded] at hadd
    obtain rfl := congrArg Prod.snd hadd
    refine ⟨fun hash => ?_, ⟨total, fun hash => ?_⟩, rfl⟩
    · refine (getBlockHeaderByHash_withBlock _ block total hash).trans ?_
      congr 1
      exact congrArg (AList.lookup hash) hheaders
    · refine (getBlockTotalDifficulty_withBlock _ block total hash).trans ?_
      congr 1
      exact congrArg (AList.lookup hash) htotals
  · rw [hfailed] at hadd
    cases hadd

theorem tracked_genesis (hblock : (genesis.getBlock : Outcome StoreError Block) = .ok first)
    (hroot : first.header.computeBlockHash ≠ first.header.parentHash)
    (h : Store.addInitialState genesis Store.new = (.ok (), s)) : Tracked [first] s := by
  obtain ⟨hheaders, ⟨total, htotals⟩, hlatest⟩ := addInitialState_tables hblock h
  have hfirst : ∀ hash header, s.getBlockHeaderByHash hash = some header →
      first.header.computeBlockHash = hash ∧ first.header = header := by
    intro hash header hheader
    rw [hheaders] at hheader
    split_ifs at hheader with hhash
    exact ⟨hhash.symm, Option.some.inj hheader⟩
  refine ⟨fun hash header hheader => ⟨first, mem_singleton_self _, hfirst hash header hheader⟩, ?_, ?_, hlatest⟩
  · intro hash header hheader
    obtain ⟨rfl, rfl⟩ := hfirst hash header hheader
    exact hroot.symm
  · intro hash
    rw [hheaders, htotals]
    split_ifs <;> rfl

theorem Tracked.header_eq (h : Tracked blocks s) (hchained : Chained first.header (block :: blocks))
    (hheader : s.getBlockHeaderByHash block.header.computeBlockHash = some header) : header = block.header := by
  obtain ⟨stored, hmem, hhash, rfl⟩ := h.stored _ _ hheader
  exact hchained.headers stored (mem_cons_of_mem _ hmem) block mem_cons_self hhash

theorem Tracked.parent_ne (h : Tracked blocks s) (hchained : Chained first.header (block :: blocks))
    (hparent : (s.getBlockHeaderByHash block.header.parentHash).isSome) :
    block.header.parentHash ≠ block.header.computeBlockHash := by
  intro hself
  obtain ⟨header, hheader⟩ := Option.isSome_iff_exists.mp hparent
  have hsame := h.header_eq hchained (hself ▸ hheader)
  exact h.proper _ _ hheader (by rw [hsame])

theorem Tracked.ne_first (h : Tracked blocks s) (hchained : Chained first.header (block :: blocks))
    (hfirst : first ∈ blocks) (hparent : (s.getBlockHeaderByHash block.header.parentHash).isSome) :
    block.header.computeBlockHash ≠ first.header.computeBlockHash := by
  intro hhash
  have hsame := hchained.headers block mem_cons_self first (mem_cons_of_mem _ hfirst) hhash
  obtain ⟨header, hheader⟩ := Option.isSome_iff_exists.mp hparent
  obtain ⟨parent, hmem, hkey, -⟩ := h.stored _ _ hheader
  exact hchained.root parent (mem_cons_of_mem _ hmem) (hkey.trans (congrArg BlockHeader.parentHash hsame))

theorem Tracked.withBlock (h : Tracked blocks s) (hchained : Chained first.header (block :: blocks))
    (hparent : (s.getBlockHeaderByHash block.header.parentHash).isSome) (total : U256) :
    Tracked (block :: blocks) (s.withBlock block total) := by
  refine ⟨?_, ?_, ?_, rfl⟩
  · intro hash header hheader
    rw [getBlockHeaderByHash_withBlock] at hheader
    split_ifs at hheader with hhash
    · exact ⟨block, mem_cons_self, hhash.symm, Option.some.inj hheader⟩
    · obtain ⟨stored, hmem, hrest⟩ := h.stored hash header hheader
      exact ⟨stored, mem_cons_of_mem _ hmem, hrest⟩
  · intro hash header hheader
    rw [getBlockHeaderByHash_withBlock] at hheader
    split_ifs at hheader with hhash
    · obtain rfl : block.header = header := Option.some.inj hheader
      rw [hhash]
      exact h.parent_ne hchained hparent
    · exact h.proper hash header hheader
  · intro hash
    rw [getBlockTotalDifficulty_withBlock, getBlockHeaderByHash_withBlock]
    split_ifs
    · rfl
    · exact h.totals hash

theorem Tracked.cons (h : Tracked blocks s) (block : Block) : Tracked (block :: blocks) s where
  stored hash header hheader := by
    obtain ⟨stored, hmem, hrest⟩ := h.stored hash header hheader
    exact ⟨stored, mem_cons_of_mem _ hmem, hrest⟩
  proper := h.proper
  totals := h.totals
  latest := h.latest

theorem Grown.tracked (h : Grown genesis P blocks s)
    (hblock : (genesis.getBlock : Outcome StoreError Block) = .ok first) (hchained : Chained first.header blocks) :
    first ∈ blocks ∧ Tracked blocks s := by
  induction h with
  | genesis hblock' hstored =>
    obtain rfl := Except.ok.inj (hblock'.symm.trans hblock)
    exact ⟨mem_singleton_self _, tracked_genesis hblock (hchained.root _ (mem_singleton_self _)) hstored⟩
  | @addBlock blocks s block _ hparent _ ih =>
    obtain ⟨hfirst, htracked⟩ := ih hchained.tail
    refine ⟨mem_cons_of_mem _ hfirst, ?_⟩
    rcases addBlock_cases s block with ⟨total, hadded, -⟩ | ⟨fault, hfailed⟩
    · rw [hadded]
      exact htracked.withBlock hchained hparent total
    · rw [hfailed]
      exact htracked.cons block

/-! ## One block more -/

/-- Where totals accumulate so far, they still do after a block exactly if its parent has the latest total. -/
theorem Tracked.accumulated_withBlock_iff (h : Tracked blocks s) (hchained : Chained first.header (block :: blocks))
    (hfirst : first ∈ blocks) (hparent : (s.getBlockHeaderByHash block.header.parentHash).isSome) {total : U256}
    (htotal : total.toNat = (s.chainData.latestTotalDifficulty.getD 0).toNat + block.header.difficulty.toNat)
    (hacc : Accumulated first.header.computeBlockHash s) :
    Accumulated first.header.computeBlockHash (s.withBlock block total) ↔ OnLatest s block := by
  obtain ⟨latest, hlatest⟩ := Option.isSome_iff_exists.mp h.latest
  have hself := h.parent_ne hchained hparent
  have hnew := h.ne_first hchained hfirst hparent
  obtain ⟨parentTotal, hparentTotal⟩ := Option.isSome_iff_exists.mp ((h.totals _).trans hparent)
  rw [hlatest, Option.getD_some] at htotal
  rw [OnLatest, hparentTotal, hlatest]
  constructor
  · intro hacc'
    obtain ⟨total', parentTotal', htotal', hparentTotal', hsum⟩ := hacc' block.header.computeBlockHash block.header
      (by rw [getBlockHeaderByHash_withBlock, if_pos rfl]) hnew
    rw [getBlockTotalDifficulty_withBlock, if_pos rfl] at htotal'
    rw [getBlockTotalDifficulty_withBlock, if_neg hself, hparentTotal] at hparentTotal'
    cases htotal'
    cases hparentTotal'
    exact congrArg some (BitVec.eq_of_toNat_eq (by omega))
  · intro honLatest
    obtain rfl := Option.some.inj honLatest
    intro hash header hheader hne
    rw [getBlockHeaderByHash_withBlock] at hheader
    split_ifs at hheader with hhash
    · cases hheader
      refine ⟨total, parentTotal, ?_, ?_, htotal⟩
      · rw [getBlockTotalDifficulty_withBlock, if_pos hhash]
      · rw [getBlockTotalDifficulty_withBlock, if_neg hself, hparentTotal]
    · obtain ⟨own, above, hown, habove, hsum⟩ := hacc hash header hheader hne
      refine ⟨own, above, ?_, ?_, hsum⟩
      · rw [getBlockTotalDifficulty_withBlock, if_neg hhash, hown]
      · rw [getBlockTotalDifficulty_withBlock]
        split_ifs with hagain
        · -- the block was stored before, with the same total
          have hstored := (h.totals header.parentHash).symm.trans (by rw [habove])
          obtain ⟨before, hbefore⟩ := Option.isSome_iff_exists.mp hstored
          rw [hagain] at hbefore habove
          obtain rfl := h.header_eq hchained hbefore
          obtain ⟨again, parentTotal', hagain', hparentTotal', hsum'⟩ := hacc _ _ hbefore hnew
          rw [habove] at hagain'
          rw [hparentTotal] at hparentTotal'
          cases hagain'
          cases hparentTotal'
          exact congrArg some (BitVec.eq_of_toNat_eq (by omega))
        · exact habove

theorem Grown.accumulated (h : Grown genesis OnLatest blocks s)
    (hblock : (genesis.getBlock : Outcome StoreError Block) = .ok first) (hchained : Chained first.header blocks) :
    Accumulated first.header.computeBlockHash s := by
  induction h with
  | genesis hblock' hstored =>
    intro hash header hheader hne
    rw [(addInitialState_tables hblock hstored).1, if_neg hne] at hheader
    cases hheader
  | @addBlock blocks s block hgrown hparent hmay ih =>
    obtain ⟨hfirst, htracked⟩ := hgrown.tracked hblock hchained.tail
    have hacc := ih hchained.tail
    rcases addBlock_cases s block with ⟨total, hadded, htotal⟩ | ⟨fault, hfailed⟩
    · rw [hadded]
      exact (htracked.accumulated_withBlock_iff hchained hfirst hparent htotal hacc).mpr hmay
    · rw [hfailed]
      exact hacc

/-- Total difficulties accumulate along ancestry in every run that adds each block to a parent with the latest total,
and one step that does not ends it. -/
theorem total_difficulty_accumulates (genesis : Genesis) (first : Block)
    (hblock : (genesis.getBlock : Outcome StoreError Block) = .ok first) (blocks : List Block) (s : Store)
    (hchained : Chained first.header blocks) :
    (Grown genesis OnLatest blocks s → Accumulated first.header.computeBlockHash s) ∧
    ∀ (P : Store → Block → Prop) (before : List Block) (s₀ : Store) (block : Block), blocks = block :: before →
      Grown genesis P before s₀ → Accumulated first.header.computeBlockHash s₀ →
      (s₀.getBlockHeaderByHash block.header.parentHash).isSome → Store.addBlock block s₀ = (.ok (), s) →
      (Accumulated first.header.computeBlockHash s ↔ OnLatest s₀ block) := by
  refine ⟨fun hgrown => hgrown.accumulated hblock hchained, ?_⟩
  rintro P before s₀ block rfl hgrown hacc hparent hadd
  obtain ⟨hfirst, htracked⟩ := hgrown.tracked hblock hchained.tail
  rcases addBlock_cases s₀ block with ⟨total, hadded, htotal⟩ | ⟨fault, hfailed⟩
  · obtain rfl := congrArg Prod.snd (hadded.symm.trans hadd)
    exact htracked.accumulated_withBlock_iff hchained hfirst hparent htotal hacc
  · cases hfailed.symm.trans hadd

end
end Store

/-! ### Two children of the genesis block -/

def bareGenesis : Genesis := { twoAccounts with alloc := ∅ }

def bareBlock : Block :=
  letI := foldedKeccak
  match (bareGenesis.getBlock : Outcome StoreError Block) with
  | .ok block => block
  | .error _ => plainBlock 0

def childBlock (timestamp : UInt64) : Block :=
  letI := foldedKeccak
  ⟨{ plainHeader with
      parentHash := bareBlock.header.computeBlockHash
      difficulty := 1
      timestamp := timestamp }, [], [], none⟩

def oneChild : Store :=
  letI := foldedKeccak
  (Store.addBlock (childBlock 1) (Store.addInitialState bareGenesis Store.new).2).2

theorem bareGenesis_getBlock :
    letI := foldedKeccak
    (bareGenesis.getBlock : Outcome StoreError Block) = .ok bareBlock := by
  let := foldedKeccak
  decide +kernel

theorem oneChild_grown {P : Store → Block → Prop} :
    letI := foldedKeccak
    P (Store.addInitialState bareGenesis Store.new).2 (childBlock 1) →
      Store.Grown bareGenesis P [childBlock 1, bareBlock] oneChild := by
  let := foldedKeccak
  intro hP
  have hstored : (Store.addInitialState bareGenesis Store.new).1 = .ok () := by decide +kernel
  exact (Store.Grown.genesis bareGenesis_getBlock (eq_of_fst hstored)).addBlock (by decide +kernel) hP

/-- The second child gets the difficulty of the first one as well. -/
theorem total_difficulty_of_fork :
    letI := foldedKeccak
    Store.Grown bareGenesis (fun _ _ => True) [childBlock 2, childBlock 1, bareBlock]
        (Store.addBlock (childBlock 2) oneChild).2 ∧
      Store.Chained bareBlock.header [childBlock 2, childBlock 1, bareBlock] ∧
      (childBlock 2).header.parentHash = bareBlock.header.computeBlockHash ∧
      (Store.addBlock (childBlock 2) oneChild).2.getBlockTotalDifficulty bareBlock.header.computeBlockHash = some 0 ∧
      (Store.addBlock (childBlock 2) oneChild).2.getBlockTotalDifficulty (childBlock 2).header.computeBlockHash =
        some 2 ∧
      ¬ Store.Accumulated bareBlock.header.computeBlockHash (Store.addBlock (childBlock 2) oneChild).2 := by
  let := foldedKeccak
  have hfacts : (childBlock 2).header.parentHash = bareBlock.header.computeBlockHash ∧
      (Store.addBlock (childBlock 2) oneChild).2.getBlockTotalDifficulty bareBlock.header.computeBlockHash = some 0 ∧
      (Store.addBlock (childBlock 2) oneChild).2.getBlockTotalDifficulty (childBlock 2).header.computeBlockHash =
        some 2 ∧
      (Store.addBlock (childBlock 2) oneChild).2.getBlockHeaderByHash (childBlock 2).header.computeBlockHash =
        some (childBlock 2).header ∧
      (childBlock 2).header.computeBlockHash ≠ bareBlock.header.computeBlockHash := by
    decide +kernel
  refine ⟨(oneChild_grown trivial).addBlock (by decide +kernel) trivial, ⟨by decide +kernel, by decide +kernel⟩,
    hfacts.1, hfacts.2.1, hfacts.2.2.1, fun hacc => ?_⟩
  obtain ⟨total, parentTotal, htotal, hparentTotal, hsum⟩ := hacc _ _ hfacts.2.2.2.1 hfacts.2.2.2.2
  rw [hfacts.2.2.1] at htotal
  rw [hfacts.1, hfacts.2.1] at hparentTotal
  obtain rfl := Option.some.inj htotal
  obtain rfl := Option.some.inj hparentTotal
  exact absurd hsum (by decide)

theorem total_difficulty_accumulates_oneChild :
    letI := foldedKeccak
    Store.Accumulated bareBlock.header.computeBlockHash oneChild ∧
      (Store.Accumulated bareBlock.header.computeBlockHash (Store.addBlock (childBlock 2) oneChild).2 ↔
        Store.OnLatest oneChild (childBlock 2)) := by
  let := foldedKeccak
  have hchained : Store.Chained bareBlock.header [childBlock 1, bareBlock] := ⟨by decide +kernel, by decide +kernel⟩
  have hchained' : Store.Chained bareBlock.header [childBlock 2, childBlock 1, bareBlock] :=
    ⟨by decide +kernel, by decide +kernel⟩
  have hgrown : Store.Grown bareGenesis Store.OnLatest [childBlock 1, bareBlock] oneChild :=
    oneChild_grown (by decide +kernel)
  have hacc := (Store.total_difficulty_accumulates bareGenesis bareBlock bareGenesis_getBlock _ oneChild hchained).1
    hgrown
  have hadded : (Store.addBlock (childBlock 2) oneChild).1 = .ok () := by decide +kernel
  exact ⟨hacc, (Store.total_difficulty_accumulates bareGenesis bareBlock bareGenesis_getBlock _ _ hchained').2
    Store.OnLatest _ oneChild (childBlock 2) rfl hgrown hacc (by decide +kernel) (Exec.eq_of_fst hadded)⟩

end EthereumRust.Storage
