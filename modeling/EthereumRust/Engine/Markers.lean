import EthereumRust.Engine.Canonical

/-! # Finalized, safe and head blocks

The handler writes the head's canonical entry before it checks the finalized block, and
the finalized number before it checks the safe block. -/

namespace EthereumRust.Engine
open Rlp Mpt Core Storage Evm Blockchain

/-! ## Accepted updates -/

/-- `a` is the parent of the stored block `c`; the genesis block has none. -/
def IsParent (s : Store) (a c : BlockHash) : Prop :=
  ∃ block, s.getBlockByHash c = some block ∧ block.header.number ≠ 0 ∧ block.header.parentHash = a

/-- `a` is an ancestor of `c`, or `c` itself. -/
def Ancestor (s : Store) : BlockHash → BlockHash → Prop := Relation.ReflTransGen (IsParent s)

section

variable [Keccak256]

theorem Sound.isParent_eq (hs : Sound S g s.chain) :
    IsParent s = Ledger.IsParent Store.scheme s.chain.ledger := by
  funext a c
  refine propext ⟨?_, ?_⟩
  · rintro ⟨block, hblock, hne, rfl⟩
    exact ⟨block.header, header_of_getBlockByHash hblock, fun hzero => hne (UInt64.toNat.inj hzero), rfl⟩
  · rintro ⟨header, hheader, hne, rfl⟩
    obtain ⟨body, hblock⟩ := hs.getBlockByHash hheader
    exact ⟨_, hblock, fun hzero => hne (congrArg UInt64.toNat hzero), rfl⟩

theorem Sound.ancestor_number_le (hs : Sound S g s.chain) (h : Ancestor s a c)
    (hc : s.getBlockHeaderByHash c = some header) :
    ∃ header', s.getBlockHeaderByHash a = some header' ∧ header'.number ≤ header.number := by
  unfold Ancestor at h
  rw [hs.isParent_eq] at h
  obtain ⟨header', hheader, hle⟩ := Ledger.Ancestor.number_le hs.ledger h hc
  exact ⟨header', hheader, UInt64.le_iff_toNat_le.mpr hle⟩

/-- Of two canonical blocks of linked entries, the one with the lower number is an ancestor. -/
theorem Sound.ancestor_iff (hs : Sound S g s.chain) (hl : CanonicalLinked s) {a c : BlockHash}
    {blockA blockC : Block} (ha : ForkChoiceUpdatedV3.Marks s a blockA) (hstored : s.getBlockByHash c = some blockC)
    (hcanonical : s.getCanonicalBlockHash blockC.header.number = some c)
    (hle : ∀ latest ∈ s.getLatestBlockNumber, blockC.header.number ≤ latest) :
    Ancestor s a c ↔ blockA.header.number ≤ blockC.header.number := by
  constructor
  · intro h
    obtain ⟨header, hheader, hle⟩ := hs.ancestor_number_le h (header_of_getBlockByHash hstored)
    obtain rfl : blockA.header = header :=
      Option.some.inj ((header_of_getBlockByHash ha.stored).symm.trans hheader)
    exact hle
  · intro h
    unfold Ancestor
    rw [hs.isParent_eq]
    obtain ⟨latest, hlatest⟩ := hs.latest
    have hlinked := hs.canonicalLinked_iff.mp hl
    rw [Store.ledger_latest hlatest] at hlinked
    exact hlinked.ancestor ((s.chain.canon_toNat _).trans ha.canonical) (UInt64.le_iff_toNat_le.mp h)
      (UInt64.le_iff_toNat_le.mp (hle latest hlatest)) ((s.chain.canon_toNat _).trans hcanonical)

end

section

variable [Keccak256] [Secp256k1] [EthBloom] [Revm]

omit [Secp256k1] [EthBloom] in
theorem updateMarkers_of_response {r : ForkChoiceUpdatedV3}
    (h : (r.handle s).1 = .ok (.response response)) (hvalid : response.payloadStatus.status = .valid) :
    ∃ s₁, r.updateMarkers s₁ = (.ok (.response response), (r.handle s).2) := by
  by_cases hp : ∃ headBlock current, r.Proceeds s headBlock current
  · obtain ⟨headBlock, current, hp⟩ := hp
    rw [ForkChoiceUpdatedV3.handle_of_proceeds hp] at h ⊢
    rcases hchange : r.headChange s headBlock current with _ | _ | _
    · rw [hchange] at h
      cases h
    · rw [hchange] at h
      exact ⟨_, Prod.ext h rfl⟩
    · rw [hchange] at h
      exact ⟨_, Prod.ext h rfl⟩
  · push Not at hp
    have := (ForkChoiceUpdatedV3.handle_of_not_proceeds hp).2 _ h
    rw [show (ForkChoiceAnswer.response response).status = response.payloadStatus from rfl, hvalid] at this
    cases this

/-- **The markers of an accepted fork choice** name canonical blocks. While the canonical entries are
linked they are ordered as their numbers are. -/
theorem forkchoice_markers_ordered (genesis : Genesis) (s₀ : Store) (actions : List Action)
    (h₀ : Store.addInitialState genesis Store.new = (.ok (), s₀))
    (hhash : Set.InjOn BlockHeader.computeBlockHash (runHeaders genesis actions))
    (s : Store) (hs : s ∈ states s₀ actions) (r : ForkChoiceUpdatedV3) (response : ForkChoiceResponse)
    (hanswer : (r.handle s).1 = .ok (.response response))
    (hvalid : response.payloadStatus.status = .valid)
    (hfinalized : r.forkChoiceState.finalizedBlockHash ≠ H256.zero)
    (hsafe : r.forkChoiceState.safeBlockHash ≠ H256.zero) :
    ∃ finalized safe, ForkChoiceUpdatedV3.Marks (r.handle s).2 r.forkChoiceState.finalizedBlockHash finalized ∧
      ForkChoiceUpdatedV3.Marks (r.handle s).2 r.forkChoiceState.safeBlockHash safe ∧
      (r.handle s).2.getFinalizedBlockNumber = some finalized.header.number ∧
      (r.handle s).2.getSafeBlockNumber = some safe.header.number ∧
      (CanonicalLinked (r.handle s).2 → ∀ latest ∈ (r.handle s).2.getLatestBlockNumber,
        (safe.header.number ≤ latest →
          (Ancestor (r.handle s).2 r.forkChoiceState.finalizedBlockHash r.forkChoiceState.safeBlockHash ↔
            finalized.header.number ≤ safe.header.number)) ∧
        ∀ head, ForkChoiceUpdatedV3.Marks (r.handle s).2 r.forkChoiceState.headBlockHash head →
          head.header.number ≤ latest →
          (Ancestor (r.handle s).2 r.forkChoiceState.safeBlockHash r.forkChoiceState.headBlockHash ↔
            safe.header.number ≤ head.header.number)) := by
  obtain ⟨g, hs₀⟩ := sound_of_addInitialState actions h₀
  have hsound := hs₀.of_mem_states hhash (header_mem_runHeaders genesis) s hs
  have hsound' : Sound _ g (r.handle s).2.chain :=
    hsound.run hhash (a := .forkchoiceUpdated r) fun header h => nomatch h
  obtain ⟨s₁, hmarkers⟩ := updateMarkers_of_response hanswer hvalid
  obtain ⟨finalized, safe, hf, hsf, hnf, hns⟩ := ForkChoiceUpdatedV3.updateMarkers_ok hmarkers hfinalized hsafe
  refine ⟨finalized, safe, hf, hsf, hnf, hns, fun hl latest hlatest => ⟨fun hle => ?_, fun head hhead hle => ?_⟩⟩
  · refine hsound'.ancestor_iff hl hf hsf.stored hsf.canonical fun latest' hlatest' => ?_
    exact Option.some.inj (hlatest.symm.trans hlatest') ▸ hle
  · refine hsound'.ancestor_iff hl hsf hhead.stored hhead.canonical fun latest' hlatest' => ?_
    exact Option.some.inj (hlatest.symm.trans hlatest') ▸ hle

end

section

attribute [local instance] forkKeccak noRecovery noBloom idleRevm

def forkChoice (head safe finalized : Nat) : ForkChoiceUpdatedV3 :=
  ⟨⟨H256.ofNat head, H256.ofNat safe, H256.ofNat finalized⟩, none⟩

/-- The finalized block is a child of the safe block. -/
theorem forkchoice_markers_unordered :
    importedStore [blockA1, blockA2] ∈ states genesisStore [.importBlock blockA1, .importBlock blockA2] ∧
      ((forkChoice hashA2 hashA1 hashA2).handle (importedStore [blockA1, blockA2])).1 =
        .ok (.response ⟨PayloadStatus.validWithHash (H256.ofNat hashA2), none⟩) ∧
      ¬ Ancestor ((forkChoice hashA2 hashA1 hashA2).handle (importedStore [blockA1, blockA2])).2
        (H256.ofNat hashA2) (H256.ofNat hashA1) := by
  obtain ⟨g, hs₀⟩ := sound_of_addInitialState [.importBlock blockA1, .importBlock blockA2] genesisStore_ok
  have hhash : Set.InjOn BlockHeader.computeBlockHash
      (runHeaders sampleGenesis [.importBlock blockA1, .importBlock blockA2]) :=
    injOn_runHeaders forkHeaders_injOn sampleGenesis_header (by decide +kernel)
  have hmem : importedStore [blockA1, blockA2] ∈
      states genesisStore [.importBlock blockA1, .importBlock blockA2] := by
    simp [states, Action.run, importedStore]
  have hsound := hs₀.of_mem_states hhash (header_mem_runHeaders sampleGenesis) _ hmem
  have hsound' := hsound.run hhash (a := .forkchoiceUpdated (forkChoice hashA2 hashA1 hashA2))
    fun header h => by cases h
  have hfacts : ((forkChoice hashA2 hashA1 hashA2).handle (importedStore [blockA1, blockA2])).1 =
        .ok (.response ⟨PayloadStatus.validWithHash (H256.ofNat hashA2), none⟩) ∧
      ((forkChoice hashA2 hashA1 hashA2).handle (importedStore [blockA1, blockA2])).2.getBlockHeaderByHash
        (H256.ofNat hashA1) = some blockA1.header ∧
      ((forkChoice hashA2 hashA1 hashA2).handle (importedStore [blockA1, blockA2])).2.getBlockHeaderByHash
        (H256.ofNat hashA2) = some blockA2.header := by
    decide +kernel
  refine ⟨hmem, hfacts.1, fun hancestor => ?_⟩
  obtain ⟨header, hheader, hle⟩ := Sound.ancestor_number_le hsound' hancestor hfacts.2.1
  obtain rfl : blockA2.header = header := Option.some.inj (hfacts.2.2.symm.trans hheader)
  exact absurd hle (by decide)

theorem forkchoice_markers_ordered_sample :
    ∃ finalized safe, ForkChoiceUpdatedV3.Marks
        ((forkChoice hashA1 hashA1 genesisHash).handle (importedStore [blockA1])).2
        (H256.ofNat genesisHash) finalized ∧
      ForkChoiceUpdatedV3.Marks ((forkChoice hashA1 hashA1 genesisHash).handle (importedStore [blockA1])).2
        (H256.ofNat hashA1) safe := by
  obtain ⟨finalized, safe, hf, hs, -⟩ := forkchoice_markers_ordered sampleGenesis genesisStore
    [.importBlock blockA1] genesisStore_ok
    (injOn_runHeaders forkHeaders_injOn sampleGenesis_header (by decide +kernel)) (importedStore [blockA1])
    (by simp [states, Action.run, importedStore]) (forkChoice hashA1 hashA1 genesisHash)
    ⟨PayloadStatus.validWithHash (H256.ofNat hashA1), none⟩ (by decide +kernel) rfl (by decide) (by decide)
  exact ⟨finalized, safe, hf, hs⟩

end

/-! ## Rejected updates -/

namespace ForkChoiceUpdatedV3

def Rejected : Outcome RpcErr ForkChoiceAnswer → Prop
  | .error (.error _) => True
  | .error _ => False
  | .ok answer => answer.status.status = .invalid

/-- The canonical map, the latest, safe and finalized numbers and the payloads are the same. -/
structure SameChoice (s s' : Store) : Prop where
  canonical : s'.getCanonicalBlockHash = s.getCanonicalBlockHash
  latest : s'.getLatestBlockNumber = s.getLatestBlockNumber
  safe : s'.getSafeBlockNumber = s.getSafeBlockNumber
  finalized : s'.getFinalizedBlockNumber = s.getFinalizedBlockNumber
  payloads : s'.getPayload = s.getPayload

variable (s : Store)

theorem SameChoice.refl : SameChoice s s := ⟨rfl, rfl, rfl, rfl, rfl⟩

theorem sameChoice_congr {s s' t : Store} (h : t.chainPart = s'.chainPart) :
    SameChoice s t ↔ SameChoice s s' := by
  have hdata : t.chainPart.chainData = s'.chainPart.chainData := congrArg Store.chainData h
  have hcanonical : t.chainPart.canonicalHashes = s'.chainPart.canonicalHashes :=
    congrArg Store.canonicalHashes h
  have hpayloads : t.chainPart.payloads = s'.chainPart.payloads := congrArg Store.payloads h
  simp only [Store.chainPart] at hdata hcanonical hpayloads
  have hc : t.getCanonicalBlockHash = s'.getCanonicalBlockHash := by
    funext n
    rw [Store.getCanonicalBlockHash, Store.getCanonicalBlockHash, hcanonical]
  have hp : t.getPayload = s'.getPayload := by
    funext n
    rw [Store.getPayload, Store.getPayload, hpayloads]
  constructor
  · rintro ⟨h₁, h₂, h₃, h₄, h₅⟩
    refine ⟨hc ▸ h₁, ?_, ?_, ?_, hp ▸ h₅⟩
    · rwa [Store.getLatestBlockNumber, hdata] at h₂
    · rwa [Store.getSafeBlockNumber, hdata] at h₃
    · rwa [Store.getFinalizedBlockNumber, hdata] at h₄
  · rintro ⟨h₁, h₂, h₃, h₄, h₅⟩
    refine ⟨hc.trans h₁, ?_, ?_, ?_, hp.trans h₅⟩
    · rwa [Store.getLatestBlockNumber, hdata]
    · rwa [Store.getSafeBlockNumber, hdata]
    · rwa [Store.getFinalizedBlockNumber, hdata]

variable (n : BlockNumber)

theorem sameChoice_updateFinalized :
    SameChoice s (s.updateFinalizedBlockNumber n) ↔ s.getFinalizedBlockNumber = some n :=
  ⟨fun h => h.finalized.symm, fun h => ⟨rfl, rfl, rfl, h.symm, rfl⟩⟩

theorem sameChoice_updateSafe :
    SameChoice s (s.updateSafeBlockNumber n) ↔ s.getSafeBlockNumber = some n :=
  ⟨fun h => h.safe.symm, fun h => ⟨rfl, rfl, h.symm, rfl, rfl⟩⟩

theorem sameChoice_updateBoth (m : BlockNumber) :
    SameChoice s ((s.updateFinalizedBlockNumber n).updateSafeBlockNumber m) ↔
      s.getFinalizedBlockNumber = some n ∧ s.getSafeBlockNumber = some m :=
  ⟨fun h => ⟨h.finalized.symm, h.safe.symm⟩, fun h => ⟨rfl, rfl, h.2.symm, h.1.symm, rfl⟩⟩

/-- The numbers that the markers write are there already: the finalized one if its check passes, the
safe one if both checks pass. -/
structure MarkersQuiet (r : ForkChoiceUpdatedV3) (s : Store) : Prop where
  finalized : ∀ block, Marks s r.forkChoiceState.finalizedBlockHash block →
    s.getFinalizedBlockNumber = some block.header.number
  safe : ¬ Refuses s r.forkChoiceState.finalizedBlockHash →
    ∀ block, Marks s r.forkChoiceState.safeBlockHash block → s.getSafeBlockNumber = some block.header.number

/-- The update writes no canonical entry, and no other number than those that are there. -/
structure Quiet [Keccak256] [Revm] (r : ForkChoiceUpdatedV3) (s : Store) : Prop where
  head : ∀ headBlock, ¬ r.Rewrites s headBlock
  markers : ∀ headBlock current, r.Proceeds s headBlock current →
    r.headChange s headBlock current = .keep → r.MarkersQuiet s

section

variable [Keccak256] [Revm] {r : ForkChoiceUpdatedV3} {s : Store}

theorem startPayload_error (h : r.startPayload s = (.error e, s')) :
    s'.chainPart = s.chainPart := by
  unfold startPayload at h
  cases hattributes : r.payloadAttributes with
  | none =>
    rw [hattributes] at h
    cases h
  | some attributes =>
    rw [hattributes] at h
    rcases Exec.bind_error_inv h with hbuild | ⟨_, _, -, hadd⟩
    · have hs : (buildPayload (buildArgs r.forkChoiceState.headBlockHash attributes) s).2 = s' :=
        congrArg Prod.snd hbuild
      exact hs ▸ keeps_buildPayload (buildArgs r.forkChoiceState.headBlockHash attributes) s
    · cases hadd

def respond (r : ForkChoiceUpdatedV3) : Handler ForkChoiceAnswer := do
  let payloadId ← r.startPayload
  pure (.response ⟨PayloadStatus.validWithHash r.forkChoiceState.headBlockHash, payloadId⟩)

def afterFinalized (r : ForkChoiceUpdatedV3) : Handler ForkChoiceAnswer := do
  setSafeBlock r.forkChoiceState.safeBlockHash
  r.respond

theorem updateMarkers_eq (r : ForkChoiceUpdatedV3) :
    r.updateMarkers = setFinalizedBlock r.forkChoiceState.finalizedBlockHash >>= fun _ => r.afterFinalized := rfl

theorem respond_rejected (h : Rejected (r.respond s).1) : (r.respond s).2.chainPart = s.chainPart := by
  unfold respond at h ⊢
  rw [Exec.run_bind] at h ⊢
  rcases hstart : r.startPayload s with ⟨e | id, s'⟩
  · exact startPayload_error hstart
  · rw [hstart] at h
    cases h

/-- The update fails at the safe block, or at the payload with the safe number written. -/
theorem afterFinalized_rejected (h : Rejected (r.afterFinalized s).1) :
    (∀ block, ¬ Marks s r.forkChoiceState.safeBlockHash block) ∧
      (r.afterFinalized s).2.chainPart = s.chainPart ∨
    ∃ block, Marks s r.forkChoiceState.safeBlockHash block ∧
      (r.afterFinalized s).2.chainPart = (s.updateSafeBlockNumber block.header.number).chainPart := by
  unfold afterFinalized at h ⊢
  rw [Exec.run_bind] at h ⊢
  rcases setMarkedBlock_cases "safe" Store.updateSafeBlockNumber r.forkChoiceState.safeBlockHash s with
    ⟨hzero, hrun⟩ | ⟨block, hmarks, hrun⟩ | ⟨hrefuses, e, hrun⟩
  all_goals rw [setSafeBlock, hrun] at h ⊢
  · exact .inl ⟨fun block hm => hm.nonzero hzero, respond_rejected h⟩
  · exact .inr ⟨block, hmarks, respond_rejected h⟩
  · exact .inl ⟨hrefuses.2, rfl⟩

/-- The markers of a rejected update leave no trace exactly if they were there already. -/
theorem updateMarkers_rejected_iff (h : Rejected (r.updateMarkers s).1) :
    SameChoice s (r.updateMarkers s).2 ↔ r.MarkersQuiet s := by
  rw [updateMarkers_eq, Exec.run_bind] at h ⊢
  rcases setMarkedBlock_cases "final" Store.updateFinalizedBlockNumber r.forkChoiceState.finalizedBlockHash s
    with ⟨hzero, hrun⟩ | ⟨finalized, hf, hrun⟩ | ⟨hrefuses, e, hrun⟩
  all_goals rw [setFinalizedBlock, hrun] at h ⊢
  · -- no finalized block was named
    have hnone : ∀ block, ¬ Marks s r.forkChoiceState.finalizedBlockHash block :=
      fun block hm => hm.nonzero hzero
    have hpasses : ¬ Refuses s r.forkChoiceState.finalizedBlockHash := fun hr => hr.1 hzero
    rcases afterFinalized_rejected h with ⟨hsafe, hkeep⟩ | ⟨block, hm, hkeep⟩
    · rw [sameChoice_congr hkeep]
      exact ⟨fun _ => ⟨fun block hm => absurd hm (hnone block), fun _ block hm => absurd hm (hsafe block)⟩,
        fun _ => .refl s⟩
    · rw [sameChoice_congr hkeep, sameChoice_updateSafe]
      refine ⟨fun hn => ⟨fun block hm => absurd hm (hnone block), fun _ block' hm' => ?_⟩,
        fun hq => hq.safe hpasses block hm⟩
      rw [hn, hm.unique hm']
  · have hpasses : ¬ Refuses s r.forkChoiceState.finalizedBlockHash := fun hr => hr.2 _ hf
    have hchain : (s.updateFinalizedBlockNumber finalized.header.number).chain = s.chain := rfl
    rcases afterFinalized_rejected h with ⟨hsafe, hkeep⟩ | ⟨block, hm, hkeep⟩
    · rw [sameChoice_congr hkeep, sameChoice_updateFinalized]
      refine ⟨fun hn => ⟨fun block hm => ?_, fun _ block hm => absurd (hm.congr hchain) (hsafe block)⟩,
        fun hq => hq.finalized finalized hf⟩
      rw [hn, hf.unique hm]
    · have hm : Marks s r.forkChoiceState.safeBlockHash block := hm.congr hchain.symm
      rw [sameChoice_congr hkeep, sameChoice_updateBoth]
      refine ⟨fun hn => ⟨fun block' hm' => ?_, fun _ block' hm' => ?_⟩,
        fun hq => ⟨hq.finalized finalized hf, hq.safe hpasses block hm⟩⟩
      · rw [hn.1, hf.unique hm']
      · rw [hn.2, hm.unique hm']
  · exact ⟨fun _ => ⟨fun block hm => absurd hm (hrefuses.2 block), fun hn => absurd hrefuses hn⟩,
      fun _ => .refl s⟩

/-- **A rejected update changes nothing** exactly if it writes no canonical entry and no number that
was not there already. -/
theorem rejected_update_changes_nothing_iff (r : ForkChoiceUpdatedV3) (s : Store)
    (h : Rejected (r.handle s).1) : SameChoice s (r.handle s).2 ↔ r.Quiet s := by
  by_cases hp : ∃ headBlock current, r.Proceeds s headBlock current
  · obtain ⟨headBlock, current, hp⟩ := hp
    rcases hchange : r.headChange s headBlock current with _ | _ | _
    · rw [handle_of_proceeds hp, hchange] at h
      cases h
    · -- the head's entry named another block before
      have hrewrites : r.Rewrites s headBlock := ⟨current, hp, hchange⟩
      refine ⟨fun hsame => ?_, fun hq => absurd hrewrites (hq.head headBlock)⟩
      obtain ⟨hash, hhash, hne⟩ := hrewrites.takesOver.other
      have hcanonical := congrFun hsame.canonical headBlock.number
      have hwritten : (r.handle s).2.getCanonicalBlockHash headBlock.number =
          some r.forkChoiceState.headBlockHash := by
        change (r.handle s).2.chain.canonicalHashes.lookup headBlock.number = _
        rw [handle_of_rewrites hrewrites]
        exact AList.lookup_insert _
      rw [hwritten] at hcanonical
      exact absurd (Option.some.inj (hhash.symm.trans ((s.chain.canon_toNat _).trans hcanonical.symm))) hne
    · have hquiet : r.Quiet s ↔ r.MarkersQuiet s := by
        refine ⟨fun hq => hq.markers headBlock current hp hchange, fun hq => ⟨?_, fun _ _ _ _ => hq⟩⟩
        rintro headBlock' ⟨current', hp', hchange'⟩
        obtain rfl : headBlock = headBlock' := Option.some.inj (hp.stored.symm.trans hp'.stored)
        obtain rfl : current = current' := Option.some.inj (hp.latest.symm.trans hp'.latest)
        cases hchange.symm.trans hchange'
      rw [handle_of_proceeds hp, hchange] at h ⊢
      rw [hquiet]
      exact updateMarkers_rejected_iff h
  · push Not at hp
    rw [(handle_of_not_proceeds hp).1]
    exact ⟨fun _ => ⟨fun headBlock ⟨current, hpr, _⟩ => hp headBlock current hpr,
      fun headBlock current hpr => absurd hpr (hp headBlock current)⟩, fun _ => .refl s⟩

end

attribute [local instance] forkKeccak noRecovery noBloom idleRevm

/-- The head takes over the entry of its sibling before the finalized block is found missing. -/
theorem rejected_update_rewrites :
    ((forkChoice hashA1 0 1).handle (importedStore [blockA1, blockB1])).1 =
        .error (.error (.invalidForkChoiceState "final block not available in database")) ∧
      (importedStore [blockA1, blockB1]).getCanonicalBlockHash 1 = some (H256.ofNat hashB1) ∧
      ((forkChoice hashA1 0 1).handle (importedStore [blockA1, blockB1])).2.getCanonicalBlockHash 1 =
        some (H256.ofNat hashA1) := by
  decide +kernel

/-- The head is the canonical one, and the finalized block is missing. -/
theorem rejected_update_changes_nothing_sample :
    (forkChoice hashA1 0 1).Proceeds (importedStore [blockA1]) blockA1.header 1 ∧
      ((forkChoice hashA1 0 1).handle (importedStore [blockA1])).1 =
        .error (.error (.invalidForkChoiceState "final block not available in database")) ∧
      SameChoice (importedStore [blockA1]) ((forkChoice hashA1 0 1).handle (importedStore [blockA1])).2 := by
  have hresult : ((forkChoice hashA1 0 1).handle (importedStore [blockA1])).1 =
      .error (.error (.invalidForkChoiceState "final block not available in database")) := by decide +kernel
  have hproceeds : (forkChoice hashA1 0 1).Proceeds (importedStore [blockA1]) blockA1.header 1 :=
    ⟨by decide, by decide +kernel, by decide +kernel, by decide +kernel⟩
  have hkeep : (forkChoice hashA1 0 1).headChange (importedStore [blockA1]) blockA1.header 1 = .keep := by
    decide +kernel
  have hmissing : (importedStore [blockA1]).getBlockByHash (H256.ofNat 1) = none := by decide +kernel
  have hnone (block : Block) : ¬ Marks (importedStore [blockA1]) (H256.ofNat 1) block := by
    rintro ⟨-, hstored, -⟩
    cases hmissing.symm.trans hstored
  refine ⟨hproceeds, hresult, (rejected_update_changes_nothing_iff (forkChoice hashA1 0 1) (importedStore [blockA1])
    (by rw [hresult]; trivial)).mpr ⟨fun headBlock ⟨current, hp, hchange⟩ => ?_, fun _ _ _ _ =>
      ⟨fun block hm => absurd hm (hnone block), fun hn => absurd ⟨by decide, hnone⟩ hn⟩⟩⟩
  obtain rfl := Option.some.inj (hproceeds.stored.symm.trans hp.stored)
  obtain rfl := Option.some.inj (hproceeds.latest.symm.trans hp.latest)
  cases hkeep.symm.trans hchange

end ForkChoiceUpdatedV3
end EthereumRust.Engine
