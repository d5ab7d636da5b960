import EthereumRust.Blockchain.Accepted
import EthereumRust.Engine.ForkChoice

/-! # What a request can do to the chain

An import or a new payload adds its block and makes it canonical, a fork choice update
rewrites the canonical entry of its head, or the chain is left alone. -/

namespace EthereumRust.Engine
open Rlp Mpt Core Storage Evm Blockchain Exec

variable [Keccak256] [Secp256k1] [EthBloom] [Revm]

/-! ## Imports -/

theorem importBlock_cases (block : Block) (s : Store) :
    (∃ s₁, addBlock block s = (.ok (), s₁) ∧
      (importBlock block s).2 = s₁.setCanonicalBlock block.header.number block.header.computeBlockHash) ∨
    (addBlock block s).1 ≠ .ok () ∧ (importBlock block s).2.chainPart = s.chainPart := by
  unfold importBlock
  rcases h : addBlock block s with ⟨(e | m | _) | _, s₁⟩
  · exact .inr ⟨by simp, addBlock_error h⟩
  · exact .inr ⟨by simp, addBlock_error h⟩
  · exact .inr ⟨by simp, addBlock_error h⟩
  · exact .inl ⟨s₁, rfl, rfl⟩

/-! ## New payloads -/

namespace NewPayloadV3Request

/-- The request adds `block`, which has the number after the latest one. -/
structure Adds (r : NewPayloadV3Request) (s s₁ : Store) (block : Block) : Prop where
  converted : r.payload.intoBlock r.parentBeaconBlockRoot = .ok block
  hash : r.payload.blockHash = block.header.computeBlockHash
  next : ∃ latest, s.getLatestBlockNumber = some latest ∧ block.header.number.toNat = latest.toNat + 1
  added : addBlock block s = (.ok (), s₁)
  answer : r.handle s = (.ok (PayloadStatus.validWithHash r.payload.blockHash),
    s₁.setCanonicalBlock block.header.number r.payload.blockHash)

/-- The request leaves the chain alone, and answers `VALID` only for a block that is there. -/
structure Stays (r : NewPayloadV3Request) (s : Store) : Prop where
  chainPart : (r.handle s).2.chainPart = s.chainPart
  known : ∀ status, (r.handle s).1 = .ok status → status.status = .valid →
    ∃ block, r.payload.intoBlock r.parentBeaconBlockRoot = .ok block ∧
      s.getBlockNumber r.payload.blockHash = some block.header.number

variable (block : Block) (s : Store)

theorem execute_cases (blockHash latest : BlockHash) :
    (∃ s₁, addBlock block s = (.ok (), s₁) ∧ execute block blockHash latest s =
      (.ok (PayloadStatus.validWithHash blockHash), s₁.setCanonicalBlock block.header.number blockHash)) ∨
    ((execute block blockHash latest s).2.chainPart = s.chainPart ∧
      ∀ status, (execute block blockHash latest s).1 = .ok status → status.status ≠ .valid) := by
  unfold execute
  rcases h : addBlock block s with ⟨(e | m | _) | _, s₁⟩
  · refine .inr ⟨addBlock_error h, ?_⟩
    intro status hstatus
    cases e <;> cases hstatus <;> exact PayloadValidationStatus.noConfusion
  · exact .inr ⟨addBlock_error h, fun status hs => nomatch hs⟩
  · exact .inr ⟨addBlock_error h, fun status hs => nomatch hs⟩
  · exact .inl ⟨s₁, rfl, rfl⟩

theorem extend_cases (blockHash : BlockHash) :
    (∃ s₁ latest, s.getLatestBlockNumber = some latest ∧ block.header.number.toNat = latest.toNat + 1 ∧
      addBlock block s = (.ok (), s₁) ∧ extend block blockHash s =
      (.ok (PayloadStatus.validWithHash blockHash), s₁.setCanonicalBlock block.header.number blockHash)) ∨
    ((extend block blockHash s).2.chainPart = s.chainPart ∧
      ∀ status, (extend block blockHash s).1 = .ok status → status.status = .valid →
        s.getBlockNumber blockHash = some block.header.number) := by
  simp only [extend, run_bind, run_get]
  rcases hlatest : s.getLatestBlockNumber with _ | latest
  · exact .inr ⟨rfl, fun status hs => nomatch hs⟩
  simp only
  by_cases hle : block.header.number ≤ latest
  · rw [if_pos hle]
    by_cases hknown : s.getBlockNumber blockHash = some block.header.number
    · rw [if_pos hknown]
      exact .inr ⟨rfl, fun _ _ _ => hknown⟩
    · rw [if_neg hknown]
      exact .inr ⟨rfl, fun status hs => nomatch hs⟩
  rw [if_neg hle, run_bind, run_reads]
  rcases hnext : (Rust.u64Add latest 1 : Outcome RpcErr UInt64) with e | next
  · exact .inr ⟨rfl, fun status hs => nomatch hs⟩
  simp only
  by_cases heq : block.header.number = next
  · rw [if_neg (not_not.mpr heq), run_bind, run_mapErr, run_reads]
    rcases hvalid : latestValidHash s with (e | m | _) | hash
    · exact .inr ⟨rfl, fun status hs => nomatch hs⟩
    · exact .inr ⟨rfl, fun status hs => nomatch hs⟩
    · exact .inr ⟨rfl, fun status hs => nomatch hs⟩
    · rcases execute_cases block s blockHash hash with ⟨s₁, hadd, hrun⟩ | ⟨hkeep, hinvalid⟩
      · exact .inl ⟨s₁, latest, rfl, heq ▸ Rust.u64Add_eq_ok.mp hnext, hadd, hrun⟩
      · exact .inr ⟨hkeep, fun status hs hv => absurd hv (hinvalid status hs)⟩
  · rw [if_pos heq]
    exact .inr ⟨rfl, fun status hs hv => by cases hs; cases hv⟩

/-- A request adds its block and makes it canonical, or it leaves the chain alone. -/
theorem handle_cases (r : NewPayloadV3Request) (s : Store) :
    (∃ s₁ block, Adds r s s₁ block) ∨ Stays r s := by
  rcases hblock : r.payload.intoBlock r.parentBeaconBlockRoot with (e | m | _) | block
  · have hrun : r.handle s = (.ok (PayloadStatus.invalidWithErr e.toString), s) := by
      rw [handle, hblock]
      rfl
    exact .inr ⟨by rw [hrun], fun status hs hv => by rw [hrun] at hs; cases hs; cases hv⟩
  · have hrun : r.handle s = (.error (.panic m), s) := by
      rw [handle, hblock]
      rfl
    exact .inr ⟨by rw [hrun], fun status hs => by rw [hrun] at hs; cases hs⟩
  · have hrun : r.handle s = (.error .diverged, s) := by
      rw [handle, hblock]
      rfl
    exact .inr ⟨by rw [hrun], fun status hs => by rw [hrun] at hs; cases hs⟩
  have hrun : r.handle s = r.handleBlock block s := by rw [handle, hblock]
  rw [handleBlock, run_bind, run_reads] at hrun
  rcases hconfig : (s.getChainConfig : Outcome RpcErr ChainConfig) with e | config
  · rw [hconfig] at hrun
    exact .inr ⟨by rw [hrun], fun status hs => by rw [hrun] at hs; cases hs⟩
  rw [hconfig] at hrun
  simp only at hrun
  split at hrun
  · exact .inr ⟨by rw [hrun]; rfl, fun status hs => by rw [hrun] at hs; cases hs⟩
  split at hrun
  · exact .inr ⟨by rw [hrun]; rfl, fun status hs hv => by rw [hrun] at hs; cases hs; cases hv⟩
  rename_i hhash
  split at hrun
  · exact .inr ⟨by rw [hrun]; rfl, fun status hs hv => by rw [hrun] at hs; cases hs; cases hv⟩
  rcases extend_cases block s r.payload.blockHash with
    ⟨s₁, latest, hlatest, hnext, hadd, hext⟩ | ⟨hkeep, hknown⟩
  · exact .inl ⟨s₁, block, hblock, not_not.mp hhash, ⟨latest, hlatest, hnext⟩, hadd, hrun.trans hext⟩
  · exact .inr ⟨by rw [hrun, hkeep], fun status hs hv => ⟨block, hblock, hknown status (by rw [← hrun, hs]) hv⟩⟩

end NewPayloadV3Request

/-! ## Fork choice updates -/

omit [Secp256k1] [EthBloom] in
theorem keeps_buildPayload (args : BuildPayloadArgs) : Exec.Keeps Store.chainPart (buildPayload args) := by
  refine .bind .get fun storage => ?_
  cases storage.getBlockHeaderByHash args.parent with
  | none => exact .fail _
  | some parent =>
    exact .bind (.reads _) fun _ => .bind (.reads _) fun _ => .bind (.reads _) fun _ => .bind (.reads _)
      fun _ => .bind (.mapErr (Store.keeps_applyAccountUpdates _ _) _) fun _ => .pure _

namespace ForkChoiceUpdatedV3

omit [Secp256k1] [EthBloom]

variable (r : ForkChoiceUpdatedV3)

/-- The checks of the head pass: it is stored, its chain has passed the merge, and there is a
latest number. -/
structure Proceeds (s : Store) (headBlock : BlockHeader) (current : BlockNumber) : Prop where
  nonzero : r.forkChoiceState.headBlockHash ≠ H256.zero
  stored : s.getBlockHeaderByHash r.forkChoiceState.headBlockHash = some headBlock
  merged : (totalDifficultyCheck r.forkChoiceState.headBlockHash headBlock s : Outcome RpcErr _) = .ok none
  latest : s.getLatestBlockNumber = some current

def Rewrites (s : Store) (headBlock : BlockHeader) : Prop :=
  ∃ current, r.Proceeds s headBlock current ∧ r.headChange s headBlock current = .setCanonical

variable {r}

theorem handle_of_proceeds (h : r.Proceeds s headBlock current) :
    r.handle s = match r.headChange s headBlock current with
      | .ignore => (.ok (.ignored PayloadStatus.valid), s)
      | .setCanonical =>
        r.updateMarkers (s.setCanonicalBlock headBlock.number r.forkChoiceState.headBlockHash)
      | .keep => r.updateMarkers s := by
  rw [handle]
  simp only [if_neg h.nonzero, run_bind, run_get, h.stored, run_reads, h.merged, updateHead,
    h.latest]
  cases r.headChange s headBlock current <;> rfl

theorem handle_of_not_proceeds (h : ∀ headBlock current, ¬ r.Proceeds s headBlock current) :
    (r.handle s).2 = s ∧ ∀ answer, (r.handle s).1 = .ok answer → answer.status.status = .invalid := by
  rw [handle]
  by_cases hzero : r.forkChoiceState.headBlockHash = H256.zero
  · rw [if_pos hzero]
    exact ⟨rfl, fun answer ha => by cases ha; rfl⟩
  simp only [if_neg hzero, run_bind, run_get]
  rcases hstored : s.getBlockHeaderByHash r.forkChoiceState.headBlockHash with _ | headBlock
  · exact ⟨rfl, fun answer ha => by cases ha⟩
  simp only [run_bind, run_reads]
  rcases hmerged : (totalDifficultyCheck r.forkChoiceState.headBlockHash headBlock s :
      Outcome RpcErr (Option String)) with e | (_ | error)
  · exact ⟨rfl, fun answer ha => by cases ha⟩
  · simp only [updateHead, run_bind, run_get]
    rcases hlatest : s.getLatestBlockNumber with _ | current
    · exact ⟨rfl, fun answer ha => by cases ha⟩
    · exact absurd ⟨hzero, hstored, hmerged, hlatest⟩ (h headBlock current)
  · exact ⟨rfl, fun answer ha => by cases ha; rfl⟩

/-! ### Markers -/

section

omit [Keccak256] [Revm]

/-- The check of a finalized or safe block passes for `block`. -/
structure Marks (s : Store) (blockHash : H256) (block : Block) : Prop where
  nonzero : blockHash ≠ H256.zero
  stored : s.getBlockByHash blockHash = some block
  canonical : s.getCanonicalBlockHash block.header.number = some blockHash

theorem Marks.unique (h : Marks s blockHash block)
    (h' : Marks s blockHash block') : block = block' :=
  Option.some.inj (h.stored.symm.trans h'.stored)

def Refuses (s : Store) (blockHash : H256) : Prop :=
  blockHash ≠ H256.zero ∧ ∀ block, ¬ Marks s blockHash block

/-- A zero hash is passed over; a block that passes its check is marked; the other requests fail. -/
theorem setMarkedBlock_cases (kind : String) (update : Store → BlockNumber → Store) (blockHash : H256)
    (s : Store) :
    blockHash = H256.zero ∧ setMarkedBlock kind update blockHash s = (.ok (), s) ∨
    (∃ block, Marks s blockHash block ∧
      setMarkedBlock kind update blockHash s = (.ok (), update s block.header.number)) ∨
    Refuses s blockHash ∧ ∃ e, setMarkedBlock kind update blockHash s = (.error (.error e), s) := by
  unfold setMarkedBlock
  by_cases hzero : blockHash = H256.zero
  · exact .inl ⟨hzero, by rw [if_pos hzero]; rfl⟩
  refine .inr ?_
  simp only [if_neg hzero, run_bind, run_get]
  rcases hblock : s.getBlockByHash blockHash with _ | block
  · exact .inr ⟨⟨hzero, fun block h => nomatch hblock.symm.trans h.stored⟩, _, rfl⟩
  by_cases hcanon : s.getCanonicalBlockHash block.header.number = some blockHash
  · refine .inl ⟨block, ⟨hzero, hblock, hcanon⟩, ?_⟩
    simp only [if_neg (not_not.mpr hcanon)]
    rfl
  · refine .inr ⟨⟨hzero, fun block' h => ?_⟩, _, by simp only [ne_eq, hcanon, not_false_eq_true, if_true]; rfl⟩
    obtain rfl : block = block' := Option.some.inj (hblock.symm.trans h.stored)
    exact hcanon h.canonical

theorem setMarkedBlock_ok {update : Store → BlockNumber → Store}
    (h : setMarkedBlock kind update blockHash s = (.ok (), s')) (hne : blockHash ≠ H256.zero) :
    ∃ block, Marks s blockHash block ∧ s' = update s block.header.number := by
  rcases setMarkedBlock_cases kind update blockHash s with ⟨hzero, -⟩ | ⟨block, hmarks, hrun⟩ | ⟨-, e, hrun⟩
  · exact absurd hzero hne
  · exact ⟨block, hmarks, (congrArg Prod.snd (hrun.symm.trans h)).symm⟩
  · cases hrun.symm.trans h

theorem keeps_setMarkedBlock (kind : String) (update : Store → BlockNumber → Store)
    (hupdate : ∀ s n, (update s n).chain = s.chain) (blockHash : H256) :
    Exec.Keeps Store.chain (setMarkedBlock kind update blockHash) := by
  intro s
  rcases setMarkedBlock_cases kind update blockHash s with ⟨-, hrun⟩ | ⟨block, -, hrun⟩ | ⟨-, e, hrun⟩
  · rw [hrun]
  · rw [hrun, hupdate]
  · rw [hrun]

theorem Marks.congr (h : s'.chain = s.chain)
    (hm : Marks s blockHash block) : Marks s' blockHash block := by
  refine ⟨hm.nonzero, ?_, ?_⟩
  · have hheaders : s'.headers = s.headers := congrArg Store.Chain.headers h
    have hbodies : s'.bodies = s.bodies := congrArg Store.Chain.bodies h
    rw [Store.getBlockByHash, Store.getBlockHeaderByHash, Store.getBlockBodyByHash, hheaders, hbodies]
    exact hm.stored
  · rw [Store.getCanonicalBlockHash, show s'.canonicalHashes = s.canonicalHashes from
      congrArg Store.Chain.canonicalHashes h]
    exact hm.canonical

end

def withoutPayloads (s : Store) : Store := { s.chainPart with payloads := ∅ }

theorem keeps_startPayload (r : ForkChoiceUpdatedV3) : Exec.Keeps withoutPayloads r.startPayload := by
  unfold startPayload
  cases r.payloadAttributes with
  | none => exact .pure _
  | some attributes =>
    refine .bind (.mapErr (fun s => ?_) _) fun _ => .bind (.modify fun _ => rfl) fun _ => .pure _
    exact congrArg (fun c : Store => { c with payloads := ∅ }) (keeps_buildPayload _ s)

theorem keeps_startPayload_chain (r : ForkChoiceUpdatedV3) : Exec.Keeps Store.chain r.startPayload :=
  fun s => (congrArg Store.chain (keeps_startPayload r s) : (withoutPayloads _).chain = _)

theorem keeps_updateMarkers (r : ForkChoiceUpdatedV3) : Exec.Keeps Store.chain r.updateMarkers :=
  .bind (keeps_setMarkedBlock "final" Store.updateFinalizedBlockNumber (fun _ _ => rfl) _) fun _ =>
    .bind (keeps_setMarkedBlock "safe" Store.updateSafeBlockNumber (fun _ _ => rfl) _) fun _ =>
      .bind (keeps_startPayload_chain r) fun _ => .pure _

theorem updateMarkers_ok {r : ForkChoiceUpdatedV3}
    (h : r.updateMarkers s = (.ok answer, s')) (hfinalized : r.forkChoiceState.finalizedBlockHash ≠ H256.zero)
    (hsafe : r.forkChoiceState.safeBlockHash ≠ H256.zero) :
    ∃ finalized safe, Marks s' r.forkChoiceState.finalizedBlockHash finalized ∧
      Marks s' r.forkChoiceState.safeBlockHash safe ∧
      s'.getFinalizedBlockNumber = some finalized.header.number ∧
      s'.getSafeBlockNumber = some safe.header.number := by
  have hchain : s'.chain = s.chain := by
    have := keeps_updateMarkers r s
    rwa [h] at this
  obtain ⟨_, s₁, h₁, h⟩ := bind_ok_inv h
  obtain ⟨finalized, hf, rfl⟩ := setMarkedBlock_ok h₁ hfinalized
  obtain ⟨_, s₂, h₂, h⟩ := bind_ok_inv h
  obtain ⟨safe, hs, rfl⟩ := setMarkedBlock_ok h₂ hsafe
  obtain ⟨_, s₃, h₃, h⟩ := bind_ok_inv h
  obtain rfl : s₃ = s' := congrArg Prod.snd h
  have hkeep := keeps_startPayload r
    ((s.updateFinalizedBlockNumber finalized.header.number).updateSafeBlockNumber safe.header.number)
  rw [h₃] at hkeep
  have hdata := congrArg Store.chainData hkeep
  refine ⟨finalized, safe, hf.congr hchain, hs.congr (s := s.updateFinalizedBlockNumber _) hchain, ?_, ?_⟩
  · exact congrArg ChainData.finalizedBlockNumber hdata
  · exact congrArg ChainData.safeBlockNumber hdata

/-! ### The handler -/

theorem handle_of_rewrites (h : r.Rewrites s headBlock) :
    (r.handle s).2.chain = s.chain.setCanonicalBlock headBlock.number r.forkChoiceState.headBlockHash := by
  obtain ⟨current, hproceeds, hchange⟩ := h
  rw [handle_of_proceeds hproceeds, hchange]
  exact keeps_updateMarkers r _

theorem handle_of_not_rewrites (h : ∀ headBlock, ¬ r.Rewrites s headBlock) : (r.handle s).2.chain = s.chain := by
  by_cases hproceeds : ∃ headBlock current, r.Proceeds s headBlock current
  · obtain ⟨headBlock, current, hp⟩ := hproceeds
    rw [handle_of_proceeds hp]
    rcases hchange : r.headChange s headBlock current
    · rfl
    · exact absurd ⟨current, hp, hchange⟩ (h headBlock)
    · exact keeps_updateMarkers r s
  · push Not at hproceeds
    rw [(handle_of_not_proceeds hproceeds).1]

theorem stored_of_valid (h : (r.handle s).1 = .ok answer)
    (hvalid : answer.status.status = .valid) :
    ∃ headBlock, s.getBlockHeaderByHash r.forkChoiceState.headBlockHash = some headBlock := by
  by_contra hnone
  have hp : ∀ headBlock current, ¬ r.Proceeds s headBlock current :=
    fun headBlock _ hp => hnone ⟨headBlock, hp.stored⟩
  rw [(handle_of_not_proceeds hp).2 answer h] at hvalid
  cases hvalid

end ForkChoiceUpdatedV3
end EthereumRust.Engine
