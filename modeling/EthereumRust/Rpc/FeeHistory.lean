import EthereumRust.Rpc.FeeMarket

/-! # What the fee history reports -/

namespace EthereumRust.Rpc
open Rlp Core Storage Blockchain Engine List Outcome Rust

/-! ## Rewards -/

/-- The percentiles are in order and from 0 to 100. -/
structure ValidPercentiles (percentiles : List F32) : Prop where
  ordered : percentiles.Pairwise fun x y => x.le y
  within : ∀ x ∈ percentiles, (Flt.ofNat 0).le x ∧ x.le (.ofNat 100)

/-- What a transaction pays above the base fee. The rewards take it to be zero where a transaction has one price. -/
def priorityFee (baseFeePerGas : UInt64) : Transaction → UInt64
  | .legacyTransaction t => Rust.saturatingSub t.gasPrice baseFeePerGas
  | .eip2930Transaction t => Rust.saturatingSub t.gasPrice baseFeePerGas
  | .eip1559Transaction t => min t.maxPriorityFeePerGas (Rust.saturatingSub t.maxFeePerGas baseFeePerGas)
  | .eip4844Transaction t => min t.maxPriorityFeePerGas (Rust.saturatingSub t.maxFeePerGas baseFeePerGas)

def priorityFees (block : Block) : List UInt64 :=
  block.body.transactions.map (priorityFee (block.header.baseFeePerGas.getD 0))

/-- A transaction with one price pays no more than the base fee. -/
def Tipless (baseFeePerGas : UInt64) : Transaction → Prop
  | .legacyTransaction t => t.gasPrice ≤ baseFeePerGas
  | .eip2930Transaction t => t.gasPrice ≤ baseFeePerGas
  | _ => True

/-- The fees of a block's transactions by percentile. -/
structure MonotoneRewards (percentiles : List F32) (block : Block) : Prop where
  valid : ValidPercentiles percentiles
  length : (calculatePercentilesForBlock block percentiles).length = percentiles.length
  ordered : (calculatePercentilesForBlock block percentiles).Pairwise (· ≤ ·)
  fees : ∀ reward ∈ calculatePercentilesForBlock block percentiles, reward ∈ priorityFees block
  smallest : ∀ pair ∈ percentiles.zip (calculatePercentilesForBlock block percentiles), pair.1 = .ofNat 0 →
    ∀ fee ∈ priorityFees block, pair.2 ≤ fee
  largest : ∀ pair ∈ percentiles.zip (calculatePercentilesForBlock block percentiles), pair.1 = .ofNat 100 →
    ∀ fee ∈ priorityFees block, fee ≤ pair.2

section

variable {count : Nat} {percentiles : List F32}

theorem ofNat_f32 {n : Nat} (h : n < 2 ^ 24) : ∃ hn : binary32.Represents n, (Flt.ofNat n : F32) = .finite n hn :=
  Flt.ofNat_eq_finite (by decide) (by decide) h

theorem finite_of_within (hlow : (Flt.ofNat 0).le x) (hhigh : x.le (.ofNat 100)) :
    ∃ (v : ℚ) (hv : binary32.Represents v), 0 ≤ v ∧ x = .finite v hv := by
  obtain ⟨hzero, heq⟩ := @ofNat_f32 0 (by decide)
  obtain ⟨hhundred, heq'⟩ := @ofNat_f32 100 (by decide)
  rw [heq] at hlow
  rw [heq'] at hhigh
  match x with
  | .finite v hv =>
    exact ⟨v, hv, by simpa using hlow, rfl⟩
  | .infinity false => cases hhigh

theorem percentileIndex_mono (hx : (Flt.ofNat 0).le x ∧ x.le (.ofNat 100)) (hy : (Flt.ofNat 0).le y ∧ y.le (.ofNat 100))
    (h : x.le y) : percentileIndex count x ≤ percentileIndex count y := by
  obtain ⟨v, hv, hvpos, rfl⟩ := finite_of_within hx.1 hx.2
  obtain ⟨w, hw, hwpos, rfl⟩ := finite_of_within hy.1 hy.2
  obtain ⟨hhundred, heq⟩ := @ofNat_f32 100 (by decide)
  rw [Flt.finite_le_finite] at h
  unfold percentileIndex
  rw [heq]
  rcases @Flt.ofNat_cases binary32 count with hcount | ⟨t, ht, htpos, hcount⟩
  · -- more transactions than an `f32` can count
    rw [hcount]
    rcases hvpos.eq_or_lt with rfl | hvlt
    · simp [Flt.mul, Flt.isZero, Flt.div, Flt.toUsize]
    · simp [Flt.mul, Flt.isZero, Flt.isNegative, hvlt.ne', (hvlt.trans_le h).ne', not_lt.mpr hvpos, not_lt.mpr hwpos]
  · rw [hcount]
    refine Flt.toUsize_mono (Flt.div_le_div_right (by norm_num) hhundred ?_)
    exact Flt.ofRat_le_ofRat (mul_le_mul_of_nonneg_right h htpos)

theorem percentileIndex_zero : percentileIndex count (.ofNat 0) = 0 := by
  obtain ⟨hzero, heq⟩ := @ofNat_f32 0 (by decide)
  obtain ⟨hhundred, heq'⟩ := @ofNat_f32 100 (by decide)
  have hnearest : (Flt.ofRat 0 : F32) = .finite 0 (by simpa using hzero) := by simpa [Flt.ofNat] using heq
  unfold percentileIndex
  rw [heq, heq']
  rcases @Flt.ofNat_cases binary32 count with hcount | ⟨t, ht, htpos, hcount⟩
  · simp [hcount, Flt.mul, Flt.isZero, Flt.div, Flt.toUsize]
  · simp [hcount, Flt.mul, Flt.div, hnearest, Flt.toUsize]

def rewardAt (block : Block) (x : F32) : UInt64 :=
  ((effectivePriorityFees block)[percentileIndex (effectivePriorityFees block).length x]?).getD 0

theorem calculatePercentilesForBlock_eq (block : Block) (percentiles : List F32) :
    calculatePercentilesForBlock block percentiles = percentiles.map (rewardAt block) := rfl

theorem mem_zip_rewards :
    pair ∈ percentiles.zip (calculatePercentilesForBlock block percentiles) ↔
      ∃ x ∈ percentiles, (x, rewardAt block x) = pair := by
  rw [calculatePercentilesForBlock_eq, ← map_prod_left_eq_zip, mem_map]

theorem perm_effectivePriorityFees
    (h : ∀ tx ∈ block.body.transactions, Tipless (block.header.baseFeePerGas.getD 0) tx) :
    effectivePriorityFees block ~ priorityFees block := by
  refine (perm_insertionSort _ _).trans (Perm.of_eq (map_congr_left fun tx htx => ?_))
  have hzero {price base : UInt64} (hle : price ≤ base) : 0 = Rust.saturatingSub price base := by
    rw [← UInt64.toNat_inj, toNat_saturatingSub]
    exact (Nat.sub_eq_zero_of_le hle).symm
  cases tx with
  | legacyTransaction t => exact hzero (h _ htx)
  | eip2930Transaction t => exact hzero (h _ htx)
  | eip1559Transaction | eip4844Transaction => rfl

theorem pairwise_effectivePriorityFees : (effectivePriorityFees block).Pairwise (· ≤ ·) :=
  have : IsTrans UInt64 (· ≤ ·) := ⟨fun _ _ _ => UInt64.le_trans⟩
  pairwise_insertionSort _ _

theorem rewardAt_of_le (h : (effectivePriorityFees block).length ≤
    percentileIndex (effectivePriorityFees block).length x) :
    rewardAt block x = 0 := by
  rw [rewardAt, List.getElem?_eq_none h, Option.getD_none]

theorem rewardAt_of_lt (h : percentileIndex (effectivePriorityFees block).length x <
    (effectivePriorityFees block).length) :
    rewardAt block x = (effectivePriorityFees block).get ⟨_, h⟩ := by
  rw [rewardAt, List.getElem?_eq_getElem h, Option.getD_some, get_eq_getElem]

/-- What holds up to some number holds of the fees before its count. -/
theorem get_iff_lt_countP {fees : List UInt64} (hsorted : fees.Pairwise (· ≤ ·)) (p : UInt64 → Bool)
    (hdown : ∀ a b, a ≤ b → p b → p a) (i : Fin fees.length) : p (fees.get i) ↔ i.1 < fees.countP p := by
  induction fees with
  | nil => exact i.elim0
  | cons fee fees ih =>
    obtain ⟨hle, hsorted⟩ := pairwise_cons.mp hsorted
    cases hp : p fee with
    | true =>
      rw [countP_cons_of_pos hp]
      cases i using Fin.cases with
      | zero => exact iff_of_true hp (Nat.succ_pos _)
      | succ i => exact (ih hsorted i).trans Nat.succ_lt_succ_iff.symm
    | false =>
      have hnone (b : UInt64) (hb : b ∈ fee :: fees) : ¬ p b := by
        intro hpb
        rcases mem_cons.mp hb with rfl | hb
        · simp [hp] at hpb
        · simp [hdown fee b (hle b hb) hpb] at hp
      rw [countP_eq_zero.mpr hnone]
      exact iff_of_false (hnone _ (get_mem _ _)) (Nat.not_lt_zero _)

section

variable {block : Block} (hperm : effectivePriorityFees block ~ priorityFees block)
include hperm

theorem length_fees : (effectivePriorityFees block).length = block.body.transactions.length :=
  hperm.length_eq.trans (length_map _)

/-- The reward for an index within the block is a fee that has at most as many before it. -/
theorem rewardAt_spec (h : percentileIndex block.body.transactions.length x < block.body.transactions.length) :
    rewardAt block x ∈ priorityFees block ∧
    (rewardAt block x = 0 ↔ percentileIndex block.body.transactions.length x < (priorityFees block).count 0) ∧
    ∀ fee, fee ≤ rewardAt block x ↔
      (priorityFees block).countP (· < fee) ≤ percentileIndex block.body.transactions.length x := by
  rw [← length_fees hperm] at h ⊢
  rw [rewardAt_of_lt h]
  refine ⟨hperm.subset (get_mem _ _), ?_, fun fee => ?_⟩
  · have hcount := get_iff_lt_countP pairwise_effectivePriorityFees (· == 0) (fun a b hle hb => by
      rw [beq_iff_eq] at hb ⊢
      exact UInt64.le_zero_iff.mp (hb ▸ hle)) ⟨_, h⟩
    rw [beq_iff_eq, hperm.countP_eq] at hcount
    exact hcount
  · have hcount := get_iff_lt_countP pairwise_effectivePriorityFees (· < fee) (fun a b hle hb => by
      rw [decide_eq_true_iff] at hb ⊢
      exact UInt64.lt_of_le_of_lt hle hb) ⟨_, h⟩
    rw [decide_eq_true_iff, hperm.countP_eq] at hcount
    rw [← UInt64.not_lt, hcount, not_lt]

theorem rewardAt_beyond (h : block.body.transactions.length ≤ percentileIndex block.body.transactions.length x) :
    rewardAt block x = 0 := by
  rw [← length_fees hperm] at h
  exact rewardAt_of_le h

theorem rewardAt_mono (hx : (Flt.ofNat 0).le x ∧ x.le (.ofNat 100)) (hy : (Flt.ofNat 0).le y ∧ y.le (.ofNat 100))
    (h : x.le y) (hlt : percentileIndex block.body.transactions.length y < block.body.transactions.length) :
    rewardAt block x ≤ rewardAt block y := by
  rw [← length_fees hperm] at hlt
  have hindex : percentileIndex (effectivePriorityFees block).length x ≤ _ := percentileIndex_mono hx hy h
  rw [rewardAt_of_lt hlt, rewardAt_of_lt (hindex.trans_lt hlt)]
  exact pairwise_effectivePriorityFees.rel_get_of_le hindex

theorem rewardAt_zero_le (h : fee ∈ priorityFees block) : rewardAt block (.ofNat 0) ≤ fee := by
  obtain ⟨i, rfl⟩ := get_of_mem (hperm.symm.subset h)
  have hlt : percentileIndex (effectivePriorityFees block).length (.ofNat 0) <
      (effectivePriorityFees block).length := by
    rw [percentileIndex_zero]
    exact i.pos
  rw [rewardAt_of_lt hlt]
  refine pairwise_effectivePriorityFees.rel_get_of_le ?_
  change percentileIndex _ _ ≤ i.val
  rw [percentileIndex_zero]
  exact Nat.zero_le _

end

/-- With a percentile beyond the last fee all rewards are zero, since they are in order. -/
theorem MonotoneRewards.rewardAt_eq_zero (h : MonotoneRewards percentiles block) (hx : x ∈ percentiles)
    (hlarge : (effectivePriorityFees block).length ≤ percentileIndex (effectivePriorityFees block).length x)
    (hy : y ∈ percentiles) : rewardAt block y = 0 := by
  have hordered : percentiles.Pairwise fun x y => x.le y ∧ rewardAt block x ≤ rewardAt block y := by
    refine h.valid.ordered.and ?_
    have hrewards := h.ordered
    rwa [calculatePercentilesForBlock_eq, pairwise_map] at hrewards
  -- one of two percentiles comes first
  have heither : percentiles.Pairwise fun x y =>
      (x.le y ∧ rewardAt block x ≤ rewardAt block y) ∨ (y.le x ∧ rewardAt block y ≤ rewardAt block x) :=
    hordered.imp .inl
  have hsymm : Std.Symm fun x y : F32 =>
      (x.le y ∧ rewardAt block x ≤ rewardAt block y) ∨ (y.le x ∧ rewardAt block y ≤ rewardAt block x) :=
    ⟨fun _ _ => Or.symm⟩
  rcases eq_or_ne x y with rfl | hne
  · exact rewardAt_of_le hlarge
  rcases heither.forall hx hy hne with ⟨hle, -⟩ | ⟨-, hle⟩
  · exact rewardAt_of_le (hlarge.trans (percentileIndex_mono (h.valid.within x hx) (h.valid.within y hy) hle))
  · rw [rewardAt_of_le hlarge] at hle
    exact UInt64.le_zero_iff.mp hle

end

/-- In a block where transactions with one price pay no tip the rewards are in order and belong to transactions exactly
if the percentiles are valid, which `parse` lets pass otherwise too, and either all of them have a place among the fees,
that of 100 being no smaller fee than any, or some fee is zero and they all lie beyond the fees or among the zeros; with
100 all fees are zero. -/
theorem monotoneRewards_iff {params : Option (List Value)} {request : FeeHistoryRequest} {percentiles : List F32}
    {block : Block} (_haccepted : FeeHistoryRequest.parse params = .ok request)
    (_hpercentiles : request.rewardPercentiles = some percentiles) (_hblock : block.body.transactions ≠ [])
    (htipless : ∀ tx ∈ block.body.transactions, Tipless (block.header.baseFeePerGas.getD 0) tx) :
    MonotoneRewards percentiles block ↔
      ValidPercentiles percentiles ∧
      ((∀ x ∈ percentiles,
          percentileIndex block.body.transactions.length x < block.body.transactions.length ∧
          (x = .ofNat 100 → ∀ fee ∈ priorityFees block,
            (priorityFees block).countP (· < fee) ≤ percentileIndex block.body.transactions.length x)) ∨
        (0 ∈ priorityFees block ∧
          ∀ x ∈ percentiles, (block.body.transactions.length ≤ percentileIndex block.body.transactions.length x ∨
              percentileIndex block.body.transactions.length x < (priorityFees block).count 0) ∧
            (x = .ofNat 100 → ∀ fee ∈ priorityFees block, fee = 0))) := by
  have hperm := perm_effectivePriorityFees htipless
  have hzero (x : F32) (hx : block.body.transactions.length ≤ percentileIndex block.body.transactions.length x ∨
      percentileIndex block.body.transactions.length x < (priorityFees block).count 0) : rewardAt block x = 0 := by
    rcases le_or_gt block.body.transactions.length (percentileIndex block.body.transactions.length x) with hle | hlt
    · exact rewardAt_beyond hperm hle
    · exact (rewardAt_spec hperm hlt).2.1.mpr (hx.resolve_left (not_le.mpr hlt))
  constructor
  · intro h
    have hlargest : ∀ x ∈ percentiles, x = .ofNat 100 → ∀ fee ∈ priorityFees block, fee ≤ rewardAt block x :=
      fun x hx => h.largest _ (mem_zip_rewards.mpr ⟨x, hx, rfl⟩)
    refine ⟨h.valid, ?_⟩
    by_cases hall : ∀ x ∈ percentiles,
        percentileIndex block.body.transactions.length x < block.body.transactions.length
    · exact .inl fun x hx => ⟨hall x hx, fun hundred fee hfee =>
        ((rewardAt_spec hperm (hall x hx)).2.2 fee).mp (hlargest x hx hundred fee hfee)⟩
    · push Not at hall
      obtain ⟨x, hx, hlarge⟩ := hall
      have hrewards : ∀ y ∈ percentiles, rewardAt block y = 0 := by
        rw [← length_fees hperm] at hlarge
        exact fun y hy => h.rewardAt_eq_zero hx hlarge hy
      refine .inr ⟨?_, fun y hy => ⟨?_, fun hundred fee hfee => ?_⟩⟩
      · exact hrewards x hx ▸ h.fees _ (List.mem_map_of_mem hx)
      · exact or_iff_not_imp_left.mpr fun hlt => (rewardAt_spec hperm (not_le.mp hlt)).2.1.mp (hrewards y hy)
      · have hle := hlargest y hy hundred fee hfee
        rw [hrewards y hy] at hle
        exact UInt64.le_zero_iff.mp hle
  · rintro ⟨hvalid, hcases⟩
    refine ⟨hvalid, List.length_map _, ?_, ?_, ?_, ?_⟩
    · rw [calculatePercentilesForBlock_eq, List.pairwise_map]
      refine hvalid.ordered.imp_of_mem fun hx hy hle => ?_
      rcases hcases with hall | ⟨-, hzeros⟩
      · exact rewardAt_mono hperm (hvalid.within _ hx) (hvalid.within _ hy) hle (hall _ hy).1
      · rw [hzero _ (hzeros _ hx).1, hzero _ (hzeros _ hy).1]
        exact UInt64.le_refl 0
    · intro reward hreward
      obtain ⟨x, hx, rfl⟩ := List.mem_map.mp hreward
      change rewardAt block x ∈ _
      rcases hcases with hall | ⟨hmem, hzeros⟩
      · exact (rewardAt_spec hperm (hall x hx).1).1
      · rwa [hzero x (hzeros x hx).1]
    · intro pair hpair hfirst fee hfee
      obtain ⟨x, -, rfl⟩ := mem_zip_rewards.mp hpair
      obtain rfl : x = .ofNat 0 := hfirst
      exact rewardAt_zero_le hperm hfee
    · intro pair hpair hundred fee hfee
      obtain ⟨x, hx, rfl⟩ := mem_zip_rewards.mp hpair
      rcases hcases with hall | ⟨-, hzeros⟩
      · exact ((rewardAt_spec hperm (hall x hx).1).2.2 fee).mpr ((hall x hx).2 hundred fee hfee)
      · rw [(hzeros x hx).2 hundred fee hfee]
        exact UInt64.zero_le

def blockWithFees (fees : List UInt64) : Block where
  header := { headerWithExcess 0 with baseFeePerGas := some 10 }
  body := ⟨fees.map fun fee =>
    .eip1559Transaction ⟨1, 0, fee, 100, 21000, .create, 0, ⟨[]⟩, [], false, 0, 0⟩, [], none⟩

def paramsWithPercentiles (percentiles : List UInt64) : Option (List Value) :=
  some [.string "0x1", .string "latest", .array (percentiles.map (.number ∘ .posInt))]

theorem validPercentiles_zero_fifty : ValidPercentiles [.ofNat 0, .ofNat 50] := by
  constructor <;> decide +kernel

/-- Half of two transactions. -/
theorem monotoneRewards_iff_zero_fifty :
    (FeeHistoryRequest.parse (paramsWithPercentiles [0, 50]) =
        .ok ⟨1, .number 1, some [.ofNat 0, .ofNat 50]⟩ ∧
      (blockWithFees [2, 1]).body.transactions ≠ []) ∧
    MonotoneRewards [.ofNat 0, .ofNat 50] (blockWithFees [2, 1]) := by
  have hparse : FeeHistoryRequest.parse (paramsWithPercentiles [0, 50]) =
      .ok ⟨1, .number 1, some [.ofNat 0, .ofNat 50]⟩ := by decide +kernel
  have hblock : (blockWithFees [2, 1]).body.transactions ≠ [] := by decide
  refine ⟨⟨hparse, hblock⟩, (monotoneRewards_iff hparse rfl hblock ?_).mpr ⟨validPercentiles_zero_fifty, .inl ?_⟩⟩
  · intro tx htx
    obtain ⟨fee, -, rfl⟩ := List.mem_map.mp htx
    trivial
  · decide +kernel

/-- Percentiles out of order are accepted, 100 lies beyond the last fee, and the tip of a transaction with one price is
not counted. -/
theorem rewards_out_of_order :
    FeeHistoryRequest.parse (paramsWithPercentiles [50, 10]) =
      .ok ⟨1, .number 1, some [.ofNat 50, .ofNat 10]⟩ ∧
    calculatePercentilesForBlock (blockWithFees [2, 1]) [.ofNat 50, .ofNat 10] = [2, 1] ∧
    FeeHistoryRequest.parse (paramsWithPercentiles [100]) = .ok ⟨1, .number 1, some [.ofNat 100]⟩ ∧
    calculatePercentilesForBlock (blockWithFees [2, 1]) [.ofNat 100] = [0] ∧
    let legacy : Block := ⟨(blockWithFees []).header,
      ⟨[.legacyTransaction ⟨0, 15, 0, .create, 0, ⟨[]⟩, 0, 0, 0⟩], [], none⟩⟩
    calculatePercentilesForBlock legacy [.ofNat 50] = [0] ∧ priorityFees legacy = [5] := by
  decide +kernel

/-! ## Blocks -/

/-- The blocks of a chain by their numbers. -/
structure CanonicalChain (storage : Store) (earliest latest : BlockNumber) : Prop where
  first : storage.getEarliestBlockNumber = some earliest
  last : storage.getLatestBlockNumber = some latest
  headers : ∀ number, earliest ≤ number → number ≤ latest → (storage.getBlockHeader number).isSome
  bodies : ∀ number, earliest ≤ number → number ≤ latest → (storage.getBlockBody number).isSome

/-- The answer is about the blocks from one to another. -/
structure FeeHistoryResponse.Covers (response : FeeHistoryResponse) (storage : Store) (oldest newest : Nat) : Prop where
  oldestBlock : response.oldestBlock = u64ToHexStr (UInt64.ofNat oldest)
  blocks : ∃ headers : List BlockHeader,
    headers.map some = (blockNumbers oldest (newest + 1 - oldest)).map storage.getBlockHeader ∧
    response.gasUsedRatio = headers.map FeeHistoryRequest.gasUsedRatio ∧
    response.blobGasUsedRatio = headers.map FeeHistoryRequest.blobGasUsedRatio ∧
    response.baseFeePerGas.length = headers.length + 1 ∧
    response.baseFeePerBlobGas.length = headers.length + 1

namespace FeeHistoryRequest

section

variable {count : BlockNumber} {self : FeeHistoryRequest}

theorem blockFees_ok (h : self.blockFees storage number = .ok fees) :
    ∃ header, storage.getBlockHeader number = some header ∧ (header.excessBlobGas.getD 0).toNat ≤ 46488065 ∧
      fees.gasUsedRatio = gasUsedRatio header ∧ fees.blobGasUsedRatio = blobGasUsedRatio header := by
  unfold blockFees at h
  split at h
  · rename_i header body hheader hbody
    obtain ⟨fee, hfee, h⟩ := bind_ok_inv h
    cases h
    exact ⟨header, hheader, calculateBaseFeePerBlobGas_returns_iff.mp ⟨fee, hfee⟩, rfl, rfl⟩
  · cases h

theorem blockFees_returns (hheader : storage.getBlockHeader number = some header)
    (hbody : (storage.getBlockBody number).isSome) (hexcess : (header.excessBlobGas.getD 0).toNat ≤ 46488065) :
    ∃ fees, self.blockFees storage number = .ok fees := by
  obtain ⟨body, hbody⟩ := Option.isSome_iff_exists.mp hbody
  obtain ⟨fee, hfee⟩ := (calculateBaseFeePerBlobGas_returns_iff (ε := RpcErr)).mpr hexcess
  exact ⟨_, by simp only [blockFees, hheader, hbody, hfee, bind_ok]; rfl⟩

theorem blockFeesFrom_ok
    (hword : start.toNat + blocks < wordSize) (h : self.blockFeesFrom storage blocks start = .ok fees) :
    ∃ headers : List BlockHeader,
      headers.map some = (blockNumbers start.toNat blocks).map storage.getBlockHeader ∧
      (∀ header ∈ headers, (header.excessBlobGas.getD 0).toNat ≤ 46488065) ∧
      fees.map BlockFees.gasUsedRatio = headers.map gasUsedRatio ∧
      fees.map BlockFees.blobGasUsedRatio = headers.map blobGasUsedRatio := by
  induction blocks generalizing start fees with
  | zero =>
    cases h
    exact ⟨[], rfl, by simp, rfl, rfl⟩
  | succ blocks ih =>
    obtain ⟨first, hfirst, h⟩ := bind_ok_inv h
    obtain ⟨rest, hrest, h⟩ := bind_ok_inv h
    cases h
    obtain ⟨header, hheader, hexcess, hgas, hblob⟩ := blockFees_ok hfirst
    have hnext : (start + 1).toNat = start.toNat + 1 :=
      Nat.mod_eq_of_lt (show start.toNat + 1 < 2 ^ 64 by unfold wordSize at hword; omega)
    obtain ⟨headers, hheaders, hbound, hgas', hblob'⟩ := ih (by omega) hrest
    refine ⟨header :: headers, ?_, ?_, ?_, ?_⟩
    · rw [blockNumbers_succ start hword, map_cons, map_cons, hheaders, hheader]
    · exact forall_mem_cons.mpr ⟨hexcess, hbound⟩
    · rw [map_cons, map_cons, hgas, hgas']
    · rw [map_cons, map_cons, hblob, hblob']

theorem blockFeesFrom_returns (hword : start.toNat + blocks < wordSize)
    (h : ∀ number ∈ blockNumbers start.toNat blocks, ∃ fees, self.blockFees storage number = .ok fees) :
    ∃ fees, self.blockFeesFrom storage blocks start = .ok fees := by
  induction blocks generalizing start with
  | zero => exact ⟨[], rfl⟩
  | succ blocks ih =>
    rw [blockNumbers_succ start hword, forall_mem_cons] at h
    obtain ⟨⟨first, hfirst⟩, hrest⟩ := h
    have hnext : (start + 1).toNat = start.toNat + 1 :=
      Nat.mod_eq_of_lt (show start.toNat + 1 < 2 ^ 64 by unfold wordSize at hword; omega)
    obtain ⟨rest, hrest⟩ := ih (by omega) hrest
    exact ⟨first :: rest, by rw [blockFeesFrom, hfirst, bind_ok, hrest]; rfl⟩

/-- With the count as the newest block too, the range ends one block after it or at the latest. -/
theorem getRange_eq_ok (chain : CanonicalChain storage earliest latest) :
    getRange storage count (.number count) = .ok (start, finish) ↔
      count.toNat + 1 < wordSize ∧ finish.toNat = min (count.toNat + 1) latest.toNat ∧
        start.toNat = max earliest.toNat (finish.toNat - count.toNat) := by
  have hone : (1 : UInt64).toNat = 1 := rfl
  simp only [getRange, chain.first, chain.last, BlockIdentifier.resolveBlockNumber]
  constructor
  · intro h
    obtain ⟨next, hnext, h⟩ := bind_ok_inv h
    have hnext := u64Add_eq_ok.mp hnext
    have hword := toNat_lt_wordSize next
    cases h
    rw [toNat_max, toNat_saturatingSub, toNat_min, hnext, hone]
    exact ⟨by omega, rfl, rfl⟩
  · rintro ⟨hword, hfinish, hstart⟩
    obtain ⟨next, hnext⟩ := exists_toNat_eq hword
    rw [u64Add_eq_ok.mpr hnext]
    obtain rfl : min next latest = finish := UInt64.toNat_inj.mp (by rw [toNat_min, hnext, hfinish])
    refine congrArg Except.ok (Prod.ext (UInt64.toNat_inj.mp ?_) rfl)
    rw [toNat_max, toNat_saturatingSub, hstart]

/-- The second parameter is not looked at. -/
theorem parse_two (hdigits : hexDigits countText = some digits)
    (hcount : fromStrRadix digits = some count) (newestValue : Value) :
    parse (some [.string countText, newestValue]) = .ok ⟨count, .number count, none⟩ := by
  simp only [parse, parseBlockCount,
    hdigits, hcount, BlockIdentifier.parse_of_hexDigits hdigits hcount]
  rfl

theorem handle_ok (hzero : count ≠ 0)
    (h : handle ⟨count, .number count, none⟩ storage = .ok response) :
    ∃ start finish : BlockNumber, getRange storage count (.number count) = .ok (start, finish) ∧
      start.toNat ≤ finish.toNat ∧
      (∀ header, storage.getBlockHeader finish = some header → (header.excessBlobGas.getD 0).toNat ≤ 46488065) ∧
      response.oldestBlock = u64ToHexStr start ∧
      ∃ headers : List BlockHeader,
        headers.map some = (blockNumbers start.toNat (finish.toNat - start.toNat)).map storage.getBlockHeader ∧
        (∀ header ∈ headers, (header.excessBlobGas.getD 0).toNat ≤ 46488065) ∧
        response.gasUsedRatio = headers.map gasUsedRatio := by
  rw [handle, if_neg hzero] at h
  obtain ⟨⟨start, finish⟩, hrange, h⟩ := bind_ok_inv h
  obtain ⟨blocks, hblocks, h⟩ := bind_ok_inv h
  obtain ⟨fees, hfees, h⟩ := bind_ok_inv h
  have hblocks := u64Sub_eq_ok.mp hblocks
  have hword := toNat_lt_wordSize finish
  obtain ⟨headers, hheaders, hbound, hgas, -⟩ := blockFeesFrom_ok (by omega) hfees
  split at h
  · cases h
  · rename_i header hheader
    obtain ⟨fee, hfee, h⟩ := bind_ok_inv h
    cases h
    refine ⟨start, finish, hrange, by omega, ?_, rfl, headers, ?_, hbound, hgas⟩
    · intro header' hheader'
      obtain rfl := Option.some.inj (hheader.symm.trans hheader')
      exact calculateBaseFeePerBlobGas_returns_iff.mp ⟨fee, hfee⟩
    · rw [hheaders, hblocks, Nat.add_sub_cancel]

/-- If no blob fee of the range overflows, there is an answer about its blocks. -/
theorem handle_covers (hzero : count ≠ 0)
    (hrange : getRange storage count (.number count) = .ok (start, finish)) (hle : start.toNat < finish.toNat)
    (hblocks : ∀ number : BlockNumber, start.toNat ≤ number.toNat → number.toNat ≤ finish.toNat →
      ∃ header, storage.getBlockHeader number = some header ∧ (storage.getBlockBody number).isSome ∧
        (header.excessBlobGas.getD 0).toNat ≤ 46488065) :
    ∃ response, handle ⟨count, .number count, none⟩ storage = .ok response ∧
      response.Covers storage start.toNat (finish.toNat - 1) := by
  have hword := toNat_lt_wordSize finish
  obtain ⟨blocks, hcount⟩ := exists_toNat_eq (show finish.toNat - start.toNat < wordSize by omega)
  have hsum : start.toNat + blocks.toNat < wordSize := by omega
  obtain ⟨fees, hfees⟩ : ∃ fees, blockFeesFrom ⟨count, .number count, none⟩ storage blocks.toNat start = .ok fees := by
    refine blockFeesFrom_returns hsum fun number hnumber => ?_
    obtain ⟨hlow, hhigh⟩ := (mem_blockNumbers hsum).mp hnumber
    obtain ⟨header, hheader, hbody, hexcess⟩ := hblocks number hlow (by omega)
    exact blockFees_returns hheader hbody hexcess
  obtain ⟨last, hlast, -, hexcess⟩ := hblocks finish hle.le le_rfl
  obtain ⟨fee, hfee⟩ := (calculateBaseFeePerBlobGas_returns_iff (ε := RpcErr)).mpr hexcess
  obtain ⟨headers, hheaders, -, hgas, hblob⟩ := blockFeesFrom_ok hsum hfees
  have hlength : fees.length = headers.length := by simpa using congrArg List.length hgas
  refine ⟨_, by
    simp only [handle, if_neg hzero, hrange, bind_ok, hfees, hlast, hfee,
      u64Sub_eq_ok.mpr (show finish.toNat = blocks.toNat + start.toNat by omega)]
    rfl, ?_, headers, ?_, hgas, hblob, ?_, ?_⟩
  · rw [UInt64.ofNat_toNat]
  · rw [hheaders, hcount, Nat.sub_add_cancel (by omega)]
  · simp [hlength]
  · simp [hlength]

end

def oldestRequested (earliest count newest : BlockNumber) : Nat := max earliest.toNat (newest.toNat + 1 - count.toNat)

/-- The answer is about the blocks that were asked for exactly if the newest one happens to be that of the number
`count`, or the last but one with `count` not below the latest: the newest block is read from the first parameter, and
the latest block is left out. Some blob fees overflow. -/
theorem feeHistory_covers_iff {storage : Store} {earliest latest count newest : BlockNumber}
    (chain : CanonicalChain storage earliest latest) (hcount : 1 ≤ count) (hfirst : earliest ≤ newest)
    (hlast : newest ≤ latest) {countText : String} {digits : List Char} {newestValue : Value}
    {newestBlock : BlockIdentifier} (hdigits : hexDigits countText = some digits)
    (hread : fromStrRadix digits = some count) (_hparse : BlockIdentifier.parse newestValue 1 = .ok newestBlock)
    (_hresolve : newestBlock.resolveBlockNumber storage = some newest) :
    (∃ response, (do
        let request ← parse (some [.string countText, newestValue])
        request.handle storage) = .ok response ∧
      response.Covers storage (oldestRequested earliest count newest) newest.toNat) ↔
    (newest = count ∧ newest < latest ∨
      newest.toNat + 1 = latest.toNat ∧ latest ≤ count ∧ count.toNat + 1 < 2 ^ 64) ∧
    ∀ number header, oldestRequested earliest count newest ≤ number.toNat → number.toNat ≤ newest.toNat + 1 →
      storage.getBlockHeader number = some header → (header.excessBlobGas.getD 0).toNat ≤ 46488065 := by
  have hzero : count ≠ 0 := by
    rintro rfl
    exact absurd hcount (by decide)
  have hpos : 1 ≤ count.toNat := hcount
  have hle : earliest.toNat ≤ newest.toNat := hfirst
  have hle' : newest.toNat ≤ latest.toNat := hlast
  have hword : latest.toNat < 2 ^ 64 := latest.toNat_lt
  rw [parse_two hdigits hread newestValue]
  simp only [← UInt64.toNat_inj, UInt64.lt_iff_toNat_lt, UInt64.le_iff_toNat_le]
  constructor
  · rintro ⟨response, hresponse, hcovers⟩
    obtain ⟨start, finish, hrange, hordered, hexcess, holdest, headers, hheaders, hbound, hgas⟩ :=
      handle_ok hzero hresponse
    obtain ⟨hfits, hfinish, hstart⟩ := (getRange_eq_ok chain).mp hrange
    obtain ⟨headers', hheaders', hgas', -⟩ := hcovers.blocks
    have hold : oldestRequested earliest count newest < Rust.wordSize := by
      unfold oldestRequested Rust.wordSize
      omega
    -- both the first block and the number of blocks are those asked for
    have hsame : start.toNat = oldestRequested earliest count newest := by
      rw [u64ToHexStr_injective (holdest.symm.trans hcovers.oldestBlock)]
      exact UInt64.toNat_ofNat_of_lt hold
    have hlength : finish.toNat - start.toNat = newest.toNat + 1 - oldestRequested earliest count newest := by
      have h₁ := congrArg List.length hheaders
      have h₂ := congrArg List.length hheaders'
      have h₃ := congrArg List.length (hgas.symm.trans hgas')
      simp only [List.length_map, length_blockNumbers] at h₁ h₂ h₃
      omega
    have hnext : finish.toNat = newest.toNat + 1 := by
      omega
    refine ⟨?_, ?_⟩
    · unfold Rust.wordSize at hfits
      omega
    · intro number header hlow hhigh hheader
      rcases Nat.lt_or_eq_of_le hhigh with hlt | heq
      · have hmem : some header ∈ headers.map some := by
          rw [hheaders, List.mem_map]
          refine ⟨number, (mem_blockNumbers ?_).mpr ⟨?_, ?_⟩, hheader⟩
          · rw [Nat.add_sub_cancel' hordered]
            exact Rust.toNat_lt_wordSize finish
          · omega
          · omega
        obtain ⟨header', hmem, heq⟩ := List.mem_map.mp hmem
        exact Option.some.inj heq ▸ hbound header' hmem
      · obtain rfl : number = finish := UInt64.toNat_inj.mp (heq.trans hnext.symm)
        exact hexcess header hheader
  · rintro ⟨hcase, hexcess⟩
    obtain ⟨finish, hfinish⟩ := Rust.exists_toNat_eq (show newest.toNat + 1 < Rust.wordSize by
      unfold Rust.wordSize
      omega)
    obtain ⟨start, hstart⟩ := Rust.exists_toNat_eq (show oldestRequested earliest count newest < Rust.wordSize by
      unfold oldestRequested Rust.wordSize
      omega)
    have hrange : getRange storage count (.number count) = .ok (start, finish) := by
      rw [getRange_eq_ok chain, hstart]
      unfold oldestRequested Rust.wordSize
      omega
    have hbounds : earliest.toNat ≤ start.toNat ∧ start.toNat < finish.toNat ∧ finish.toNat ≤ latest.toNat := by
      rw [hstart]
      unfold oldestRequested
      omega
    obtain ⟨response, hresponse, hcovers⟩ := handle_covers hzero hrange hbounds.2.1 fun number hlow hhigh => by
      have hnumber : earliest ≤ number ∧ number ≤ latest :=
        ⟨hbounds.1.trans hlow, hhigh.trans hbounds.2.2⟩
      obtain ⟨header, hheader⟩ := Option.isSome_iff_exists.mp (chain.headers number hnumber.1 hnumber.2)
      exact ⟨header, hheader, chain.bodies number hnumber.1 hnumber.2,
        hexcess number header (hstart ▸ hlow) (hfinish ▸ hhigh) hheader⟩
    rw [hstart, hfinish] at hcovers
    exact ⟨response, hresponse, hcovers⟩

def threeBlocks : Store :=
  let header (number gasUsed : UInt64) : BlockHeader := { headerWithExcess 0 with number, gasUsed }
  { Store.new with
    chainData := { Store.new.chainData with earliestBlockNumber := some 0, latestBlockNumber := some 2 }
    canonicalHashes := AList.insert 0 (H256.ofNat 10)
      (AList.insert 1 (H256.ofNat 11) (AList.insert 2 (H256.ofNat 12) ∅))
    headers := AList.insert (H256.ofNat 10) (header 0 0) (AList.insert (H256.ofNat 11) (header 1 15000000)
      (AList.insert (H256.ofNat 12) (header 2 30000000) ∅))
    bodies := AList.insert (H256.ofNat 10) ⟨[], [], none⟩ (AList.insert (H256.ofNat 11) ⟨[], [], none⟩
      (AList.insert (H256.ofNat 12) ⟨[], [], none⟩ ∅)) }

theorem canonicalChain_threeBlocks : CanonicalChain threeBlocks 0 2 := by
  have hcases : ∀ number : BlockNumber, number ≤ 2 → number = 0 ∨ number = 1 ∨ number = 2 := by
    intro number hnumber
    have hle : number.toNat ≤ 2 := hnumber
    simp only [← UInt64.toNat_inj]
    change number.toNat = 0 ∨ number.toNat = 1 ∨ number.toNat = 2
    omega
  refine ⟨rfl, rfl, fun number _ hnumber => ?_, fun number _ hnumber => ?_⟩ <;>
    rcases hcases number hnumber with rfl | rfl | rfl <;> decide +kernel

/-- One block up to the first. -/
theorem feeHistory_covers_iff_threeBlocks :
    (CanonicalChain threeBlocks 0 2 ∧ hexDigits "0x1" = some ['1'] ∧ fromStrRadix ['1'] = some 1 ∧
      BlockIdentifier.parse (.string "0x1") 1 = .ok (.number 1)) ∧
    ((∃ response, (do
        let request ← parse (some [.string "0x1", .string "0x1"])
        request.handle threeBlocks) = .ok response ∧
      response.Covers threeBlocks (oldestRequested 0 1 1) 1) ↔
    ((1 : BlockNumber) = 1 ∧ (1 : BlockNumber) < 2 ∨
      (1 : BlockNumber).toNat + 1 = (2 : BlockNumber).toNat ∧ (2 : BlockNumber) ≤ 1 ∧
        (1 : BlockNumber).toNat + 1 < 2 ^ 64) ∧
    ∀ number header, oldestRequested 0 1 1 ≤ number.toNat → number.toNat ≤ (1 : BlockNumber).toNat + 1 →
      threeBlocks.getBlockHeader number = some header → (header.excessBlobGas.getD 0).toNat ≤ 46488065) :=
  have hcount : hexDigits "0x1" = some ['1'] ∧ fromStrRadix ['1'] = some 1 ∧
      BlockIdentifier.parse (.string "0x1") 1 = .ok (.number 1) := by decide +kernel
  ⟨⟨canonicalChain_threeBlocks, hcount⟩, feeHistory_covers_iff canonicalChain_threeBlocks (by decide) (by decide)
    (by decide) hcount.1 hcount.2.1 hcount.2.2 rfl⟩

/-- One block up to the second was asked for, and the first is reported. With a count of two the two first blocks are
reported instead of the two last. -/
theorem feeHistory_ignores_newest :
    CanonicalChain threeBlocks 0 2 ∧
    BlockIdentifier.parse (.string "0x2") 1 = .ok (.number 2) ∧
    oldestRequested 0 1 2 = 2 ∧
    (do
      let request ← parse (some [.string "0x1", .string "0x2"])
      let response ← request.handle threeBlocks
      pure (response.oldestBlock, response.gasUsedRatio.length)) = .ok ("0x1", 1) ∧
    oldestRequested 0 2 2 = 1 ∧
    (do
      let request ← parse (some [.string "0x2", .string "0x2"])
      let response ← request.handle threeBlocks
      pure (response.oldestBlock, response.gasUsedRatio.length)) = .ok ("0x0", 2) :=
  ⟨canonicalChain_threeBlocks, by decide +kernel⟩

end FeeHistoryRequest
end EthereumRust.Rpc
