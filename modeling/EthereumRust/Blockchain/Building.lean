import Mathlib.Algebra.Order.BigOperators.Group.List
import Mathlib.Order.Interval.Set.UnorderedInterval
import Mathlib.Order.Lattice.Nat
import EthereumRust.Blockchain.Payload
import EthereumRust.Core.Fees

/-! # The gas limit and the value of built payloads

`calc_gas_limit` and `payload_block_value`, compared with what they are for. -/

namespace EthereumRust.Blockchain
open Rlp Core Storage Evm List Nat

/-! ## The gas limit -/

def gasLimitAfter (desiredLimit : UInt64) : Nat → UInt64 → Checked UInt64
  | 0, gasLimit => .ok gasLimit
  | blocks + 1, gasLimit => do
    let next ← calcGasLimit gasLimit desiredLimit
    gasLimitAfter desiredLimit blocks next

/-- What the limit of a builder is for: a validator accepts it, it does not pass the target, and from any start the
blocks come to the target and stay there. -/
structure GasLimitConverges (parentGasLimit desiredLimit : UInt64) : Prop where
  accepted : ∃ gasLimit, calcGasLimit parentGasLimit desiredLimit = .ok gasLimit ∧
    (checkGasLimit gasLimit parentGasLimit : Checked Bool) = .ok true ∧
    gasLimit.toNat ∈ Set.uIcc parentGasLimit.toNat (max desiredLimit MIN_GAS_LIMIT).toNat
  reached : ∀ start ≥ MIN_GAS_LIMIT, ∃ k, ∀ blocks ≥ k,
    gasLimitAfter desiredLimit blocks start = .ok (max desiredLimit MIN_GAS_LIMIT)

section

/-- No limit is below the lower of the desired one and the minimum, so `calc_gas_limit` never goes up. -/
theorem calcGasLimit_ok (desiredLimit : UInt64) (h : MIN_GAS_LIMIT ≤ parentGasLimit) :
    ∃ gasLimit, calcGasLimit parentGasLimit desiredLimit = .ok gasLimit ∧
      gasLimit.toNat =
        max (parentGasLimit.toNat - (parentGasLimit.toNat / 1024 - 1)) (min desiredLimit.toNat 5000) := by
  have hmin : 5000 ≤ parentGasLimit.toNat := h
  have hword := Rust.toNat_lt_wordSize parentGasLimit
  obtain ⟨desired, hdesired⟩ : ∃ desired, desired = min desiredLimit MIN_GAS_LIMIT := ⟨_, rfl⟩
  have hdesired' : desired.toNat = min desiredLimit.toNat 5000 := by
    rw [hdesired]
    exact apply_ite UInt64.toNat _ _ _
  obtain ⟨delta, hdelta⟩ := Rust.exists_toNat_eq (show parentGasLimit.toNat / 1024 - 1 < Rust.wordSize by omega)
  obtain ⟨lower, hlower⟩ := Rust.exists_toNat_eq (show parentGasLimit.toNat - delta.toNat < Rust.wordSize by omega)
  have hsub : (Rust.u64Sub (parentGasLimit / GAS_LIMIT_BOUND_DIVISOR) 1 : Checked UInt64) = .ok delta := by
    rw [Rust.u64Sub_eq_ok, hdelta]
    change parentGasLimit.toNat / 1024 = parentGasLimit.toNat / 1024 - 1 + 1
    omega
  have hsub' : (Rust.u64Sub parentGasLimit delta : Checked UInt64) = .ok lower := by
    rw [Rust.u64Sub_eq_ok]
    omega
  rw [calcGasLimit, hsub, Outcome.bind_ok, hsub']
  simp only [← hdesired, Outcome.bind_ok, UInt64.lt_iff_toNat_lt]
  rw [if_neg (by omega), ← hdelta]
  split_ifs with hbelow hlow
  · exact ⟨desired, rfl, by omega⟩
  · exact ⟨lower, rfl, by omega⟩
  · exact ⟨parentGasLimit, rfl, by omega⟩

theorem gasLimitAfter_minimum (start : UInt64) (h : MIN_GAS_LIMIT ≤ start) :
    ∃ k, ∀ blocks ≥ k, gasLimitAfter MIN_GAS_LIMIT blocks start = .ok MIN_GAS_LIMIT := by
  induction hn : start.toNat using Nat.strong_induction_on generalizing start with
  | _ n ih =>
    have hmin : 5000 ≤ start.toNat := h
    have hminimum : MIN_GAS_LIMIT.toNat = 5000 := rfl
    obtain ⟨next, hok, hnext⟩ := calcGasLimit_ok MIN_GAS_LIMIT h
    rcases lt_or_ge 5000 start.toNat with hlt | hle
    · -- every block above the minimum takes at least three off
      have hge : MIN_GAS_LIMIT.toNat ≤ next.toNat := by omega
      obtain ⟨k, hk⟩ := ih next.toNat (by omega) next hge rfl
      refine ⟨k + 1, fun blocks hblocks => ?_⟩
      obtain ⟨blocks, rfl⟩ := Nat.exists_eq_add_of_le hblocks
      rw [add_right_comm, gasLimitAfter, hok]
      exact hk _ (le_add_right _ _)
    · obtain rfl : start = MIN_GAS_LIMIT := UInt64.toNat_inj.mp (by omega)
      obtain rfl : next = MIN_GAS_LIMIT := UInt64.toNat_inj.mp (by omega)
      refine ⟨0, fun blocks _ => ?_⟩
      induction blocks with
      | zero => rfl
      | succ blocks ih =>
        exact ih (zero_le _)

theorem calcGasLimit_of_reached
    (h : ∀ blocks ≥ k, gasLimitAfter desiredLimit blocks start = .ok limit) :
    calcGasLimit limit desiredLimit = .ok limit := by
  have hstep : ∀ blocks start, gasLimitAfter desiredLimit (blocks + 1) start =
      gasLimitAfter desiredLimit blocks start >>= fun limit => calcGasLimit limit desiredLimit := by
    intro blocks
    induction blocks with
    | zero =>
      intro start
      change (calcGasLimit start desiredLimit >>= fun next => .ok next) = calcGasLimit start desiredLimit
      cases calcGasLimit start desiredLimit <;> rfl
    | succ blocks ih =>
      intro start
      rw [gasLimitAfter, gasLimitAfter]
      cases calcGasLimit start desiredLimit with
      | error => rfl
      | ok next => exact ih next
  have hnext := h (k + 1) (le_succ k)
  rwa [hstep, h k le_rfl] at hnext

end

/-- The limit converges as it is meant to exactly if the desired limit is the minimum: `calc_gas_limit` takes the lower
of the two and not the higher. For a parent limit close to `2 ^ 64` the check overflows. -/
theorem gasLimitConverges_iff (parentGasLimit desiredLimit : UInt64) (h : MIN_GAS_LIMIT ≤ parentGasLimit) :
    GasLimitConverges parentGasLimit desiredLimit ↔
      desiredLimit = MIN_GAS_LIMIT ∧ parentGasLimit.toNat + parentGasLimit.toNat / 1024 < 2 ^ 64 := by
  have hminimum : MIN_GAS_LIMIT.toNat = 5000 := rfl
  have hmin : 5000 ≤ parentGasLimit.toNat := h
  constructor
  · intro hconverges
    constructor
    · obtain ⟨k, hk⟩ := hconverges.reached MIN_GAS_LIMIT (UInt64.le_refl _)
      have hmax : (max desiredLimit MIN_GAS_LIMIT).toNat = max desiredLimit.toNat 5000 := by
        exact apply_ite UInt64.toNat _ _ _
      have hge : MIN_GAS_LIMIT ≤ max desiredLimit MIN_GAS_LIMIT := by
        rw [UInt64.le_iff_toNat_le, hmax]
        exact le_max_right _ _
      obtain ⟨next, hok, hnext⟩ := calcGasLimit_ok desiredLimit hge
      obtain rfl := Except.ok.inj ((calcGasLimit_of_reached hk).symm.trans hok)
      refine UInt64.toNat_inj.mp ?_
      omega
    · by_contra hoverflow
      obtain ⟨gasLimit, -, hcheck, -⟩ := hconverges.accepted
      rw [checkGasLimit_overflows hoverflow] at hcheck
      cases hcheck
  · rintro ⟨rfl, hfits⟩
    refine ⟨?_, fun start hstart => ?_⟩
    · obtain ⟨gasLimit, hok, hlimit⟩ := calcGasLimit_ok MIN_GAS_LIMIT h
      refine ⟨gasLimit, hok, ?_, ?_⟩
      · have hbounds : GasLimitInBounds gasLimit.toNat parentGasLimit.toNat := ⟨by omega, by omega, by omega⟩
        rw [checkGasLimit_ok hfits, decide_eq_true hbounds]
      · have hmax : (max MIN_GAS_LIMIT MIN_GAS_LIMIT).toNat = 5000 := rfl
        exact ⟨by omega, by omega⟩
    · exact gasLimitAfter_minimum start hstart

theorem gasLimitConverges_iff_minimum :
    MIN_GAS_LIMIT ≤ 30000000 ∧ (GasLimitConverges 30000000 MIN_GAS_LIMIT ↔
      MIN_GAS_LIMIT = MIN_GAS_LIMIT ∧ (30000000 : UInt64).toNat + (30000000 : UInt64).toNat / 1024 < 2 ^ 64) :=
  ⟨by decide, gasLimitConverges_iff 30000000 MIN_GAS_LIMIT (by decide)⟩

/-- A builder whose parent has the limit it wants lowers it, and goes below the minimum if it wants less. -/
theorem gasLimit_leaves_target :
    calcGasLimit 30000000 DEFAULT_BUILDER_GAS_CEIL = .ok 29970705 ∧
    ¬ GasLimitConverges 30000000 DEFAULT_BUILDER_GAS_CEIL ∧
    calcGasLimit 5000 4000 = .ok 4997 ∧ (checkGasLimit 4997 5000 : Checked Bool) = .ok false := by
  refine ⟨by decide, fun hconverges => ?_, by decide, by decide⟩
  obtain ⟨k, hk⟩ := hconverges.reached MIN_GAS_LIMIT (UInt64.le_refl _)
  have hstays := calcGasLimit_of_reached hk
  revert hstays
  decide

/-! ## The value of a payload -/

def gasUsedBy (lastCumulativeGasUsed : Nat) : List Receipt → List Nat
  | [] => []
  | receipt :: receipts =>
    (receipt.cumulativeGasUsed.toNat - lastCumulativeGasUsed) :: gasUsedBy receipt.cumulativeGasUsed.toNat receipts

def priorityFee (baseFee : UInt64) (tx : Transaction) : Nat :=
  min tx.gasTipCap.toNat (tx.gasFeeCap.toNat - baseFee.toNat)

def totalFees (feePerGas : Transaction → Nat) (used : List (Transaction × Nat)) : Nat :=
  (used.map fun (tx, gas) => gas * feePerGas tx).sum

/-- The receipts of a block are stored under its number, from an index on. -/
structure ReceiptsStored (storage : Store) (number : BlockNumber) (index : Nat) (receipts : List Receipt) : Prop where
  stored : ∀ i receipt, receipts[i]? = some receipt →
    storage.getReceipt number (UInt64.ofNat (index + i)) = some receipt
  nondecreasing : receipts.Pairwise fun receipt later => receipt.cumulativeGasUsed ≤ later.cumulativeGasUsed

section

variable {ε : Type}

theorem ReceiptsStored.head (h : ReceiptsStored storage number index (receipt :: receipts)) :
    storage.getReceipt number (UInt64.ofNat index) = some receipt := h.stored 0 receipt rfl

theorem ReceiptsStored.tail (h : ReceiptsStored storage number index (receipt :: receipts)) :
    ReceiptsStored storage number (index + 1) receipts where
  stored i later hi := by
    rw [add_assoc, add_comm 1]
    exact h.stored (i + 1) later hi
  nondecreasing := (pairwise_cons.mp h.nondecreasing).2

theorem effectiveGasTip_of_le {tx : Transaction} (h : baseFee ≤ tx.gasFeeCap) :
    tx.effectiveGasTip (some baseFee) = some (tx.gasFeeCap - baseFee) := by
  have hsub : (tx.gasFeeCap - baseFee).toNat = tx.gasFeeCap.toNat - baseFee.toNat := UInt64.toNat_sub_of_le _ _ h
  have hle : tx.gasFeeCap - baseFee ≤ tx.gasFeeCap := by
    rw [UInt64.le_iff_toNat_le, hsub]
    exact sub_le _ _
  rw [Transaction.effectiveGasTip, if_pos h]
  exact congrArg some (if_pos hle)

theorem u256Mul_u256 (a b : UInt64) :
    ∃ c, (u256Mul (u256 a) (u256 b) : Outcome ε U256) = .ok c ∧ c.toNat = a.toNat * b.toNat := by
  have ha : (u256 a).toNat = a.toNat := mod_eq_of_lt (a.toNat_lt.trans (by decide))
  have hb : (u256 b).toNat = b.toNat := mod_eq_of_lt (b.toNat_lt.trans (by decide))
  have hlt : a.toNat * b.toNat < 2 ^ 256 :=
    (Nat.mul_lt_mul'' a.toNat_lt b.toNat_lt).trans (by decide)
  refine ⟨u256 a * u256 b, ?_, ?_⟩
  · rw [u256Mul, ha, hb, if_pos hlt]
  · rw [BitVec.toNat_mul, ha, hb, mod_eq_of_lt hlt]

theorem u256Add_ok {a b : U256} (h : a.toNat + b.toNat < 2 ^ 256) :
    ∃ c, (Store.u256Add a b : Outcome ε U256) = .ok c ∧ c.toNat = a.toNat + b.toNat := by
  refine ⟨a + b, ?_, ?_⟩
  · rw [Store.u256Add, if_pos h]
  · rw [BitVec.toNat_add, mod_eq_of_lt h]

theorem feesFrom_ok {header : BlockHeader} (hbase : header.baseFeePerGas = some baseFee)
    {transactions : List Transaction} (hlength : receipts.length = transactions.length)
    (hstored : ReceiptsStored storage header.number index receipts)
    (hcaps : ∀ tx ∈ transactions, baseFee ≤ tx.gasFeeCap)
    (totalFee : U256) (last : UInt64) (hlast : ∀ receipt ∈ receipts, last ≤ receipt.cumulativeGasUsed)
    (htotal : totalFee.toNat ≤ 2 ^ 64 * last.toNat) :
    ∃ value, (feesFrom storage header totalFee last index transactions : Outcome ε (Option U256)) =
        .ok (some value) ∧
      value.toNat = totalFee.toNat +
        totalFees (fun tx => tx.gasFeeCap.toNat - baseFee.toNat)
          (transactions.zip (gasUsedBy last.toNat receipts)) := by
  induction transactions generalizing receipts index totalFee last with
  | nil => exact ⟨totalFee, rfl, by simp [totalFees]⟩
  | cons tx transactions ih =>
    cases receipts with
    | nil => cases hlength
    | cons receipt receipts =>
      have hle : last ≤ receipt.cumulativeGasUsed := hlast receipt mem_cons_self
      have hcap : baseFee ≤ tx.gasFeeCap := hcaps tx mem_cons_self
      have hgas : (Rust.u64Sub receipt.cumulativeGasUsed last : Outcome ε UInt64) =
          .ok (receipt.cumulativeGasUsed - last) := if_pos hle
      have hgas' := UInt64.toNat_sub_of_le _ _ hle
      have hfee := UInt64.toNat_sub_of_le _ _ hcap
      obtain ⟨paid, hpaid, hpaid'⟩ :=
        u256Mul_u256 (ε := ε) (tx.gasFeeCap - baseFee) (receipt.cumulativeGasUsed - last)
      -- the gas of all transactions so far is the last cumulative gas
      have hbound : totalFee.toNat + paid.toNat ≤ 2 ^ 64 * receipt.cumulativeGasUsed.toNat := by
        have hle' : last.toNat ≤ receipt.cumulativeGasUsed.toNat := hle
        have hproduct : paid.toNat ≤ 2 ^ 64 * (receipt.cumulativeGasUsed.toNat - last.toNat) := by
          rw [hpaid', hgas']
          exact mul_le_mul_right _ (UInt64.toNat_lt _).le
        omega
      have hword := receipt.cumulativeGasUsed.toNat_lt
      obtain ⟨total, hadd, htotal'⟩ := u256Add_ok (ε := ε) (a := totalFee) (b := paid) (by omega)
      obtain ⟨value, hok, hvalue⟩ := ih (Nat.succ.inj hlength) hstored.tail
        (fun tx htx => hcaps tx (mem_cons_of_mem _ htx)) total receipt.cumulativeGasUsed
        (pairwise_cons.mp hstored.nondecreasing).1 (by rwa [htotal'])
      refine ⟨value, ?_, ?_⟩
      · rw [feesFrom, hbase, effectiveGasTip_of_le hcap, hstored.head]
        simp only [hgas, Outcome.bind_ok, hpaid, hadd]
        exact hok
      · rw [hvalue, htotal', hpaid', hgas', hfee]
        simp only [totalFees, gasUsedBy, zip_cons_cons, map_cons, sum_cons]
        rw [mul_comm (tx.gasFeeCap.toNat - baseFee.toNat), add_assoc]

end

/-- Lower fees give the same total only if they are the same wherever gas was used. -/
theorem totalFees_eq_iff {fee fee' : Transaction → Nat} (hle : ∀ tx, fee tx ≤ fee' tx)
    (used : List (Transaction × Nat)) :
    totalFees fee' used = totalFees fee used ↔ ∀ item ∈ used, item.2 = 0 ∨ fee' item.1 ≤ fee item.1 := by
  have hmono : ∀ used : List (Transaction × Nat), totalFees fee used ≤ totalFees fee' used := fun used =>
    sum_le_sum fun item _ => mul_le_mul_left item.2 (hle item.1)
  induction used with
  | nil => simp [totalFees]
  | cons item used ih =>
    have hrest := hmono used
    have hhead : item.2 * fee item.1 ≤ item.2 * fee' item.1 := mul_le_mul_left _ (hle item.1)
    have hsame : item.2 * fee' item.1 ≤ item.2 * fee item.1 ↔ item.2 = 0 ∨ fee' item.1 ≤ fee item.1 := by
      rcases Nat.eq_zero_or_pos item.2 with hzero | hpos
      · simp [hzero]
      · rw [Nat.mul_le_mul_left_iff hpos]
        exact (or_iff_right hpos.ne').symm
    rw [forall_mem_cons]
    refine Iff.trans ?_ (and_congr hsame ih)
    change item.2 * fee' item.1 + totalFees fee' used = item.2 * fee item.1 + totalFees fee used ↔ _
    omega

/-- A payload is worth the tips of its transactions exactly if the fee cap is what limits the tip of every one that
used gas: `effective_gas_tip` takes the lower of the tip and the fee cap, not the tip cap. -/
theorem payloadBlockValue_eq_tips_iff {ε : Type} (block : Block) (storage : Store) (receipts : List Receipt)
    (baseFee : UInt64) (hbase : block.header.baseFeePerGas = some baseFee)
    (hlength : receipts.length = block.body.transactions.length)
    (hstored : ReceiptsStored storage block.header.number 0 receipts)
    (hcaps : ∀ tx ∈ block.body.transactions, baseFee ≤ tx.gasFeeCap) :
    (∃ value, (payloadBlockValue block storage : Outcome ε (Option U256)) = .ok (some value) ∧
      value.toNat = totalFees (priorityFee baseFee) (block.body.transactions.zip (gasUsedBy 0 receipts))) ↔
    ∀ item ∈ block.body.transactions.zip (gasUsedBy 0 receipts),
      item.2 = 0 ∨ item.1.gasFeeCap.toNat - baseFee.toNat ≤ item.1.gasTipCap.toNat := by
  obtain ⟨value, hok, hvalue⟩ := feesFrom_ok (ε := ε) hbase hlength hstored hcaps 0 0
    (fun _ _ => UInt64.zero_le) (zero_le _)
  have hsame : value.toNat = totalFees (priorityFee baseFee) (block.body.transactions.zip (gasUsedBy 0 receipts)) ↔
      ∀ item ∈ block.body.transactions.zip (gasUsedBy 0 receipts),
        item.2 = 0 ∨ item.1.gasFeeCap.toNat - baseFee.toNat ≤ item.1.gasTipCap.toNat := by
    have hzero : totalFees (fun tx => tx.gasFeeCap.toNat - baseFee.toNat)
        (block.body.transactions.zip (gasUsedBy 0 receipts)) = value.toNat := by
      rw [hvalue]
      exact (zero_add _).symm
    have hle : ∀ tx : Transaction, priorityFee baseFee tx ≤ tx.gasFeeCap.toNat - baseFee.toNat :=
      fun _ => min_le_right _ _
    rw [← hzero, totalFees_eq_iff hle]
    simp only [priorityFee, le_min_iff, le_refl, and_true]
  rw [← hsame]
  constructor
  · rintro ⟨value', hok', hvalue'⟩
    obtain rfl := Option.some.inj (Except.ok.inj (hok'.symm.trans hok))
    exact hvalue'
  · exact fun h => ⟨value, hok, h⟩

def blockWithTip (maxPriorityFeePerGas maxFeePerGas : UInt64) : Block where
  header := { headerWithExcess 0 with baseFeePerGas := some 10 }
  body := ⟨[.eip1559Transaction ⟨1, 0, maxPriorityFeePerGas, maxFeePerGas, 21000, .create, 0, ⟨[]⟩, [], false, 0, 0⟩],
    [], none⟩

def transferReceipt : Receipt := ⟨.eip1559, true, 21000, Bloom.zero, []⟩

def storeWithReceipt : Store :=
  { Store.new with
    canonicalHashes := AList.insert 1 H256.zero ∅
    receipts := AList.insert H256.zero (AList.insert 0 transferReceipt ∅) ∅ }

theorem receiptsStored_storeWithReceipt : ReceiptsStored storeWithReceipt 1 0 [transferReceipt] where
  stored i receipt hi := by
    cases i with
    | zero => exact hi ▸ (by decide +kernel)
    | succ i => cases hi
  nondecreasing := pairwise_singleton _ _

/-- A fee cap of 100 with a tip cap of 95. -/
theorem payloadBlockValue_eq_tips_iff_blockWithTip :
    (blockWithTip 95 100).header.baseFeePerGas = some 10 ∧
    ReceiptsStored storeWithReceipt (blockWithTip 95 100).header.number 0 [transferReceipt] ∧
    (∀ tx ∈ (blockWithTip 95 100).body.transactions, 10 ≤ tx.gasFeeCap) ∧
    ((∃ value, (payloadBlockValue (blockWithTip 95 100) storeWithReceipt : Checked (Option U256)) = .ok (some value) ∧
      value.toNat = totalFees (priorityFee 10)
        ((blockWithTip 95 100).body.transactions.zip (gasUsedBy 0 [transferReceipt]))) ↔
    ∀ item ∈ (blockWithTip 95 100).body.transactions.zip (gasUsedBy 0 [transferReceipt]),
      item.2 = 0 ∨ item.1.gasFeeCap.toNat - (10 : UInt64).toNat ≤ item.1.gasTipCap.toNat) :=
  ⟨rfl, receiptsStored_storeWithReceipt, by decide, payloadBlockValue_eq_tips_iff (blockWithTip 95 100) storeWithReceipt
    [transferReceipt] 10 rfl rfl receiptsStored_storeWithReceipt (by decide)⟩

/-- With a tip cap of 1 the tips are 21000 and the value is 90 times as much. -/
theorem payloadBlockValue_above_tips :
    ReceiptsStored storeWithReceipt (blockWithTip 1 100).header.number 0 [transferReceipt] ∧
    totalFees (priorityFee 10) ((blockWithTip 1 100).body.transactions.zip (gasUsedBy 0 [transferReceipt])) = 21000 ∧
    (payloadBlockValue (blockWithTip 1 100) storeWithReceipt : Checked (Option U256)) = .ok (some 1890000) :=
  ⟨receiptsStored_storeWithReceipt, by decide, by decide +kernel⟩

end EthereumRust.Blockchain
