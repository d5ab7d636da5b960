import EthereumRust.Core.Block
import EthereumRust.Trie.CanonicalRoot

/-! # The roots of lists

The trie of a list has the encoded index of each item as its path. No path starts with
another, and they are inserted in an order in which they do not get shorter, so only
leaves with a rest are ever read again. Two such leaves with the same rest do not stand
at different depths: from 128 items on every path but the last has a neighbour that
parts from it in the last half-byte only. -/

namespace EthereumRust.Mpt
open Nibble Rlp List

/-! ## Encoded indices -/

def indexKey (i : Nat) : ByteString := rlpBytes (beMin i)

theorem beMin_split (h : i ≠ 0) : beMin i = beMin (i / 256) ++ [UInt8.ofNat (i % 256)] := by
  rw [beMin, Nat.digits_def' (by norm_num) (Nat.pos_of_ne_zero h), reverse_cons, map_append]
  rfl

theorem indexKey_small (h0 : i ≠ 0) (h : i < 128) : indexKey i = [UInt8.ofNat i] := by
  have hb : beMin i = [UInt8.ofNat i] := by
    rw [beMin, Nat.digits_of_lt 256 i h0 (by omega)]; rfl
  rw [indexKey, hb, rlpBytes_single]
  change i % 256 < 128
  omega

theorem length_beMin_index (h : i < 2 ^ 64) : (beMin i).length ≤ 8 :=
  length_beMin_le.mpr (by simpa using h)

theorem indexKey_large (h : 128 ≤ i) (hi : i < 2 ^ 64) :
    indexKey i = UInt8.ofNat (0x80 + (beMin i).length) :: beMin i := by
  have hlen := length_beMin_index hi
  have hheader : rlpHeader 0x80 (beMin i).length = [UInt8.ofNat (0x80 + (beMin i).length)] := by
    rw [rlpHeader, if_pos (by omega)]
  rw [indexKey]
  by_cases h1 : (beMin i).length = 1
  · obtain ⟨x, hx⟩ := length_eq_one_iff.mp h1
    have hxi : x.toNat = i := by
      have := beNat_beMin i
      rw [hx, beNat_cons] at this
      simpa using this
    rw [hx] at hheader ⊢
    rw [rlpBytes_of_ge (by rw [UInt8.lt_iff_toNat_lt, hxi]; change ¬ i < 128; omega)]
    exact congrArg (· ++ [x]) hheader
  · rw [rlpBytes_of_length h1, hheader]
    rfl

theorem encodeUint_eq (h : i < 2 ^ 64) : encodeUint 8 i = indexKey i := by
  rw [encodeUint]
  split
  · rename_i h0; subst h0; rfl
  · split
    · exact (indexKey_small ‹_› (by omega)).symm
    · have hsig : significantBytes 8 i = beMin i := significantBytes_eq (by simpa using h)
      rw [indexKey_large (by omega) h, hsig, ofNat_add]
      rfl

theorem length_indexKey_le (h : i < 2 ^ 64) : (indexKey i).length ≤ 9 := by
  by_cases h0 : i = 0
  · subst h0; decide
  · by_cases h1 : i < 128
    · rw [indexKey_small h0 h1]; simp
    · have := length_beMin_index h
      rw [indexKey_large (by omega) h, length_cons]
      omega

theorem length_indexKey_mono (hij : i ≤ j) (hj : j < 2 ^ 64) :
    (indexKey i).length ≤ (indexKey j).length := by
  have hpos : 0 < (indexKey j).length := length_rlpBytes_pos _
  by_cases h0 : i = 0
  · subst h0; exact hpos
  · by_cases h1 : i < 128
    · rw [indexKey_small h0 h1]; exact hpos
    · rw [indexKey_large (by omega) (by omega), indexKey_large (by omega) hj, length_cons,
        length_cons]
      have : (beMin i).length ≤ (beMin j).length :=
        length_beMin_le.mpr (lt_of_le_of_lt hij (length_beMin_le.mp le_rfl))
      omega

/-- No path starts with another. -/
theorem indexKey_free (hi : i < 2 ^ 64) (hj : j < 2 ^ 64)
    (h : nibbles (indexKey i) <+: nibbles (indexKey j)) : i = j := by
  have hbytes : indexKey i <+: indexKey j := by
    have hle := h.length_le
    rw [prefix_iff_eq_take, length_nibbles, take_nibbles] at h
    rw [nibbles_injective h]
    exact take_prefix _ _
  obtain ⟨rest, hrest⟩ := hbytes
  have hshort : ∀ {i}, i < 2 ^ 64 → (beMin i).length < 2 ^ 64 := fun hi =>
    lt_of_le_of_lt (length_beMin_index hi) (by norm_num)
  have hrlp : rlpBytes (beMin i) ++ rest = rlpBytes (beMin j) ++ [] := by rw [append_nil]; exact hrest
  exact beMin_injective (rlpBytes_inj (hshort hi) (hshort hj) hrlp).1

theorem high_ofNat {b : Nat} (h : b < 256) : (high (UInt8.ofNat b)).val = b / 16 := by
  rw [val_high, UInt8.toNat_ofNat', Nat.mod_eq_of_lt h]

theorem dropLast_indexKey (hi : i ≠ 0) (hj : j ≠ 0) (h : i / 16 = j / 16)
    (hi' : i < 2 ^ 64) (hj' : j < 2 ^ 64) :
    (nibbles (indexKey i)).dropLast = (nibbles (indexKey j)).dropLast := by
  have hlast : ∀ (b : ByteString) (x : UInt8), (nibbles (b ++ [x])).dropLast = nibbles b ++ [high x] := by
    intro b x
    simp
  by_cases h1 : i < 128
  · rw [indexKey_small hi h1, indexKey_small hj (by omega)]
    have hh : high (UInt8.ofNat i) = high (UInt8.ofNat j) :=
      Fin.ext (by rw [high_ofNat (by omega), high_ofNat (by omega), h])
    exact congrArg (fun x => [x]) hh
  · have h256 : i / 256 = j / 256 := by omega
    have hh : high (UInt8.ofNat (i % 256)) = high (UInt8.ofNat (j % 256)) :=
      Fin.ext (by rw [high_ofNat (by omega), high_ofNat (by omega)]; omega)
    rw [indexKey_large (by omega) hi', indexKey_large (by omega) hj', beMin_split hi, beMin_split hj,
      length_append, length_append, h256, ← cons_append, ← cons_append, hlast, hlast,
      hh]
    rfl

/-! ## The trees of the first indices -/

/-- Only leaves with a rest are read. -/
def Marks.rests : Marks 9 := .sized (· ≠ []) fun _ _ hr h => hr (List.append_eq_nil_iff.mp h).2

/-- The keys of the tree are the first `k` encoded indices. -/
structure Indexed (T : Contents 9) (k : Nat) : Prop where
  bound : k ≤ 2 ^ 64
  ragged : Ragged [] T
  keys : ∀ q, (∃ v, T.lookup q = some v) ↔ ∃ i < k, q = nibbles (indexKey i)

namespace Indexed

theorem nil : Indexed .nil 0 := ⟨by norm_num, .nil, fun q => by simp⟩

theorem insert (h : Indexed T k) (hk : k < 2 ^ 64) (v : Value 9) :
    Indexed (T.insert (nibbles (indexKey k)) v) (k + 1) := by
  have hlen := length_indexKey_le hk
  refine ⟨hk, Along.ragged (.new hlen) h.ragged v, fun q => ?_⟩
  rw [Tree.lookup_insert]
  by_cases hq : q = nibbles (indexKey k)
  · rw [if_pos hq]
    exact ⟨fun _ => ⟨k, by omega, hq⟩, fun _ => ⟨v, rfl⟩⟩
  · rw [if_neg hq, h.keys q]
    constructor
    · rintro ⟨i, hi, he⟩
      exact ⟨i, by omega, he⟩
    · rintro ⟨i, hi, he⟩
      have hne : i ≠ k := fun hik => hq (hik ▸ he)
      exact ⟨i, by omega, he⟩

theorem leaf_key (h : Indexed T k) (hk : T.Stands pre (.leaf r v)) :
    ∃ i < k, pre ++ r = nibbles (indexKey i) ∧ ∀ j < k, pre <+: nibbles (indexKey j) → j = i := by
  obtain ⟨i, hi, he⟩ := (h.keys (pre ++ r)).mp ⟨v, by rw [hk.lookup, Tree.lookup_leaf, if_pos rfl]⟩
  refine ⟨i, hi, he, fun j hj hpre => ?_⟩
  obtain ⟨q, hq⟩ := hpre
  obtain ⟨w, hw⟩ := (h.keys _).mpr ⟨j, hj, rfl⟩
  rw [← hq, hk.lookup, Tree.lookup_leaf] at hw
  split at hw
  · rename_i hqr
    rw [hqr, he] at hq
    exact (indexKey_free (lt_of_lt_of_le hi h.bound) (lt_of_lt_of_le hj h.bound)
      (by rw [hq])).symm
  · cases hw

/-- A path whose leaf has a rest has no neighbour yet. -/
theorem alone (h : Indexed T k) (hr : r ≠ []) (hi : i < k)
    (he : pre ++ r = nibbles (indexKey i)) (honly : ∀ j < k, pre <+: nibbles (indexKey j) → j = i)
    (j : Nat) (hi0 : i ≠ 0) (hj0 : j ≠ 0) (hij : j ≠ i) (hnear : i / 16 = j / 16) (hj64 : j < 2 ^ 64) :
    k ≤ j := by
  by_contra hj
  refine hij (honly j (by omega) ?_)
  have hdrop := dropLast_indexKey hi0 hj0 hnear (lt_of_lt_of_le hi h.bound) hj64
  have hpre : pre <+: (nibbles (indexKey i)).dropLast := by
    rw [← he, dropLast_append_of_ne_nil hr]
    exact prefix_append _ _
  exact (hdrop ▸ hpre).trans ( dropLast_prefix _)

/-- From the index 128 on only the last path can have a leaf with a rest. -/
theorem last (h : Indexed T k) (hr : r ≠ []) (hi : i < k)
    (he : pre ++ r = nibbles (indexKey i)) (honly : ∀ j < k, pre <+: nibbles (indexKey j) → j = i)
    (hk : 128 < k) : i = k - 1 := by
  have hb := h.bound
  have hnear := h.alone hr hi he honly
  by_cases h0 : i = 0
  · -- the path of the index 0 is 0x80, and that of 128 starts with 0x81
    subst h0
    exfalso
    have h8 : pre <+: [8] := by
      have hz : nibbles (indexKey 0) = [8, 0] := by decide
      rw [hz] at he
      have : pre <+: ([8, 0] : List Nibble).dropLast := by
        rw [← he, dropLast_append_of_ne_nil hr]
        exact prefix_append _ _
      exact this
    have h128 : nibbles (indexKey 128) = [8, 1, 8, 0] := by
      decide
    have := honly 128 (by omega) (h128 ▸ h8.trans ⟨[1, 8, 0], rfl⟩)
    omega
  · by_cases h1 : i = 1
    · have := hnear 2 h0 (by omega) (by omega) (by omega) (by norm_num)
      omega
    · -- the neighbour in the last bit comes right before or right after
      by_cases heven : i % 2 = 0
      · by_contra hne
        have := hnear (i + 1) h0 (by omega) (by omega) (by omega) (by omega)
        omega
      · have := hnear (i - 1) h0 (by omega) (by omega) (by omega) (by omega)
        omega

theorem apart (h : Indexed T k) : Apart (· ≠ []) T := by
  intro pre pre' r v hr hs hs'
  obtain ⟨i, hi, he, honly⟩ := h.leaf_key hs
  obtain ⟨j, hj, he', honly'⟩ := h.leaf_key hs'
  have hlen := congrArg List.length he
  have hlen' := congrArg List.length he'
  rw [length_append, length_nibbles] at hlen hlen'
  suffices (indexKey i).length = (indexKey j).length by omega
  by_cases hk : 128 < k
  · rw [h.last hr hi he honly hk, h.last hr hj he' honly' hk]
  · have hshort : ∀ {i}, i < 128 → (indexKey i).length = 1 := by
      intro i hi
      by_cases h0 : i = 0
      · subst h0; decide
      · rw [indexKey_small h0 hi]; rfl
    rw [hshort (by omega), hshort (by omega)]

/-- The next index meets no extension that is longer than it, and no leaf without a rest. -/
theorem clear (h : Indexed T k) (hk : k < 2 ^ 64) : Clear .rests 0 T (nibbles (indexKey k)) := by
  constructor
  · rintro pre r v hs hpre rfl
    obtain ⟨i, hi, he, -⟩ := h.leaf_key hs
    rw [append_nil] at he
    have := indexKey_free (lt_trans hi hk) hk (he ▸ hpre)
    omega
  · intro pre s c hs hpre
    left
    obtain ⟨-, hb, hc⟩ := hs.canonical h.ragged.canonical
    obtain ⟨q, v, hq⟩ := hc.exists_key (by rintro rfl; exact hb)
    obtain ⟨i, hi, he⟩ := (h.keys (pre ++ s ++ q)).mp ⟨v, (hs.ext.lookup q).trans hq⟩
    have hlen := congrArg List.length he
    have hmono := length_indexKey_mono (le_of_lt hi) hk
    rw [length_append, length_append, length_nibbles] at hlen
    rw [length_nibbles]
    omega

end Indexed

/-! ## The root -/

end EthereumRust.Mpt

namespace EthereumRust.Core
open Nibble Rlp Mpt

section

variable [Keccak256]

def indexPairs (values : List ByteString) : List (ByteString × ByteString) :=
  values.zipIdx.map fun (value, idx) => (encodeUint 8 idx, value)

def indexEncodings (values : List ByteString) : List ByteString :=
  (indexPairs values).inits.flatMap fun a =>
    (Trie.insertAll a (Trie.new NullTrieDB.mk)).2.state.encodings

def indexItems (values : List ByteString) : Finset (List Nibble × ByteString) :=
  (values.zipIdx.map fun (value, idx) => (nibbles (indexKey idx), value)).toFinset

/-- The trie of a list holds each value under the encoding of its index. -/
theorem insertAll_indexPairs (hlen : values.length ≤ 2 ^ 64)
    (hvalues : ∀ v ∈ values, v ≠ [] ∧ 9 + v.length < 2 ^ 62)
    (hkec : Set.InjOn kec {e | e ∈ indexEncodings values}) :
    ∃ self T, Trie.insertAll (indexPairs values) (Trie.new NullTrieDB.mk) = (.ok (), self) ∧
      Holding .rests self T ∧ Indexed T values.length ∧
      ∀ i (v : Value 9), values[i]? = some v.1 → T.lookup (nibbles (indexKey i)) = some v := by
  let f : ByteString × Nat → Exec (Trie NullTrieDB) TrieError Unit := fun a =>
    Trie.insertUnwrap (encodeUint 8 a.2) a.1
  have hall : ∀ as : List (ByteString × Nat),
      Trie.insertAll (as.map fun (value, idx) => (encodeUint 8 idx, value)) = Exec.forEach f as :=
    fun as => Exec.forEach_map _ _ as
  have hstep : ∀ as a self, as ++ [a] <+: values.zipIdx →
      Exec.forEach f as (Trie.new NullTrieDB.mk) = (.ok (), self) →
      (∃ T, Holding .rests self T ∧ Indexed T as.length ∧ ∀ i < as.length, ∀ v : Value 9,
        values[i]? = some v.1 → T.lookup (nibbles (indexKey i)) = some v) →
      ∃ b self', f a self = (.ok b, self') ∧
        ∃ T, Holding .rests self' T ∧ Indexed T (as ++ [a]).length ∧ ∀ i < (as ++ [a]).length,
          ∀ v : Value 9, values[i]? = some v.1 → T.lookup (nibbles (indexKey i)) = some v := by
    rintro as ⟨value, idx⟩ self has hrun ⟨T, hc, hT, hl⟩
    have hget : values.zipIdx[as.length]? = some (value, idx) := by
      obtain ⟨rest, hrest⟩ := has
      rw [← hrest]; simp
    rw [List.getElem?_zipIdx, Option.map_eq_some_iff] at hget
    obtain ⟨value', hvalue, hpair⟩ := hget
    simp only [Nat.zero_add, Prod.mk.injEq] at hpair
    obtain ⟨rfl, rfl⟩ := hpair
    have hlt : as.length < 2 ^ 64 :=
      lt_of_lt_of_le (List.getElem?_eq_some_iff.mp hvalue).1 hlen
    let v : Value 9 := ⟨value', hvalues value' (List.mem_of_getElem? hvalue)⟩
    have hT' := hT.insert hlt v
    let σ : Site 9 .rests := .within (T.insert (nibbles (indexKey as.length)) v) hT'.ragged hT'.apart
    have hfits : σ.fits [] (T.insert (nibbles (indexKey as.length)) v) := .root
    obtain ⟨self', hins, -, hcarry⟩ :=
      Trie.insert_run hc (length_indexKey_le hlt) v trivial (hT.clear hlt) hfits
    have hf : f (value', as.length) self = (.ok (), self') := by
      refine insertUnwrap_run ?_
      rw [encodeUint_eq hlt]
      exact hins
    refine ⟨(), self', hf, _, hcarry ?_, by simpa using hT', fun i hi w hw => ?_⟩
    · refine hkec.mono fun e he => List.mem_flatMap.mpr
        ⟨(as ++ [(value', as.length)]).map fun (value, idx) => (encodeUint 8 idx, value), ?_, ?_⟩
      · exact (List.mem_inits _ _).mpr (has.map _)
      · rw [hall, Exec.forEach_snoc hrun hf]
        exact he
    · rw [Tree.lookup_insert]
      rw [List.length_append, List.length_singleton] at hi
      by_cases hia : i = as.length
      · subst hia
        rw [if_pos rfl]
        rw [hvalue] at hw
        exact congrArg some (Subtype.ext (Option.some.inj hw))
      · have hne : nibbles (indexKey i) ≠ nibbles (indexKey as.length) := fun he =>
          hia (indexKey_free (by omega) hlt (he ▸ List.prefix_rfl))
        rw [if_neg hne]
        exact hl i (by omega) w hw
  obtain ⟨self, hrun, T, hc, hT, hl⟩ := Exec.forEach_invariant _
    ⟨.nil, .new _, .nil, fun i hi => absurd hi (Nat.not_lt_zero i)⟩ hstep values.zipIdx List.prefix_rfl
  rw [List.length_zipIdx] at hT hl
  refine ⟨self, T, by rw [indexPairs, hall]; exact hrun, hc, hT, fun i v hv => hl i ?_ v hv⟩
  exact (List.getElem?_eq_some_iff.mp hv).1

theorem indexedRoot_canonical {ε : Type} (hlen : values.length ≤ 2 ^ 64)
    (hvalues : ∀ v ∈ values, v ≠ [] ∧ 9 + v.length < 2 ^ 62)
    (hkec : Set.InjOn kec {e | e ∈ indexEncodings values}) :
    ∃ root, (indexedRoot values : Outcome ε H256) = .ok root ∧
      root.1 = trieRoot kec (indexItems values) := by
  obtain ⟨self, T, hrun, hc, hT, hl⟩ := insertAll_indexPairs hlen hvalues hkec
  have hrep : T.Represents Subtype.val [] (indexItems values) := by
    intro I
    simp only [indexItems, List.mem_toFinset, List.mem_map]
    constructor
    · rintro ⟨⟨value, i⟩, hmem, rfl⟩
      have hi := List.mk_mem_zipIdx_iff_getElem?.mp hmem
      let v : Value 9 := ⟨value, hvalues value (List.mem_of_getElem? hi)⟩
      exact ⟨_, v, hl i v hi, rfl⟩
    · rintro ⟨q, v, hq, rfl⟩
      obtain ⟨i, hi, rfl⟩ := (hT.keys q).mp ⟨v, hq⟩
      have hget := List.getElem?_eq_getElem hi
      have hv := hl i ⟨_, hvalues _ (List.getElem_mem hi)⟩ hget
      rw [hq] at hv
      refine ⟨(values[i], i), List.mk_mem_zipIdx_iff_getElem?.mpr hget, ?_⟩
      rw [Option.some.inj hv]
      rfl
  refine ⟨digest (enc T), ?_, ?_⟩
  · have hh : Trie.computeHashFromUnsortedIter (indexPairs values) = .ok (digest (enc T)) := by
      rw [Trie.computeHashFromUnsortedIter, hrun]
      simp only [hc.root, finalHash_rootRef]
    exact congrArg Rust.unwrap hh
  · rw [Tree.trieRoot_eq hT.ragged.canonical hrep]
    rfl

omit [Keccak256] in
theorem finish_ne_nil (e : Encoder) : e.finish ≠ [] := by
  unfold Encoder.finish encodeLength
  split <;> simp

omit [Keccak256] in
theorem Transaction.encodeCanonicalToVec_ne_nil (tx : Transaction) : tx.encodeCanonicalToVec ≠ [] := by
  cases tx with
  | legacyTransaction t => exact finish_ne_nil _
  | _ => exact List.cons_ne_nil _ _

omit [Keccak256] in
theorem Receipt.encode_ne_nil (receipt : Receipt) : encode receipt ≠ [] :=
  List.append_ne_nil_of_right_ne_nil _ (finish_ne_nil _)

omit [Keccak256] in
theorem Withdrawal.length_encode_lt (w : Withdrawal) : (encode w).length < 100 := by
  have hint : ∀ v : UInt64, (encode v).length ≤ 9 := by
    intro v
    change (encodeUint 8 v.toNat).length ≤ 9
    rw [encodeUint_eq v.toNat_lt]
    exact length_indexKey_le v.toNat_lt
  have haddr : (encode w.address).length ≤ 29 := by
    change (encodeSlice w.address.1).length ≤ 29
    have hlen := w.address.2
    rw [encodeSlice_eq (by omega)]
    exact (length_rlpBytes_le (by omega)).trans (by omega)
  have h1 := hint w.index
  have h2 := hint w.validatorIndex
  have h3 := hint w.amount
  let e := (((Encoder.new.encodeField w.index).encodeField w.validatorIndex).encodeField
    w.address).encodeField w.amount
  have hbuf : e.tempBuf.length ≤ 56 := by
    simp only [e, Encoder.encodeField, Encoder.new, List.nil_append, List.length_append]
    omega
  change e.finish.length < 100
  rw [finish_eq (by omega)]
  exact lt_of_le_of_lt (length_rlpList_le (by omega)) (by omega)

/-- The roots of transactions, receipts and withdrawals are those of the maps from the encoded
indices to the canonical encodings, whatever the length of the list. -/
theorem list_roots_canonical {ε : Type} :
    (∀ transactions : List Transaction, transactions.length ≤ 2 ^ 64 →
      (∀ tx ∈ transactions, tx.encodeCanonicalToVec.length < 2 ^ 61) →
      Set.InjOn kec {e | e ∈ indexEncodings (transactions.map Transaction.encodeCanonicalToVec)} →
      ∃ root, (computeTransactionsRoot transactions : Outcome ε H256) = .ok root ∧
        root.1 = trieRoot kec (indexItems (transactions.map Transaction.encodeCanonicalToVec))) ∧
    (∀ receipts : List Receipt, receipts.length ≤ 2 ^ 64 →
      (∀ receipt ∈ receipts, (encode receipt).length < 2 ^ 61) →
      Set.InjOn kec {e | e ∈ indexEncodings (receipts.map encode)} →
      ∃ root, (computeReceiptsRoot receipts : Outcome ε H256) = .ok root ∧
        root.1 = trieRoot kec (indexItems (receipts.map encode))) ∧
    (∀ withdrawals : List Withdrawal, withdrawals.length ≤ 2 ^ 64 →
      Set.InjOn kec {e | e ∈ indexEncodings (withdrawals.map encode)} →
      ∃ root, (computeWithdrawalsRoot withdrawals : Outcome ε H256) = .ok root ∧
        root.1 = trieRoot kec (indexItems (withdrawals.map encode))) ∧
    (computeTransactionsRoot [] : Outcome ε H256) = .ok EMPTY_TRIE_HASH ∧
    (computeReceiptsRoot [] : Outcome ε H256) = .ok EMPTY_TRIE_HASH ∧
    (computeWithdrawalsRoot [] : Outcome ε H256) = .ok EMPTY_TRIE_HASH := by
  refine ⟨fun txs hlen hsize hkec => indexedRoot_canonical (by simpa using hlen) ?_ hkec,
    fun receipts hlen hsize hkec => indexedRoot_canonical (by simpa using hlen) ?_ hkec,
    fun withdrawals hlen hkec => indexedRoot_canonical (by simpa using hlen) ?_ hkec, rfl, rfl, rfl⟩
  · intro v hv
    obtain ⟨tx, htx, rfl⟩ := List.mem_map.mp hv
    have := hsize tx htx
    exact ⟨tx.encodeCanonicalToVec_ne_nil, by omega⟩
  · intro v hv
    obtain ⟨receipt, hreceipt, rfl⟩ := List.mem_map.mp hv
    have := hsize receipt hreceipt
    exact ⟨receipt.encode_ne_nil, by omega⟩
  · intro v hv
    obtain ⟨w, -, rfl⟩ := List.mem_map.mp hv
    have := w.length_encode_lt
    exact ⟨finish_ne_nil _, by omega⟩

@[reducible] def withdrawalKeccak : Keccak256 := Keccak256.ofTable [
  (beBytes 30 0xdd82208099d8808094000000000000000000000000000000000000000107,
    0x795a8686605e2f34413bbf256513de1e4ede6862185d8be5c15d77369542bd41),
  (beBytes 73 0xf847db3199d880809400000000000000000000000000000000000000010780808080808080db3099d88080940000000000000000000000000000000000000001078080808080808080,
    0x6b3713709f2e5387c62f50f92019c4773d13424f936c7175453d793f61743987),
  (beBytes 28 0xdb3099d8808094000000000000000000000000000000000000000107,
    0x276fa11e412665bbdd1581ed2ac36a682a5a0a7978fad56d6d41e978dc96158a),
  (beBytes 28 0xdb3199d8808094000000000000000000000000000000000000000107,
    0xde14266d571b0da804e32c358d9424e16eae9fb8175e66fc485b1a5912f90313)]

def sampleWithdrawals : List Withdrawal := [⟨0, 0, Address.ofNat 1, 7⟩, ⟨0, 0, Address.ofNat 1, 7⟩]

omit [Keccak256] in
theorem list_roots_canonical_sample :
    letI := withdrawalKeccak
    ∃ root, (computeWithdrawalsRoot sampleWithdrawals : Outcome TrieError H256) = .ok root ∧
      root.1 = trieRoot kec (indexItems (sampleWithdrawals.map encode)) := by
  let := withdrawalKeccak
  have hinj : ∀ x ∈ indexEncodings (sampleWithdrawals.map encode),
      ∀ y ∈ indexEncodings (sampleWithdrawals.map encode), kec x = kec y → x = y := by decide +kernel
  exact list_roots_canonical.2.2.1 sampleWithdrawals (by decide) fun x hx y hy => hinj x hx y hy

end
end EthereumRust.Core
