import EthereumRust.Core.Codec

/-! # What was signed in a legacy transaction

`v` is `27 + p` or, since EIP-155, `35 + 2 c + p`, with the parity `p` and the id `c` of
the chain. The decoder takes any 256 bits for it. -/

namespace EthereumRust.Core
open Rlp Mpt Outcome Rust

def LegacyTransaction.signedMessage (tx : LegacyTransaction) : Option UInt64 → ByteString
  | none => tx.payload.finish
  | some chainId => (((tx.payload.encodeField chainId).encodeField (0 : UInt8)).encodeField (0 : UInt8)).finish

namespace Transaction

variable {ε : Type}

def ReadableV (v : U256) : Prop := v.toNat < 2 ^ 64 ∧ (v.toNat = 27 ∨ v.toNat = 28 ∨ 35 ≤ v.toNat)

/-- Here `v` stands for the parity `p`, with the id of a chain or without. -/
def ReadsV (v : U256) (p : Bool) : Option UInt64 → Prop
  | none => v.toNat = 27 + p.toNat
  | some chainId => v.toNat = 35 + 2 * chainId.toNat + p.toNat ∧ v.toNat < 2 ^ 64

theorem ReadsV.lt (h : ReadsV v p chain) : v.toNat < 2 ^ 64 := by
  cases chain with
  | none =>
    have hv : v.toNat = 27 + p.toNat := h
    have hp := p.toNat_lt
    omega
  | some => exact h.2

theorem asU64_eq_ok : (asU64 v : Outcome ε UInt64) = .ok word ↔ v.toNat = word.toNat := by
  rw [asU64]
  split_ifs with h
  · rw [Except.ok.injEq, ← UInt64.toNat_inj,
      show (UInt64.ofNat v.toNat).toNat = v.toNat from UInt64.toNat_ofNat_of_lt h]
  · have hword := toNat_lt_wordSize word
    refine iff_of_false (fun hok => by cases hok) ?_
    omega

theorem ReadsV.asU64 (h : ReadsV v p chain) :
    ∃ word : UInt64, (Transaction.asU64 v : Outcome ε UInt64) = .ok word ∧ word.toNat = v.toNat := by
  obtain ⟨word, hword⟩ := exists_toNat_eq h.lt
  exact ⟨word, asU64_eq_ok.mpr hword.symm, hword⟩

theorem exists_readsV (h : ReadableV v) : ∃ p chain, ReadsV v p chain := by
  obtain ⟨hlt, h27 | h28 | h35⟩ := h
  · exact ⟨false, none, h27⟩
  · exact ⟨true, none, h28⟩
  · obtain ⟨chainId, hchainId⟩ := exists_toNat_eq (n := (v.toNat - 35) / 2) (by rw [wordSize]; omega)
    refine ⟨(v.toNat - 35) % 2 = 1, some chainId, ?_, hlt⟩
    rcases Nat.mod_two_eq_zero_or_one (v.toNat - 35) with heven | hodd
    · simp only [heven]
      change _ = _ + 0
      omega
    · simp only [hodd]
      change _ = _ + 1
      omega

theorem deriveLegacyChainId_of_readsV (h : ReadsV v p chain) :
    (deriveLegacyChainId v : Outcome ε (Option UInt64)) = .ok chain := by
  obtain ⟨word, hasU64, hword⟩ := h.asU64
  rw [deriveLegacyChainId, hasU64, bind_ok]
  have hp := p.toNat_lt
  cases chain with
  | none =>
    have hv : v.toNat = 27 + p.toNat := h
    refine if_pos ?_
    rw [← UInt64.toNat_inj, ← UInt64.toNat_inj, hword]
    change _ = 27 ∨ _ = 28
    omega
  | some chainId =>
    have hv := h.1
    rw [if_neg]
    · obtain ⟨twice, htwice⟩ := exists_toNat_eq (n := v.toNat - 35) (by have := h.2; rw [wordSize]; omega)
      have hsub : (Rust.u64Sub word 35 : Outcome ε UInt64) = .ok twice := by
        rw [u64Sub_eq_ok, hword]
        change _ = _ + 35
        omega
      have hhalf : twice / 2 = chainId := by
        rw [← UInt64.toNat_inj, UInt64.toNat_div]
        change _ / 2 = _
        omega
      rw [hsub, bind_ok, hhalf]
      rfl
    · rw [← UInt64.toNat_inj, ← UInt64.toNat_inj, hword]
      change ¬ (_ = 27 ∨ _ = 28)
      omega

theorem saturatingSub_ne_zero {word offset : UInt64} (h : word.toNat = offset.toNat + p.toNat) :
    (Rust.saturatingSub word offset != 0) = p := by
  have hsub : (Rust.saturatingSub word offset).toNat = p.toNat := by
    rw [toNat_saturatingSub]
    omega
  cases p with
  | false => rw [UInt64.toNat_inj.mp (hsub.trans rfl : _ = (0 : UInt64).toNat)]; rfl
  | true => rw [UInt64.toNat_inj.mp (hsub.trans rfl : _ = (1 : UInt64).toNat)]; rfl

theorem legacySigned_of_readsV (h : ReadsV tx.v p chain) :
    (legacySigned tx chain : Outcome ε _) = .ok (p, tx.signedMessage chain) := by
  obtain ⟨word, hasU64, hword⟩ := h.asU64 (ε := ε)
  cases chain with
  | none =>
    have hv : word.toNat = (27 : UInt64).toNat + p.toNat := hword.trans h
    rw [legacySigned, hasU64, bind_ok, saturatingSub_ne_zero hv]
    rfl
  | some chainId =>
    obtain ⟨hv, hlt⟩ := h
    obtain ⟨twice, htwice⟩ := exists_toNat_eq (n := chainId.toNat * 2) (by rw [wordSize]; omega)
    obtain ⟨offset, hoffset⟩ := exists_toNat_eq (n := 35 + twice.toNat) (by rw [wordSize]; omega)
    have hmul : (Rust.u64Mul chainId 2 : Outcome ε UInt64) = .ok twice := u64Mul_eq_ok.mpr htwice
    have hadd : (Rust.u64Add 35 twice : Outcome ε UInt64) = .ok offset := u64Add_eq_ok.mpr hoffset
    have hword' : word.toNat = offset.toNat + p.toNat := by omega
    rw [legacySigned, hasU64, bind_ok, hmul, bind_ok, hadd, bind_ok,
      saturatingSub_ne_zero hword']
    rfl

/-- Any other `v` ends in a panic. -/
theorem readableV_of_returns (h : Outcome.Returns (deriveLegacyChainId v : Outcome ε (Option UInt64))) :
    ReadableV v := by
  obtain ⟨hasU64, hrest⟩ := returns_bind.mp h
  rw [asU64] at hasU64
  split_ifs at hasU64 with hlt
  · refine ⟨hlt, ?_⟩
    obtain ⟨word, hword⟩ := exists_toNat_eq hlt
    have hreturns := hrest word (asU64_eq_ok.mpr hword.symm)
    split_ifs at hreturns with h27
    · rw [← UInt64.toNat_inj, ← UInt64.toNat_inj, hword] at h27
      exact h27.elim .inl fun h28 => .inr (.inl h28)
    · have hsub := (returns_bind.mp hreturns).1
      rw [Rust.u64Sub] at hsub
      split_ifs at hsub with hle
      · rw [UInt64.le_iff_toNat_le, hword] at hle
        exact .inr (.inr hle)
      · exact hsub.elim
  · exact hasU64.elim

section

variable [Keccak256] [Secp256k1]

/-- The `v` of a legacy transaction is interpreted: nothing panics, and the chain, the parity and the signed message
are what `v` stands for. -/
structure Interpreted (ε : Type) (tx : LegacyTransaction) : Prop where
  returns : ∃ chain signed, ((legacyTransaction tx).chainId : Outcome ε (Option UInt64)) = .ok chain ∧
    (legacySigned tx chain : Outcome ε (Bool × ByteString)) = .ok signed
  reads : ∀ p chain, ReadsV tx.v p chain →
    ((legacyTransaction tx).chainId : Outcome ε (Option UInt64)) = .ok chain ∧
    (legacySigned tx chain : Outcome ε (Bool × ByteString)) = .ok (p, tx.signedMessage chain) ∧
    ((legacyTransaction tx).sender : Outcome ε Address) = recoverAddress tx.r tx.s p (tx.signedMessage chain)

/-- The `v` is interpreted exactly if it fits into 64 bits and is 27, 28 or at least 35. -/
theorem legacy_v_interpreted_iff (ε : Type) (tx : LegacyTransaction) : Interpreted ε tx ↔ ReadableV tx.v := by
  constructor
  · rintro ⟨⟨chain, _, hchain, -⟩, -⟩
    refine readableV_of_returns (ε := ε) ?_
    have hderive : (deriveLegacyChainId tx.v : Outcome ε (Option UInt64)) = .ok chain := hchain
    rw [hderive]
    trivial
  · intro h
    obtain ⟨p, chain, hreads⟩ := exists_readsV h
    refine ⟨⟨chain, _, deriveLegacyChainId_of_readsV hreads, legacySigned_of_readsV hreads⟩, ?_⟩
    intro p chain hreads
    have hchain := deriveLegacyChainId_of_readsV (ε := ε) hreads
    have hsigned := legacySigned_of_readsV (ε := ε) hreads
    refine ⟨hchain, hsigned, ?_⟩
    rw [sender, hchain, Outcome.bind_ok, hsigned]
    rfl

end

/-- A transaction that is decoded and whose `v` is too small or too large. -/
theorem legacy_v_panics :
    let tx (v : U256) : LegacyTransaction := ⟨0, 0, 0, .create, 0, ⟨[]⟩, v, 1, 1⟩
    (decode (encode (tx 0)) : Decode LegacyTransaction) = .ok (tx 0) ∧
    ((legacyTransaction (tx 0)).chainId : Outcome Unit (Option UInt64)) =
      Outcome.panic "attempt to subtract with overflow" ∧
    (decode (encode (tx 0x10000000000000000)) : Decode LegacyTransaction) = .ok (tx 0x10000000000000000) ∧
    ((legacyTransaction (tx 0x10000000000000000)).chainId : Outcome Unit (Option UInt64)) =
      Outcome.panic "Integer overflow when casting to u64" := by
  decide +kernel

end Transaction
end EthereumRust.Core
