import EthereumRust.Engine.Payload
import EthereumRust.Lib.Floats
import Mathlib.Data.Nat.Digits.Defs

/-! # Parameters of requests: `crates/rpc/types/block_identifier.rs`

JSON values as `serde_json` has them after reading. -/

namespace EthereumRust.Rpc
open Core Storage Engine List

inductive Number where
  | posInt (n : UInt64)
  | negInt (n : Int64)
  | float (x : F64)
  deriving DecidableEq

inductive Value where
  | null
  | bool (b : Bool)
  | number (n : Number)
  | string (text : String)
  | array (values : List Value)
  | object (fields : List (String × Value))

/-! ## Hex texts -/

def toDigit (c : Char) : Option Nat :=
  if '0' ≤ c ∧ c ≤ '9' then some (c.toNat - '0'.toNat)
  else if 'a' ≤ c ∧ c ≤ 'f' then some (c.toNat - 'a'.toNat + 10)
  else if 'A' ≤ c ∧ c ≤ 'F' then some (c.toNat - 'A'.toNat + 10)
  else none

def pushDigit (n : Nat) (c : Char) : Option Nat := do
  let digit ← toDigit c
  if n * 16 + digit < Rust.wordSize then some (n * 16 + digit) else none

def fromStrRadix : List Char → Option UInt64
  | [] | ['+'] | ['-'] => none
  | '+' :: digits => (digits.foldlM pushDigit 0).map UInt64.ofNat
  | digits => (digits.foldlM pushDigit 0).map UInt64.ofNat

def hexDigits (text : String) : Option (List Char) :=
  match text.toList with
  | '0' :: 'x' :: digits => some digits
  | _ => none

def formatHex (n : UInt64) : List Char :=
  if n = 0 then ['0'] else ((Nat.digits 16 n.toNat).map Nat.digitChar).reverse

def u64ToHexStr (n : UInt64) : String := String.ofList ('0' :: 'x' :: formatHex n)

theorem toDigit_digitChar (h : d < 16) : toDigit (Nat.digitChar d) = some d := by
  interval_cases d <;> decide

theorem foldlM_pushDigit (hdigits : ∀ d ∈ digits, d < 16)
    (h : Nat.ofDigits 16 digits < Rust.wordSize) :
    (digits.map Nat.digitChar).reverse.foldlM pushDigit 0 = some (Nat.ofDigits 16 digits) := by
  induction digits with
  | nil => rfl
  | cons d digits ih =>
    rw [Nat.ofDigits_cons] at h ⊢
    rw [map_cons, reverse_cons, foldlM_append,
      ih (fun d' hd' => hdigits d' (mem_cons_of_mem _ hd')) (by omega)]
    change (do let n ← pushDigit (Nat.ofDigits 16 digits) (Nat.digitChar d); some n) = _
    rw [pushDigit, toDigit_digitChar (hdigits d mem_cons_self)]
    have hstep : Nat.ofDigits 16 digits * 16 + d = d + 16 * Nat.ofDigits 16 digits := by omega
    simp [hstep, h]

theorem digitChar_ne_sign (h : d < 16) : Nat.digitChar d ≠ '+' ∧ Nat.digitChar d ≠ '-' := by
  interval_cases d <;> decide

theorem fromStrRadix_formatHex (n : UInt64) : fromStrRadix (formatHex n) = some n := by
  unfold formatHex
  split_ifs with hzero
  · subst hzero
    decide +kernel
  have hdigits : ∀ d ∈ Nat.digits 16 n.toNat, d < 16 := fun d hd => Nat.digits_lt_base (by decide) hd
  have hread := foldlM_pushDigit hdigits (by
    rw [Nat.ofDigits_digits]
    exact Rust.toNat_lt_wordSize n)
  rw [Nat.ofDigits_digits] at hread
  obtain ⟨c, rest, htext⟩ : ∃ c rest, ((Nat.digits 16 n.toNat).map Nat.digitChar).reverse = c :: rest := by
    refine exists_cons_of_ne_nil fun hnil => hzero ?_
    rw [reverse_eq_nil_iff, map_eq_nil_iff, Nat.digits_eq_nil_iff_eq_zero] at hnil
    exact UInt64.toNat_inj.mp hnil
  obtain ⟨d, hd, rfl⟩ : ∃ d ∈ Nat.digits 16 n.toNat, Nat.digitChar d = c := by
    have hmem : c ∈ ((Nat.digits 16 n.toNat).map Nat.digitChar).reverse := htext ▸ mem_cons_self
    rwa [mem_reverse, mem_map] at hmem
  unfold fromStrRadix
  split <;> simp_all

theorem hexDigits_u64ToHexStr (n : UInt64) : hexDigits (u64ToHexStr n) = some (formatHex n) := by
  simp only [hexDigits, u64ToHexStr, String.toList_ofList]

theorem u64ToHexStr_injective (h : u64ToHexStr n = u64ToHexStr m) : n = m := by
  have hdigits : formatHex n = formatHex m := by
    rw [← Option.some_inj, ← hexDigits_u64ToHexStr, ← hexDigits_u64ToHexStr, h]
  rw [← Option.some_inj, ← fromStrRadix_formatHex, ← fromStrRadix_formatHex, hdigits]

/-! ## Blocks -/

inductive BlockTag where
  | earliest
  | finalized
  | safe
  | latest
  | pending
  deriving DecidableEq, Repr

def BlockTag.ofName : String → Option BlockTag
  | "earliest" => some earliest
  | "finalized" => some finalized
  | "safe" => some safe
  | "latest" => some latest
  | "pending" => some pending
  | _ => none

/-- The derived `Deserialize`, which also takes an object with the tag as its only key. -/
def BlockTag.fromValue : Value → Option BlockTag
  | .string name => ofName name
  | .object [(name, .null)] => ofName name
  | _ => none

inductive BlockIdentifier where
  | number (number : BlockNumber)
  | tag (tag : BlockTag)
  deriving DecidableEq, Repr

namespace BlockIdentifier

def resolveBlockNumber (self : BlockIdentifier) (storage : Store) : Option BlockNumber :=
  match self with
  | number n => some n
  | tag .earliest => storage.getEarliestBlockNumber
  | tag .finalized => storage.getFinalizedBlockNumber
  | tag .safe => storage.getSafeBlockNumber
  | tag .latest => storage.getLatestBlockNumber
  | tag .pending => storage.getPendingBlockNumber

def parse (serdeValue : Value) (argIndex : UInt64) : Outcome RpcErr BlockIdentifier :=
  match BlockTag.fromValue serdeValue with
  | some t => .ok (tag t)
  | none =>
    match serdeValue with
    | .string hexStr =>
      match hexDigits hexStr with
      | none => .error (.error (.badHexFormat argIndex))
      | some digits =>
        match fromStrRadix digits with
        | none => .error (.error (.badHexFormat argIndex))
        | some blockNumber => .ok (number blockNumber)
    | _ => .error (.error .badParams)

theorem parse_of_hexDigits (hdigits : hexDigits text = some digits)
    (hn : fromStrRadix digits = some n) (argIndex : UInt64) : parse (.string text) argIndex = .ok (number n) := by
  have htag : BlockTag.ofName text = none := by
    unfold BlockTag.ofName
    split <;> simp_all [hexDigits]
  rw [parse, BlockTag.fromValue, htag]
  simp only [hdigits, hn]

end BlockIdentifier

/-! ## Ranges of blocks -/

/-- So many numbers from one on. -/
def blockNumbers (start count : Nat) : List BlockNumber := (List.range' start count).map UInt64.ofNat

@[simp] theorem length_blockNumbers (start count : Nat) : (blockNumbers start count).length = count := by
  simp [blockNumbers]

theorem blockNumbers_succ (start : BlockNumber) {count} (h : start.toNat + (count + 1) < Rust.wordSize) :
    blockNumbers start.toNat (count + 1) = start :: blockNumbers (start + 1).toNat count := by
  have hnext : (start + 1).toNat = start.toNat + 1 := by
    rw [UInt64.toNat_add]
    exact Nat.mod_eq_of_lt (by simpa using (show start.toNat + 1 < 2 ^ 64 by unfold Rust.wordSize at h; omega))
  rw [blockNumbers, List.range'_succ, map_cons, UInt64.ofNat_toNat, hnext]
  rfl

theorem mem_blockNumbers {start count} (h : start + count < Rust.wordSize) {number} :
    number ∈ blockNumbers start count ↔ start ≤ number.toNat ∧ number.toNat < start + count := by
  rw [blockNumbers, mem_map]
  constructor
  · rintro ⟨k, hk, rfl⟩
    rw [mem_range'_1] at hk
    have hval : (UInt64.ofNat k).toNat = k := UInt64.toNat_ofNat_of_lt (show k < Rust.wordSize by omega)
    rwa [hval]
  · intro hnumber
    exact ⟨number.toNat, mem_range'_1.mpr hnumber, UInt64.ofNat_toNat⟩

end EthereumRust.Rpc
