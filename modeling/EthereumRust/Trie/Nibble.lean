import EthereumRust.Lib.Exec
import EthereumRust.Lib.Nibbles

/-! # Paths: `crates/trie/nibble.rs`

`NibbleSlice` is a byte string with the number of half-bytes already walked; `NibbleVec`
is a run of half-bytes, whose first and last byte may each count for one half only. The
half that does not count keeps whatever was there. Offsets index data in memory, so their
sums do not overflow. -/

namespace EthereumRust.Mpt
open Nibble

variable {ε : Type}

structure NibbleSlice where
  data : List UInt8
  offset : Nat
  deriving DecidableEq

structure NibbleVec where
  data : List UInt8
  firstIsHalf : Bool
  lastIsHalf : Bool
  deriving DecidableEq, Repr

namespace NibbleVec

def fromSingle (nibble : Nibble) (isRightHalf : Bool) : NibbleVec where
  data := [if isRightHalf then nibble.toByte else nibble.toByte <<< 4]
  firstIsHalf := isRightHalf
  lastIsHalf := !isRightHalf

def isEmpty (self : NibbleVec) : Bool := self.data.isEmpty

def len (self : NibbleVec) : Outcome ε Nat := do
  let n ← Rust.sub (2 * self.data.length) self.firstIsHalf.toNat
  Rust.sub n self.lastIsHalf.toNat

/-- Resets to the default if no half-byte is represented. -/
def normalize (self : NibbleVec) : NibbleVec :=
  if self.data.isEmpty || (self.data.length == 1 && self.firstIsHalf && self.lastIsHalf) then
    ⟨[], false, false⟩
  else self

def splitExtractAt (self : NibbleVec) (index : Nat) :
    Outcome ε (NibbleVec × Nibble × NibbleVec) := do
  let cut := (index + 1 + self.firstIsHalf.toNat) / 2
  let left ← Rust.slice self.data 0 cut
  let leftVec := normalize
    ⟨left, self.firstIsHalf, (index + self.firstIsHalf.toNat) % 2 != 0⟩
  let offset := index + self.firstIsHalf.toNat
  Rust.assert (decide ((offset + self.lastIsHalf.toNat) / 2 < self.data.length)) "out of bounds"
  let byte ← Rust.index self.data (offset / 2)
  let value := if offset % 2 != 0 then low byte else high byte
  let rightVec := normalize
    ⟨if cut ≥ self.data.length then [] else self.data.drop cut,
      (index + self.firstIsHalf.toNat) % 2 == 0, self.lastIsHalf⟩
  pure (leftVec, value, rightVec)

def prepend (self : NibbleVec) (nibble : Nibble) : Outcome ε NibbleVec :=
  if self.firstIsHalf then
    match self.data with
    | b :: bs => .ok { self with
        data := ((b &&& (0x0F : UInt8)) ||| (nibble.toByte <<< (4 : UInt8))) :: bs, firstIsHalf := false }
    | [] => Outcome.panic "index out of bounds"
  else .ok { self with data := nibble.toByte :: self.data, firstIsHalf := true }

/-- The bytes of `self` once its last half is filled with the first half of `other`. -/
def fillLast (self other : NibbleVec) : Outcome ε (List UInt8) :=
  if self.lastIsHalf then
    match self.data.getLast?, other.data with
    | some last, o :: _ => .ok (self.data.dropLast ++ [(last &&& 0xF0) ||| (o &&& 0x0F)])
    | none, _ => Outcome.panic "called `Option::unwrap()` on a `None` value"
    | _, [] => Outcome.panic "index out of bounds"
  else .ok self.data

def extend (self other : NibbleVec) : Outcome ε NibbleVec := do
  Rust.assert (self.lastIsHalf == other.firstIsHalf) "assertion `left == right` failed"
  let data ← fillLast self other
  let tail ← if other.firstIsHalf then Rust.sliceFrom other.data 1 else pure other.data
  pure { self with data := data ++ tail, lastIsHalf := other.lastIsHalf }

end NibbleVec

structure NibbleVecIter where
  inner : NibbleVec
  pos : Nat

namespace NibbleVecIter

def next (self : NibbleVecIter) : Option (Nibble × NibbleVecIter) :=
  match self.inner.data[self.pos / 2]? with
  | none => none
  | some byte =>
    if self.pos / 2 + 1 == self.inner.data.length && self.pos % 2 == 1 && self.inner.lastIsHalf then
      none
    else some (if self.pos % 2 != 0 then low byte else high byte, { self with pos := self.pos + 1 })

def collect : Nat → NibbleVecIter → List Nibble
  | 0, _ => []
  | fuel + 1, it =>
    match it.next with
    | none => []
    | some (x, it) => x :: it.collect fuel

end NibbleVecIter

def NibbleVec.iter (self : NibbleVec) : List Nibble :=
  (NibbleVecIter.mk self self.firstIsHalf.toNat).collect (2 * self.data.length)

namespace NibbleSlice

def new (inner : List UInt8) : NibbleSlice := ⟨inner, 0⟩

def len (self : NibbleSlice) : Outcome ε Nat := Rust.sub (2 * self.data.length) self.offset

def splitToVec (self : NibbleSlice) (offset : Nat) : Outcome ε NibbleVec := do
  let data ← Rust.slice self.data (self.offset / 2) ((self.offset + offset + 1) / 2)
  pure ⟨data, self.offset % 2 != 0, (self.offset + offset) % 2 != 0⟩

def offsetAdd (self : NibbleSlice) (delta : Nat) : NibbleSlice :=
  { self with offset := self.offset + delta }

def next (self : NibbleSlice) : Option (Nibble × NibbleSlice) :=
  match self.data[self.offset / 2]? with
  | none => none
  | some byte =>
    some (if self.offset % 2 != 0 then low byte else high byte, self.offsetAdd 1)

def rest (self : NibbleSlice) : List Nibble := (nibbles self.data).drop self.offset

/-- The bytes after the first half, and the last half when it stands alone. -/
def sameTail (lastIsHalf : Bool) (prfx self : List UInt8) : Outcome ε Bool :=
  if lastIsHalf then do
    let i ← Rust.sub self.length 1
    let p ← Rust.index prfx i
    let s ← Rust.index self i
    if p &&& 0xF0 != s &&& 0xF0 then pure false else pure (self.take i == prfx.take i)
  else pure (self == prfx)

/-- A prefix's bytes against as many bytes of the path. -/
def sameBytes (firstIsHalf lastIsHalf : Bool) (prfx self : List UInt8) : Outcome ε Bool :=
  if firstIsHalf then do
    let p ← Rust.index prfx 0
    let s ← Rust.index self 0
    if p &&& 0x0F != s &&& 0x0F then pure false
    else sameTail lastIsHalf (prfx.drop 1) (self.drop 1)
  else sameTail lastIsHalf prfx self

def skipPrefix (self : NibbleSlice) (pfx : NibbleVec) : Outcome ε (Bool × NibbleSlice) := do
  Rust.assert ((self.offset % 2 != 0) == pfx.firstIsHalf) "inconsistent internal tree structure"
  if self.data.length < pfx.data.length then pure (false, self) else
  let selfSlice ← Rust.slice self.data (self.offset / 2) (self.offset / 2 + pfx.data.length)
  if pfx.data.isEmpty || (pfx.data.length == 1 && pfx.firstIsHalf && pfx.lastIsHalf) then
    pure (true, self) else
  if ← sameBytes pfx.firstIsHalf pfx.lastIsHalf pfx.data selfSlice then
    pure (true, { self with offset := self.offset + 2 * pfx.data.length -
      pfx.firstIsHalf.toNat - pfx.lastIsHalf.toNat })
  else pure (false, self)

def cmpRest (self : NibbleSlice) (other : List UInt8) : Outcome ε Bool := do
  let othrSlice ← Rust.sliceFrom other (self.offset / 2)
  let selfSlice ← Rust.sliceFrom self.data (self.offset / 2)
  if self.offset % 2 != 0 then
    let o ← Rust.index othrSlice 0
    let s ← Rust.index selfSlice 0
    if o &&& 0x0F != s &&& 0x0F then pure false
    else pure (selfSlice.drop 1 == othrSlice.drop 1)
  else pure (selfSlice == othrSlice)

def countBytes : List UInt8 → List UInt8 → Nat × Bool
  | a :: as, b :: bs =>
    if a = b then ((countBytes as bs).1 + 2, (countBytes as bs).2)
    else if a &&& 0xF0 = b &&& 0xF0 then (1, false)
    else (0, false)
  | _, _ => (0, true)

def countAligned (self : NibbleSlice) (other : NibbleVec) : Outcome ε Nat := do
  let mine ← Rust.sliceFrom self.data ((self.offset + 1) / 2)
  let stop ← Rust.sub other.data.length other.lastIsHalf.toNat
  let theirs ← Rust.slice other.data other.firstIsHalf.toNat stop
  let (byteNibbleCount, checkLastHalf) := countBytes mine theirs
  let self := self.offsetAdd byteNibbleCount
  if checkLastHalf && other.lastIsHalf &&
      (self.next.map (·.1.toByte) == other.data.getLast?.map (fun b : UInt8 => b >>> 4)) then
    pure (byteNibbleCount + 1)
  else pure byteNibbleCount

def countPrefixVec (self : NibbleSlice) (other : NibbleVec) : Outcome ε Nat := do
  if other.data.isEmpty then pure 0 else
  Rust.assert ((self.offset % 2 != 0) == other.firstIsHalf) "assertion `left == right` failed"
  if other.firstIsHalf then
    let o ← Rust.index other.data 0
    match self.next with
    | some (x, self) =>
      if x.toByte == o &&& 0x0F then
        let n ← countAligned self other
        pure (n + 1)
      else pure 0
    | none => pure 0
  else countAligned self other

def countPrefixSlice (self other : NibbleSlice) : Outcome ε Nat := do
  Rust.assert (self.offset == other.offset) "assertion `left == right` failed"
  if self.offset % 2 != 0 then
    let a ← Rust.index self.data (self.offset / 2)
    let b ← Rust.index other.data (self.offset / 2)
    if a &&& 0x0F == b &&& 0x0F then
      let mine ← Rust.sliceFrom self.data ((self.offset + 1) / 2)
      let theirs ← Rust.sliceFrom other.data ((self.offset + 1) / 2)
      pure ((countBytes mine theirs).1 + 1)
    else pure 0
  else
    let mine ← Rust.sliceFrom self.data ((self.offset + 1) / 2)
    let theirs ← Rust.sliceFrom other.data ((self.offset + 1) / 2)
    pure (countBytes mine theirs).1

end NibbleSlice
end EthereumRust.Mpt
