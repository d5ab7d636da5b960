import EthereumRust.Net.Discv4

/-! # `crates/net/rlpx/frame.rs`: frames of an RLPx connection

AES and its keystreams are functions of the key, and a Keccak state is what was put into
it. What a frame is depends on one direction of a connection only, its channel. -/

namespace EthereumRust

def Rlp.FixedBytes.xor {n : Nat} (a b : Rlp.FixedBytes n) : Rlp.FixedBytes n :=
  ⟨List.zipWith (· ^^^ ·) a.1 b.1, by rw [List.length_zipWith, a.2, b.2, Nat.min_self]⟩

namespace Net

open Rlp Mpt List

abbrev H128 := FixedBytes 16

/-- The `aes` and `ctr` crates. -/
class Aes256 where
  encryptBlock : (key : H256) → H128 → H128
  keystream : (key : H256) → (iv : H128) → Nat → UInt8

/-- A Keccak state, as the bytes that were put into it. -/
structure KeccakState where
  absorbed : ByteString
  deriving DecidableEq

namespace KeccakState

def update (self : KeccakState) (data : ByteString) : KeccakState := ⟨self.absorbed ++ data⟩

/-- The first 16 bytes of the digest. -/
def finalize [Keccak256] (self : KeccakState) : H128 :=
  ⟨(digest self.absorbed).1.take 16, by rw [List.length_take, (digest self.absorbed).2]; rfl⟩

end KeccakState

/-- A stream cipher with the number of bytes of the keystream that were used. -/
structure Aes256Ctr64BE where
  key : H256
  iv : H128
  position : Nat
  deriving DecidableEq

namespace Aes256Ctr64BE

variable [Aes256] (self : Aes256Ctr64BE)

def applyKeystream (data : ByteString) : ByteString :=
  data.mapIdx fun i byte => byte ^^^ Aes256.keystream self.key self.iv (self.position + i)

omit [Aes256] in
def advance (n : Nat) : Aes256Ctr64BE := { self with position := self.position + n }

@[simp] theorem length_applyKeystream (data : ByteString) : (self.applyKeystream data).length = data.length :=
  length_mapIdx

@[simp] theorem applyKeystream_applyKeystream (data : ByteString) :
    self.applyKeystream (self.applyKeystream data) = data := by
  refine ext_getElem (by simp) fun i _ _ => ?_
  simp only [applyKeystream, getElem_mapIdx, UInt8.xor_assoc, UInt8.xor_self, UInt8.xor_zero]

end Aes256Ctr64BE

structure RLPxState where
  macKey : H256
  ingressMac : KeccakState
  egressMac : KeccakState
  ingressAes : Aes256Ctr64BE
  egressAes : Aes256Ctr64BE
  deriving DecidableEq

namespace RLPxState

def new (aesKey macKey localNonce : H256) (localInitMessage : ByteString) (remoteNonce : H256)
    (remoteInitMessage : ByteString) : RLPxState where
  macKey := macKey
  ingressMac := KeccakState.update (KeccakState.update ⟨[]⟩ (macKey.xor localNonce).1) remoteInitMessage
  egressMac := KeccakState.update (KeccakState.update ⟨[]⟩ (macKey.xor remoteNonce).1) localInitMessage
  ingressAes := ⟨aesKey, ⟨List.replicate 16 0, rfl⟩, 0⟩
  egressAes := ⟨aesKey, ⟨List.replicate 16 0, rfl⟩, 0⟩

end RLPxState

/-- A side of a connection with the bytes it has written, or those it has still to read. -/
structure Connection where
  state : RLPxState
  stream : ByteString
  deriving DecidableEq

namespace Frame

variable {ε : Type}

def resize (data : ByteString) (n : Nat) : ByteString := data.take n ++ List.replicate (n - data.length) 0

def nextMultipleOf (n k : Nat) : Nat := if n % k = 0 then n else n + (k - n % k)

def writeAll (data : ByteString) : Exec Connection ε Unit :=
  Exec.modify fun conn => { conn with stream := conn.stream ++ data }

def readExact (n : Nat) : Exec Connection ε ByteString := do
  let conn ← Exec.get
  if n ≤ conn.stream.length then
    Exec.set { conn with stream := conn.stream.drop n }
    pure (conn.stream.take n)
  else Exec.panic "called `Result::unwrap()` on an `Err` value"

def toArray (data : ByteString) : Exec Connection ε H128 :=
  if h : data.length = 16 then pure ⟨data, h⟩
  else Exec.panic "called `Result::unwrap()` on an `Err` value"

def assertEq (left right : ByteString) : Exec Connection ε Unit :=
  if left = right then pure () else Exec.panic "assertion `left == right` failed"

section

variable [Aes256]

def applyEgress (data : ByteString) : Exec Connection ε ByteString := do
  let conn ← Exec.get
  Exec.set { conn with state.egressAes := conn.state.egressAes.advance data.length }
  pure (conn.state.egressAes.applyKeystream data)

omit [Aes256] in
def updateEgress (data : ByteString) : Exec Connection ε Unit :=
  Exec.modify fun conn => { conn with state.egressMac := conn.state.egressMac.update data }

omit [Aes256] in
def finalizeEgress [Keccak256] : Exec Connection ε H128 := do
  let conn ← Exec.get
  pure conn.state.egressMac.finalize

variable [Keccak256]

def write (frameData : ByteString) : Exec Connection ε Unit := do
  let macKey := (← Exec.get).state.macKey
  -- header = frame-size || header-data || header-padding
  let frameSize := beBytes 8 frameData.length
  let header := resize (frameSize.drop 5 ++ encode ((0 : UInt8), (0 : UInt8))) 16
  let header ← applyEgress header
  let seed := Aes256.encryptBlock macKey (← finalizeEgress)
  let headerMacSeed := seed.xor (← toArray header)
  updateEgress headerMacSeed.1
  let headerMac ← finalizeEgress
  writeAll (header ++ headerMac.1)
  let frameCiphertext ← applyEgress (resize frameData (nextMultipleOf frameData.length 16))
  writeAll frameCiphertext
  updateEgress frameCiphertext
  let macDigest ← finalizeEgress
  let frameMacSeed := (Aes256.encryptBlock macKey macDigest).xor macDigest
  updateEgress frameMacSeed.1
  let frameMac ← finalizeEgress
  writeAll frameMac.1

end

section

variable [Aes256]

def applyIngress (data : ByteString) : Exec Connection ε ByteString := do
  let conn ← Exec.get
  Exec.set { conn with state.ingressAes := conn.state.ingressAes.advance data.length }
  pure (conn.state.ingressAes.applyKeystream data)

omit [Aes256] in
def updateIngress (data : ByteString) : Exec Connection ε Unit :=
  Exec.modify fun conn => { conn with state.ingressMac := conn.state.ingressMac.update data }

omit [Aes256] in
def finalizeIngress [Keccak256] : Exec Connection ε H128 := do
  let conn ← Exec.get
  pure conn.state.ingressMac.finalize

variable [Keccak256]

def read : Exec Connection ε ByteString := do
  let macKey := (← Exec.get).state.macKey
  let frameHeader ← readExact 32
  let headerCiphertext := frameHeader.take 16
  let headerMac := frameHeader.drop 16
  let seed := Aes256.encryptBlock macKey (← finalizeIngress)
  let headerMacSeed := seed.xor (← toArray headerCiphertext)
  updateIngress headerMacSeed.1
  let expectedHeaderMac ← finalizeIngress
  assertEq headerMac expectedHeaderMac.1
  let headerText ← applyIngress headerCiphertext
  -- both are unused, and always zero
  assertEq ((headerText.take 6).drop 3) (encode ((0 : UInt8), (0 : UInt8)))
  let frameSize := beNat (headerText.take 3)
  let paddedSize := nextMultipleOf frameSize 16
  let frameData ← readExact (paddedSize + 16)
  let frameCiphertext := frameData.take paddedSize
  let frameMac := frameData.drop paddedSize
  updateIngress frameCiphertext
  let macDigest ← finalizeIngress
  let frameMacSeed := (Aes256.encryptBlock macKey macDigest).xor macDigest
  updateIngress frameMacSeed.1
  let expectedFrameMac ← finalizeIngress
  assertEq frameMac expectedFrameMac.1
  let frameText ← applyIngress frameCiphertext
  pure (frameText.take frameSize)

end

/-! ## Channels -/

end Frame

/-- One direction of a connection. -/
structure Channel where
  macKey : H256
  mac : KeccakState
  aes : Aes256Ctr64BE

namespace RLPxState

def egress (self : RLPxState) : Channel := ⟨self.macKey, self.egressMac, self.egressAes⟩

def ingress (self : RLPxState) : Channel := ⟨self.macKey, self.ingressMac, self.ingressAes⟩

def withEgress (self : RLPxState) (mac : KeccakState) (aes : Aes256Ctr64BE) : RLPxState :=
  { self with egressMac := mac, egressAes := aes }

def withIngress (self : RLPxState) (mac : KeccakState) (aes : Aes256Ctr64BE) : RLPxState :=
  { self with ingressMac := mac, ingressAes := aes }

end RLPxState

namespace Channel

open Frame

/-- The header of a frame before its encryption. -/
def headerText (size : Nat) : H128 := ⟨beBytes 3 size ++ [0xC2, 0x80, 0x80] ++ List.replicate 10 0, by simp⟩

variable [Aes256] (channel : Channel)

def header (data : ByteString) : H128 :=
  ⟨channel.aes.applyKeystream (headerText data.length).1,
    by rw [Aes256Ctr64BE.length_applyKeystream, (headerText data.length).2]⟩

variable [Keccak256]

def afterHeader (data : ByteString) : Channel where
  macKey := channel.macKey
  mac := channel.mac.update ((Aes256.encryptBlock channel.macKey channel.mac.finalize).xor (channel.header data)).1
  aes := channel.aes.advance 16

def body (data : ByteString) : ByteString :=
  (channel.afterHeader data).aes.applyKeystream (resize data (nextMultipleOf data.length 16))

/-- The MAC with the encrypted message, before its own encryption is added. -/
def bodyMac (data : ByteString) : KeccakState := (channel.afterHeader data).mac.update (channel.body data)

def after (data : ByteString) : Channel where
  macKey := channel.macKey
  mac := (channel.bodyMac data).update
    ((Aes256.encryptBlock channel.macKey (channel.bodyMac data).finalize).xor (channel.bodyMac data).finalize).1
  aes := (channel.afterHeader data).aes.advance (nextMultipleOf data.length 16)

def frame (data : ByteString) : ByteString :=
  (channel.header data).1 ++ (channel.afterHeader data).mac.finalize.1 ++
    (channel.body data ++ (channel.after data).mac.finalize.1)

end Channel

/-! ## One frame -/

namespace Frame

variable {ε : Type}

theorem headerText_eq (size : Nat) :
    resize ((beBytes 8 size).drop 5 ++ encode ((0 : UInt8), (0 : UInt8))) 16 = (Channel.headerText size).1 := rfl

theorem le_nextMultipleOf (n k : Nat) : n ≤ nextMultipleOf n k := by
  unfold nextMultipleOf
  split <;> omega

theorem length_resize (h : data.length ≤ n) : (resize data n).length = n := by
  rw [resize, length_append, length_take, length_replicate]
  omega

theorem take_resize (h : data.length ≤ n) :
    (resize data n).take data.length = data := by
  rw [resize, take_of_length_le h]
  exact take_left

theorem toArray_run (data : H128) (conn : Connection) :
    (toArray data.1 : Exec Connection ε H128) conn = (.ok data, conn) := by
  rw [toArray, dif_pos data.2]
  rfl

theorem assertEq_self (data : ByteString) (conn : Connection) :
    (assertEq data data : Exec Connection ε Unit) conn = (.ok (), conn) := by
  rw [assertEq, if_pos rfl]
  rfl

theorem readExact_run (hlength : data.length = n) (state : RLPxState) (rest : ByteString) :
    (readExact n : Exec Connection ε ByteString) ⟨state, data ++ rest⟩ = (.ok data, ⟨state, rest⟩) := by
  subst hlength
  rw [readExact, Exec.run_bind_ok (Exec.run_get _)]
  dsimp only
  rw [if_pos (by simp), Exec.run_bind_ok (Exec.run_set _ _)]
  simp

variable {state : RLPxState}

theorem writeAll_run (data : ByteString) :
    (writeAll data : Exec Connection ε Unit) ⟨state, stream⟩ = (.ok (), ⟨state, stream ++ data⟩) := rfl

theorem applyEgress_run [Aes256] (data : ByteString) :
    (applyEgress data : Exec Connection ε ByteString) ⟨state.withEgress mac aes, stream⟩ =
      (.ok (aes.applyKeystream data), ⟨state.withEgress mac (aes.advance data.length), stream⟩) := rfl

theorem updateEgress_run (data : ByteString) :
    (updateEgress data : Exec Connection ε Unit) ⟨state.withEgress mac aes, stream⟩ =
      (.ok (), ⟨state.withEgress (mac.update data) aes, stream⟩) := rfl

theorem finalizeEgress_run [Keccak256] :
    (finalizeEgress : Exec Connection ε H128) ⟨state.withEgress mac aes, stream⟩ =
      (.ok mac.finalize, ⟨state.withEgress mac aes, stream⟩) := rfl

theorem applyIngress_run [Aes256] (data : ByteString) :
    (applyIngress data : Exec Connection ε ByteString) ⟨state.withIngress mac aes, stream⟩ =
      (.ok (aes.applyKeystream data), ⟨state.withIngress mac (aes.advance data.length), stream⟩) := rfl

theorem updateIngress_run (data : ByteString) :
    (updateIngress data : Exec Connection ε Unit) ⟨state.withIngress mac aes, stream⟩ =
      (.ok (), ⟨state.withIngress (mac.update data) aes, stream⟩) := rfl

theorem finalizeIngress_run [Keccak256] :
    (finalizeIngress : Exec Connection ε H128) ⟨state.withIngress mac aes, stream⟩ =
      (.ok mac.finalize, ⟨state.withIngress mac aes, stream⟩) := rfl

section

variable [Aes256] [Keccak256]

/-- `write` sends the frame for its egress channel. -/
theorem write_run (data : ByteString) (state : RLPxState) (stream : ByteString) :
    (write data : Exec Connection ε Unit) ⟨state, stream⟩ =
      (.ok (), ⟨state.withEgress (state.egress.after data).mac (state.egress.after data).aes,
        stream ++ state.egress.frame data⟩) := by
  have hheader : state.egressAes.applyKeystream (Channel.headerText data.length).1 = (state.egress.header data).1 := by
    simp only [Channel.header, RLPxState.egress]
  have happly : (applyEgress (Channel.headerText data.length).1 : Exec Connection ε ByteString) ⟨state, stream⟩ =
      (.ok (state.egressAes.applyKeystream (Channel.headerText data.length).1),
        ⟨state.withEgress state.egressMac (state.egressAes.advance (Channel.headerText data.length).1.length),
          stream⟩) := rfl
  unfold write
  rw [Exec.run_bind_ok (Exec.run_get _)]
  dsimp only
  rw [headerText_eq, Exec.run_bind_ok happly, hheader, (Channel.headerText _).2, Exec.run_bind_ok finalizeEgress_run,
    Exec.run_bind_ok (toArray_run _ _), Exec.run_bind_ok (updateEgress_run _),
    Exec.run_bind_ok finalizeEgress_run, Exec.run_bind_ok (writeAll_run _), Exec.run_bind_ok (applyEgress_run _),
    length_resize (le_nextMultipleOf _ _), Exec.run_bind_ok (writeAll_run _), Exec.run_bind_ok (updateEgress_run _),
    Exec.run_bind_ok finalizeEgress_run, Exec.run_bind_ok (updateEgress_run _),
    Exec.run_bind_ok finalizeEgress_run, writeAll_run, append_assoc (stream ++ _), append_assoc stream]
  simp only [Channel.frame, Channel.after, Channel.bodyMac, Channel.body, Channel.afterHeader,
    RLPxState.egress]

theorem length_body (channel : Channel) (data : ByteString) :
    (channel.body data).length = nextMultipleOf data.length 16 := by
  rw [Channel.body, Aes256Ctr64BE.length_applyKeystream, length_resize (le_nextMultipleOf _ _)]

omit [Keccak256] in
theorem applyKeystream_header (channel : Channel) (data : ByteString) :
    channel.aes.applyKeystream (channel.header data).1 = (Channel.headerText data.length).1 := by
  simp only [Channel.header, Aes256Ctr64BE.applyKeystream_applyKeystream]

theorem applyKeystream_body (channel : Channel) (data : ByteString) :
    (channel.afterHeader data).aes.applyKeystream (channel.body data) =
      resize data (nextMultipleOf data.length 16) := by
  rw [Channel.body, Aes256Ctr64BE.applyKeystream_applyKeystream]

omit [Aes256] [Keccak256] in
theorem beNat_headerText (h : size < 2 ^ 24) :
    beNat ((Channel.headerText size).1.take 3) = size := by
  have htake : (Channel.headerText size).1.take 3 = beBytes 3 size := rfl
  rw [htake, beNat_beBytes]
  exact Nat.mod_eq_of_lt h

omit [Aes256] [Keccak256] in
theorem drop_headerText (size : Nat) :
    ((Channel.headerText size).1.take 6).drop 3 = encode ((0 : UInt8), (0 : UInt8)) := rfl

/-- `read` takes a frame for its ingress channel apart. -/
theorem read_run {data : ByteString} (hsize : data.length < 2 ^ 24) (state : RLPxState) (rest : ByteString) :
    (read : Exec Connection ε ByteString) ⟨state, state.ingress.frame data ++ rest⟩ =
      (.ok data, ⟨state.withIngress (state.ingress.after data).mac (state.ingress.after data).aes, rest⟩) := by
  have hlength := (state.ingress.header data).2
  have hbody := length_body state.ingress data
  have hheader : ((state.ingress.header data).1 ++ (state.ingress.afterHeader data).mac.finalize.1).length = 32 := by
    rw [length_append, hlength, (state.ingress.afterHeader data).mac.finalize.2]
  have hframe : (state.ingress.body data ++ (state.ingress.after data).mac.finalize.1).length =
      nextMultipleOf data.length 16 + 16 := by
    rw [length_append, hbody, (state.ingress.after data).mac.finalize.2]
  -- the MAC as the reader computes it, after the header, after the message and at the end
  have hmac₁ : state.ingressMac.update ((Aes256.encryptBlock state.macKey state.ingressMac.finalize).xor
      (state.ingress.header data)).1 = (state.ingress.afterHeader data).mac := by
    simp only [Channel.afterHeader, RLPxState.ingress]
  have hmac₂ : (state.ingress.afterHeader data).mac.update (state.ingress.body data) = state.ingress.bodyMac data := rfl
  have hmac₃ : (state.ingress.bodyMac data).update ((Aes256.encryptBlock state.macKey
      (state.ingress.bodyMac data).finalize).xor (state.ingress.bodyMac data).finalize).1 =
        (state.ingress.after data).mac := rfl
  have haes : state.ingressAes.advance 16 = (state.ingress.afterHeader data).aes := rfl
  have hread : (readExact 32 : Exec Connection ε ByteString) ⟨state, (state.ingress.header data).1 ++
        (state.ingress.afterHeader data).mac.finalize.1 ++
          ((state.ingress.body data ++ (state.ingress.after data).mac.finalize.1) ++ rest)⟩ =
      (.ok ((state.ingress.header data).1 ++ (state.ingress.afterHeader data).mac.finalize.1),
        ⟨state.withIngress state.ingressMac state.ingressAes,
          (state.ingress.body data ++ (state.ingress.after data).mac.finalize.1) ++ rest⟩) :=
    readExact_run hheader state _
  have hplain : state.ingressAes.applyKeystream (state.ingress.header data).1 = (Channel.headerText data.length).1 :=
    applyKeystream_header state.ingress data
  unfold read
  rw [Exec.run_bind_ok (Exec.run_get _), Channel.frame, append_assoc]
  dsimp only
  rw [Exec.run_bind_ok hread, take_left' hlength, drop_left' hlength, Exec.run_bind_ok finalizeIngress_run,
    Exec.run_bind_ok (toArray_run _ _), Exec.run_bind_ok (updateIngress_run _), hmac₁,
    Exec.run_bind_ok finalizeIngress_run, Exec.run_bind_ok (assertEq_self _ _),
    Exec.run_bind_ok (applyIngress_run _), hlength, haes, hplain, drop_headerText,
    beNat_headerText hsize, Exec.run_bind_ok (assertEq_self _ _), Exec.run_bind_ok (readExact_run hframe _ _),
    take_left' hbody, drop_left' hbody, Exec.run_bind_ok (updateIngress_run _), hmac₂,
    Exec.run_bind_ok finalizeIngress_run, Exec.run_bind_ok (updateIngress_run _), hmac₃,
    Exec.run_bind_ok finalizeIngress_run, Exec.run_bind_ok (assertEq_self _ _),
    Exec.run_bind_ok (applyIngress_run _), hbody, applyKeystream_body, take_resize (le_nextMultipleOf _ _)]
  rfl

/-! ## Sequences of frames -/

def readMany : Nat → Exec Connection ε (List ByteString)
  | 0 => pure []
  | n + 1 => do
    let frameData ← read
    return frameData :: (← readMany n)

/-- What `writer` sends is for `reader`. -/
structure Mirrored (writer reader : RLPxState) : Prop where
  macKey : writer.macKey = reader.macKey
  mac : writer.egressMac = reader.ingressMac
  aes : writer.egressAes = reader.ingressAes

omit [Aes256] [Keccak256] in
theorem Mirrored.channel (h : Mirrored writer reader) : writer.egress = reader.ingress := by
  rw [RLPxState.egress, RLPxState.ingress, h.macKey, h.mac, h.aes]

omit [Aes256] [Keccak256] in
theorem mirrored_new (aesKey macKey localNonce remoteNonce : H256) (localInitMessage remoteInitMessage : ByteString) :
    Mirrored (.new aesKey macKey localNonce localInitMessage remoteNonce remoteInitMessage)
      (.new aesKey macKey remoteNonce remoteInitMessage localNonce localInitMessage) := ⟨rfl, rfl, rfl⟩

/-- Messages written by one side are read by the other in the same order, from the bytes written and
no others. The sides mirror each other again, and the opposite direction is as before. -/
theorem frames_delivered {writer reader : RLPxState} (h : Mirrored writer reader) {messages : List ByteString}
    (hsize : ∀ data ∈ messages, data.length < 2 ^ 24) (sent rest : ByteString) :
    ∃ writer' reader' bytes,
      (Exec.forEach write messages : Exec Connection ε Unit) ⟨writer, sent⟩ = (.ok (), ⟨writer', sent ++ bytes⟩) ∧
      (readMany messages.length : Exec Connection ε _) ⟨reader, bytes ++ rest⟩ = (.ok messages, ⟨reader', rest⟩) ∧
      Mirrored writer' reader' ∧ (Mirrored reader writer → Mirrored reader' writer') := by
  induction messages generalizing writer reader sent with
  | nil => exact ⟨writer, reader, [], by rw [List.append_nil]; rfl, rfl, h, id⟩
  | cons data messages ih =>
    have hwrite := write_run (ε := ε) data writer sent
    have hstep : Mirrored (writer.withEgress (writer.egress.after data).mac (writer.egress.after data).aes)
        (reader.withIngress (reader.ingress.after data).mac (reader.ingress.after data).aes) := by
      rw [h.channel]
      exact ⟨h.macKey, rfl, rfl⟩
    obtain ⟨writer', reader', bytes, hwrites, hreads, hmirrored, hback⟩ :=
      ih hstep (fun data' hmem => hsize data' (List.mem_cons_of_mem _ hmem)) (sent ++ writer.egress.frame data)
    have hread := read_run (ε := ε) (hsize data List.mem_cons_self) reader (bytes ++ rest)
    rw [← h.channel] at hread hreads
    refine ⟨writer', reader', writer.egress.frame data ++ bytes, ?_, ?_, hmirrored, fun hother => hback ?_⟩
    · rw [Exec.forEach, Exec.run_bind_ok hwrite, hwrites, List.append_assoc]
    · rw [List.length_cons, readMany, List.append_assoc, Exec.run_bind_ok hread, Exec.run_bind_ok hreads]
      rfl
    · exact ⟨hother.macKey, hother.mac, hother.aes⟩

end

/-- A block is encrypted with the first bytes of the key, and the keystream counts. -/
@[reducible] def sampleAes : Aes256 where
  encryptBlock key block := block.xor ⟨key.1.take 16, by rw [List.length_take, key.2]; rfl⟩
  keystream _ _ i := UInt8.ofNat i

/-- A side that sent 1 and received 2 when the connection was made, and the other side. -/
def sampleState : RLPxState := .new ⟨beBytes 32 3, rfl⟩ ⟨beBytes 32 4, rfl⟩ ⟨beBytes 32 5, rfl⟩
    [1] ⟨beBytes 32 6, rfl⟩ [2]
def sampleRemote : RLPxState := .new ⟨beBytes 32 3, rfl⟩ ⟨beBytes 32 4, rfl⟩ ⟨beBytes 32 6, rfl⟩
    [2] ⟨beBytes 32 5, rfl⟩ [1]

theorem frames_delivered_sampleState :
    letI := Keccak256.ofTable []
    letI := sampleAes
    Mirrored sampleState sampleRemote ∧ ∃ writer' reader' bytes,
      (Exec.forEach write [[], [7, 8, 9]] : Exec Connection Empty Unit) ⟨sampleState, []⟩ =
        (.ok (), ⟨writer', [] ++ bytes⟩) ∧
      (readMany 2 : Exec Connection Empty _) ⟨sampleRemote, bytes ++ [0xFF]⟩ =
        (.ok [[], [7, 8, 9]], ⟨reader', [0xFF]⟩) ∧
      Mirrored writer' reader' ∧ (Mirrored sampleRemote sampleState → Mirrored reader' writer') := by
  let := Keccak256.ofTable []
  let := sampleAes
  have hmirrored : Mirrored sampleState sampleRemote := mirrored_new _ _ _ _ _ _
  exact ⟨hmirrored, frames_delivered hmirrored (by decide) [] [0xFF]⟩

end Frame
end Net
end EthereumRust
