import Mathlib.Data.List.GetD
import EthereumRust.Lib.Ensures
import EthereumRust.Levm.Frame

/-! # The memory of a frame

An infinite array of bytes that starts with zeros; the vector behind it only grows, to
the next whole word. The cost of a size is computed with the square of its words, which
overflows from 128 GiB on, long before the cost itself would. -/

namespace EthereumRust.Levm

open Rlp (U256)
open List Outcome Rust

/-! ## Accesses -/

def window (bytes : Nat → UInt8) (offset size : Nat) : ByteString :=
  (List.range size).map fun i => bytes (offset + i)

inductive Access where
  | load (offset : Nat)
  | loadRange (offset size : Nat)
  | storeBytes (offset : Nat) (value : ByteString)
  | copy (srcOffset destOffset size : Nat)

inductive Answer where
  | done
  | word (value : U256)
  | bytes (value : ByteString)
  deriving DecidableEq

namespace Access

def stop : Access → Nat
  | load offset => offset + 32
  | loadRange offset size => offset + size
  | storeBytes offset value => offset + value.length
  | copy srcOffset destOffset size => max (srcOffset + size) (destOffset + size)

def answer (bytes : Nat → UInt8) : Access → Answer
  | load offset => .word (wordOfBytes (window bytes offset 32))
  | loadRange offset size => .bytes (window bytes offset size)
  | storeBytes _ _ | copy _ _ _ => .done

/-- The array of bytes afterwards. All bytes of a copy are read before any is written. -/
def write (bytes : Nat → UInt8) : Access → Nat → UInt8
  | load _ | loadRange _ _ => bytes
  | storeBytes offset value => fun i =>
    if offset ≤ i ∧ i < offset + value.length then value.getD (i - offset) 0 else bytes i
  | copy srcOffset destOffset size => fun i =>
    if destOffset ≤ i ∧ i < destOffset + size then bytes (srcOffset + (i - destOffset)) else bytes i

def answers (bytes : Nat → UInt8) : List Access → List Answer
  | [] => []
  | access :: rest => access.answer bytes :: answers (access.write bytes) rest

end Access

namespace Memory

variable {ε : Type} {memory : Memory}

def byteAt (memory : Memory) (i : Nat) : UInt8 := memory.data.getD i 0

def serve (memory : Memory) : Access → Outcome ε (Answer × Memory)
  | .load offset => do
    let (value, memory) ← memory.load offset
    pure (.word value, memory)
  | .loadRange offset size => do
    let (bytes, memory) ← memory.loadRange offset size
    pure (.bytes bytes, memory)
  | .storeBytes offset value => do
    let memory ← memory.storeBytes offset value
    pure (.done, memory)
  | .copy srcOffset destOffset size => do
    let memory ← memory.copy srcOffset destOffset size
    pure (.done, memory)

/-! ## Growth -/

def wordsOf (n : Nat) : Nat := (n + 31) / 32

def roundUp (n : Nat) : Nat := 32 * wordsOf n

theorem le_roundUp (n : Nat) : n ≤ roundUp n := by
  unfold roundUp wordsOf
  omega

/-- Zeros are appended up to the next whole word. -/
def grow (memory : Memory) (n : Nat) : Memory :=
  ⟨memory.data ++ List.replicate (roundUp n - memory.data.length) 0⟩

theorem length_grow (memory : Memory) (n : Nat) :
    (memory.grow n).data.length = max memory.data.length (roundUp n) := by
  rw [grow, length_append, length_replicate]
  omega

theorem le_length_grow (memory : Memory) (n : Nat) : n ≤ (memory.grow n).data.length := by
  rw [length_grow]
  exact (le_roundUp n).trans (le_max_right _ _)

theorem byteAt_grow (memory : Memory) (n : Nat) : (memory.grow n).byteAt = memory.byteAt := by
  funext i
  unfold byteAt grow
  rcases Nat.lt_or_ge i memory.data.length with hi | hi
  · exact getD_append _ _ _ _ hi
  · rw [getD_append_right _ _ _ _ hi, getD_eq_default _ _ hi]
    simp

theorem ensures_resize (memory : Memory) (n : Nat) :
    Outcome.Ensures (memory.resize n : Outcome ε _) (· = memory.grow n) := by
  have hsize : Outcome.Ensures (nextMultipleOf n 32 : Outcome ε Nat) (· = roundUp n) := by
    refine ensures_ite.mpr ⟨fun _ => ?_, fun _ => ensures_add.mpr fun _ => ?_⟩
    · change n = _
      unfold roundUp wordsOf
      omega
    · unfold roundUp wordsOf
      omega
  refine ensures_bind.mpr (hsize.mono fun size hsize => ?_)
  subst hsize
  split
  · rfl
  · change memory = _
    rw [grow, Nat.sub_eq_zero_of_le (by omega), replicate_zero, append_nil]

theorem nextMultipleOf_ok (h : roundUp n < wordSize) : (nextMultipleOf n 32 : Outcome ε Nat) = .ok (roundUp n) := by
  unfold nextMultipleOf roundUp wordsOf at *
  split
  · congr 1
    omega
  · rw [add_ok (by omega)]
    congr 1
    omega

theorem resize_run (memory : Memory) (h : roundUp n < wordSize) :
    (memory.resize n : Outcome ε _) = .ok (memory.grow n) := by
  obtain ⟨grown, hrun⟩ : ∃ grown, (memory.resize n : Outcome ε _) = .ok grown := by
    rw [resize, nextMultipleOf_ok h, bind_ok]
    split <;> exact ⟨_, rfl⟩
  have hgrown := memory.ensures_resize (ε := ε) n
  rw [hrun] at hgrown
  rw [hrun, show grown = _ from hgrown]

/-! ## Ranges -/

theorem take_drop_eq_window (memory : Memory) (start : Nat) (hstop : stop ≤ memory.data.length) :
    (memory.data.take stop).drop start = window memory.byteAt start (stop - start) := by
  refine ext_getElem ?_ fun i hi _ => ?_
  · rw [window, length_drop, length_take, length_map, length_range, Nat.min_eq_left hstop]
  · have hlt : start + i < memory.data.length := by
      rw [length_drop, length_take] at hi
      omega
    simp [window, byteAt, hlt]

theorem byteAt_splice (memory : Memory)
    (hfits : offset + value.length ≤ memory.data.length) (i : Nat) :
    byteAt ⟨memory.data.take offset ++ value ++ memory.data.drop (offset + value.length)⟩ i =
      if offset ≤ i ∧ i < offset + value.length then value.getD (i - offset) 0 else memory.byteAt i := by
  have htake : (memory.data.take offset).length = offset := length_take_of_le (by omega)
  have hfront : (memory.data.take offset ++ value).length = offset + value.length := by rw [length_append, htake]
  unfold byteAt
  rcases Nat.lt_or_ge i (offset + value.length) with hi | hi
  · rw [getD_append _ _ _ _ (hfront.symm ▸ hi)]
    rcases Nat.lt_or_ge i offset with hlow | hhigh
    · rw [getD_append _ _ _ _ (htake.symm ▸ hlow)]
      simp [hlow]
    · rw [getD_append_right _ _ _ _ (htake.symm ▸ hhigh), htake, if_pos ⟨hhigh, hi⟩]
  · rw [getD_append_right _ _ _ _ (hfront.symm ▸ hi), hfront, if_neg (by omega)]
    simp [Nat.add_sub_cancel' hi]

theorem length_splice (memory : Memory)
    (hfits : offset + value.length ≤ memory.data.length) :
    (memory.data.take offset ++ value ++ memory.data.drop (offset + value.length)).length = memory.data.length := by
  simp only [length_append, length_take, length_drop]
  omega

/-! ## One access -/

/-- The access was served: the answer and the bytes are those of the array, and the vector covers the access. -/
structure Serves (memory : Memory) (access : Access) (answer : Answer) (memory' : Memory) : Prop where
  answer_eq : answer = access.answer memory.byteAt
  byteAt : memory'.byteAt = access.write memory.byteAt
  length : memory'.data.length = max memory.data.length (roundUp access.stop)

theorem getRange_grow (memory : Memory) {size} :
    ((memory.grow (offset + size)).getRange offset (offset + size) : Outcome ε _) =
      .ok (window memory.byteAt offset size) := by
  have hlen := le_length_grow memory (offset + size)
  rw [getRange, if_pos ⟨Nat.le_add_right _ _, hlen⟩, take_drop_eq_window _ _ hlen, byteAt_grow, Nat.add_sub_cancel_left]

theorem ensures_serve (memory : Memory) (access : Access) :
    Outcome.Ensures (memory.serve access : Outcome ε _) fun r => memory.Serves access r.1 r.2 := by
  cases access with
  | load offset =>
    refine ensures_bind.mpr (ensures_bind.mpr (ensures_add.mpr fun _ => ?_))
    refine ensures_bind.mpr ((ensures_resize _ _).mono fun _ hgrown => ?_)
    rw [hgrown, getRange_grow]
    exact ⟨rfl, byteAt_grow _ _, length_grow _ _⟩
  | loadRange offset size =>
    refine ensures_bind.mpr (ensures_bind.mpr (ensures_add.mpr fun _ => ?_))
    refine ensures_bind.mpr ((ensures_resize _ _).mono fun _ hgrown => ?_)
    rw [hgrown, getRange_grow]
    exact ⟨rfl, byteAt_grow _ _, length_grow _ _⟩
  | storeBytes offset value =>
    refine ensures_bind.mpr (ensures_bind.mpr (ensures_add.mpr fun _ => ?_))
    refine ensures_bind.mpr ((ensures_resize _ _).mono fun _ hgrown => ?_)
    subst hgrown
    have hfits := le_length_grow memory (offset + value.length)
    refine ⟨rfl, funext fun i => (byteAt_splice _ hfits i).trans ?_, (length_splice _ hfits).trans (length_grow _ _)⟩
    rw [byteAt_grow]
    rfl
  | copy srcOffset destOffset size =>
    refine ensures_bind.mpr (ensures_bind.mpr (ensures_add.mpr fun _ => ?_))
    refine ensures_bind.mpr (ensures_add.mpr fun _ => ?_)
    refine ensures_bind.mpr ((ensures_resize _ _).mono fun _ hgrown => ?_)
    subst hgrown
    refine ensures_bind.mpr (ensures_slice.mpr fun hsrc => ?_)
    refine ensures_bind.mpr (ensures_slice.mpr fun hdest => ?_)
    rw [take_drop_eq_window _ _ hsrc.2, Nat.add_sub_cancel_left, byteAt_grow]
    have hlen : (window memory.byteAt srcOffset size).length = size := by simp [window]
    have hfits := hdest.2
    rw [← hlen] at hfits
    have hbytes := byteAt_splice _ hfits
    have hlength := length_splice _ hfits
    rw [hlen] at hbytes hlength
    refine ⟨rfl, funext fun i => (hbytes i).trans ?_, hlength.trans (length_grow _ _)⟩
    rw [byteAt_grow]
    refine ite_congr rfl (fun hi => ?_) fun _ => rfl
    have hlt : i - destOffset < size := by omega
    simp [window, hlt]

theorem serve_run (memory : Memory) (access : Access) (h : roundUp access.stop < wordSize) :
    ∃ answer memory', (memory.serve access : Outcome ε _) = .ok (answer, memory') ∧
      memory.Serves access answer memory' := by
  have hle := (le_roundUp access.stop).trans_lt h
  obtain ⟨⟨answer, memory'⟩, hrun⟩ : ∃ r, (memory.serve access : Outcome ε _) = .ok r := by
    cases access with
    | load offset =>
      simp only [Access.stop] at h hle
      rw [serve, load, add_ok hle, bind_ok, resize_run _ h, bind_ok, getRange_grow]
      exact ⟨_, rfl⟩
    | loadRange offset size =>
      simp only [Access.stop] at h hle
      rw [serve, loadRange, add_ok hle, bind_ok, resize_run _ h, bind_ok, getRange_grow]
      exact ⟨_, rfl⟩
    | storeBytes offset value =>
      simp only [Access.stop] at h hle
      rw [serve, storeBytes, add_ok hle, bind_ok, resize_run _ h]
      exact ⟨_, rfl⟩
    | copy srcOffset destOffset size =>
      simp only [Access.stop] at h hle
      have hfits := le_length_grow memory (max (srcOffset + size) (destOffset + size))
      rw [serve, copy, add_ok ((le_max_left _ _).trans_lt hle), bind_ok,
        add_ok ((le_max_right _ _).trans_lt hle), bind_ok, resize_run _ h, bind_ok,
        slice_ok (Nat.le_add_right _ _) ((le_max_left _ _).trans hfits),
        slice_ok (Nat.le_add_right _ _) ((le_max_right _ _).trans hfits)]
      exact ⟨_, rfl⟩
  have hserves := memory.ensures_serve (ε := ε) access
  rw [hrun] at hserves
  exact ⟨answer, memory', hrun, hserves⟩

/-! The functions of an access on their own. -/

theorem ensures_load (memory : Memory) (offset : Nat) :
    Outcome.Ensures (memory.load offset : Outcome ε _) fun r => memory.Serves (.load offset) (.word r.1) r.2 :=
  ensures_bind.mp (memory.ensures_serve (.load offset))

theorem ensures_loadRange (memory : Memory) (offset size : Nat) :
    Outcome.Ensures (memory.loadRange offset size : Outcome ε _) fun r =>
      memory.Serves (.loadRange offset size) (.bytes r.1) r.2 :=
  ensures_bind.mp (memory.ensures_serve (.loadRange offset size))

theorem ensures_storeBytes (memory : Memory) (offset : Nat) (value : ByteString) :
    Outcome.Ensures (memory.storeBytes offset value : Outcome ε _) fun memory' =>
      memory.Serves (.storeBytes offset value) .done memory' :=
  ensures_bind.mp (memory.ensures_serve (.storeBytes offset value))

theorem ensures_copy (memory : Memory) (srcOffset destOffset size : Nat) :
    Outcome.Ensures (memory.copy srcOffset destOffset size : Outcome ε _) fun memory' =>
      memory.Serves (.copy srcOffset destOffset size) .done memory' :=
  ensures_bind.mp (memory.ensures_serve (.copy srcOffset destOffset size))

/-! ## The cost -/

def fee (words : Nat) : Nat := words * words / 512 + 3 * words

def maxSize : Nat := 32 * (2 ^ 32 - 1)

theorem wordsOf_mono (h : a ≤ b) : wordsOf a ≤ wordsOf b := Nat.div_le_div_right (by omega)

theorem fee_mono (h : a ≤ b) : fee a ≤ fee b :=
  Nat.add_le_add (Nat.div_le_div_right (Nat.mul_le_mul h h)) (Nat.mul_le_mul_left 3 h)

theorem square_lt_iff : w * w < wordSize ↔ w ≤ 2 ^ 32 - 1 := by
  rw [show wordSize = 2 ^ 32 * 2 ^ 32 from rfl, Nat.mul_self_lt_mul_self_iff]
  omega

theorem ensures_words (n : Nat) : Outcome.Ensures (words n : Outcome ε Nat) (· = wordsOf n) := by
  simp [words, wordsOf, WORD_SIZE]

theorem words_run (h : n + WORD_SIZE < wordSize) : (words n : Outcome ε Nat) = .ok (wordsOf n) := by
  rw [words, add_ok h, bind_ok, sub_ok (by unfold WORD_SIZE; omega)]
  rfl

theorem cost_run (h : w ≤ 2 ^ 32 - 1) : (cost w : Outcome ε Nat) = .ok (fee w) := by
  have hsquare := square_lt_iff.mpr h
  have hlinear : 3 * w < wordSize := by
    unfold wordSize
    omega
  have hsum : w * w / 512 + 3 * w < wordSize := by
    unfold wordSize at *
    omega
  rw [cost, Rust.mul, if_pos hsquare, bind_ok, Rust.mul, if_pos hlinear, bind_ok, add_ok hsum]
  rfl

/-- The square of too many words overflows. -/
theorem le_maxSize_of_cost (hw : (words n : Outcome ε Nat) = .ok w) (hc : (cost w : Outcome ε Nat) = .ok c) :
    n ≤ maxSize := by
  have hwords := ensures_words (ε := ε) n
  have hsquare : Outcome.Ensures (cost w : Outcome ε Nat) fun _ => w * w < wordSize := by
    simp +contextual [cost]
  rw [hw] at hwords
  rw [hc] at hsquare
  have hle := square_lt_iff.mp hsquare
  rw [show w = wordsOf n from hwords, wordsOf] at hle
  unfold maxSize
  omega

/-- What growth costs, and up to which size it is computed. -/
theorem expansionCost_eq_ok : (memory.expansionCost n : Outcome ε Nat) = .ok c ↔
    (memory.data.length < n → n ≤ maxSize) ∧
      c + fee (wordsOf memory.data.length) = fee (wordsOf (max memory.data.length n)) := by
  have hfee := fee_mono (wordsOf_mono (le_max_left memory.data.length n))
  unfold expansionCost
  split
  · rename_i hle
    rw [max_eq_left hle, pure_eq, Except.ok.injEq]
    omega
  rw [max_eq_right (by omega)] at hfee ⊢
  by_cases hn : n ≤ maxSize
  · have hwords (k : Nat) (hk : k ≤ n) : k + WORD_SIZE < wordSize ∧ wordsOf k ≤ 2 ^ 32 - 1 := by
      unfold maxSize at hn
      unfold wordsOf WORD_SIZE wordSize
      omega
    obtain ⟨hnew, hnew'⟩ := hwords n le_rfl
    obtain ⟨hold, hold'⟩ := hwords memory.data.length (by omega)
    rw [words_run hnew, bind_ok, cost_run hnew', bind_ok, words_run hold, bind_ok, cost_run hold',
      bind_ok, sub_ok hfee, Except.ok.injEq]
    omega
  · refine iff_of_false (fun h => ?_) fun h => hn (h.1 (by omega))
    obtain ⟨w, hw, h⟩ := bind_ok_inv h
    obtain ⟨newCost, hnew, -⟩ := bind_ok_inv h
    exact hn (le_maxSize_of_cost hw hnew)

/-! ## Sequences of accesses -/

structure Served where
  answer : Answer
  charge : Nat
  size : Nat

def session (memory : Memory) : List Access → Outcome ε (List Served)
  | [] => pure []
  | access :: rest => do
    let charge ← memory.expansionCost access.stop
    let (answer, memory) ← memory.serve access
    let served ← memory.session rest
    pure (⟨answer, charge, memory.data.length⟩ :: served)

def finalSize (memory : Memory) (served : List Served) : Nat :=
  (served.map Served.size).getLastD memory.data.length

/-- What the memory should do with the accesses. -/
structure Keeps (memory : Memory) (accesses : List Access) (served : List Served) : Prop where
  answers : served.map Served.answer = Access.answers memory.byteAt accesses
  whole : ∀ s ∈ served, 32 ∣ s.size
  grows : (memory.data.length :: served.map Served.size).Pairwise (· ≤ ·)
  covers : List.Forall₂ (fun access s => access.stop ≤ s.size) accesses served
  charged : (served.map Served.charge).sum + fee (memory.data.length / 32) = fee (memory.finalSize served / 32)

theorem wordsOf_of_dvd (h : 32 ∣ n) : wordsOf n = n / 32 := by
  unfold wordsOf
  omega

theorem wordsOf_max_roundUp (a b : Nat) : wordsOf (max a (roundUp b)) = wordsOf (max a b) := by
  unfold roundUp wordsOf
  omega

theorem serve_small {access : Access} (hsize : memory.data.length ≤ maxSize) (hwhole : 32 ∣ memory.data.length)
    (hstop : access.stop ≤ maxSize) : ∃ answer memory', (memory.serve access : Outcome ε _) = .ok (answer, memory') ∧
      memory.Serves access answer memory' ∧
      memory'.data.length ≤ maxSize ∧ 32 ∣ memory'.data.length := by
  have hround : roundUp access.stop ≤ maxSize := by
    unfold roundUp wordsOf maxSize at *
    omega
  obtain ⟨answer, memory', hserve, hserves⟩ := memory.serve_run (ε := ε) access
    (hround.trans_lt (by unfold maxSize wordSize; omega))
  refine ⟨answer, memory', hserve, hserves, hserves.length ▸ max_le hsize hround, ?_⟩
  rw [hserves.length]
  unfold roundUp
  omega

theorem session_run (memory : Memory) (hsize : memory.data.length ≤ maxSize) (hwhole : 32 ∣ memory.data.length)
    (hsmall : ∀ access ∈ accesses, access.stop ≤ maxSize) :
    ∃ served, (memory.session accesses : Outcome ε _) = .ok served ∧ memory.Keeps accesses served := by
  induction accesses generalizing memory with
  | nil => exact ⟨[], rfl, rfl, nofun, pairwise_singleton _ _, .nil, Nat.zero_add _⟩
  | cons access rest ih =>
    have hstop := hsmall access mem_cons_self
    obtain ⟨answer, memory', hserve, hserves, hsize', hwhole'⟩ := serve_small (ε := ε) hsize hwhole hstop
    obtain ⟨served, hrest, hkeeps⟩ := ih memory' hsize' hwhole' fun a ha => hsmall a (mem_cons_of_mem _ ha)
    obtain ⟨charge, hcharge⟩ : ∃ charge,
        charge + fee (wordsOf memory.data.length) = fee (wordsOf (max memory.data.length access.stop)) :=
      ⟨_, Nat.sub_add_cancel (fee_mono (wordsOf_mono (le_max_left _ _)))⟩
    have hcost : (memory.expansionCost access.stop : Outcome ε Nat) = .ok charge :=
      expansionCost_eq_ok.mpr ⟨fun _ => hstop, hcharge⟩
    have hgrown : memory.data.length ≤ memory'.data.length := hserves.length ▸ le_max_left _ _
    refine ⟨⟨answer, charge, memory'.data.length⟩ :: served, ?_, ?_, ?_, ?_, ?_, ?_⟩
    · rw [session, hcost, bind_ok, hserve, bind_ok]
      dsimp only
      rw [hrest]
      rfl
    · rw [map_cons, hkeeps.answers, hserves.byteAt, hserves.answer_eq]
      rfl
    · exact forall_mem_cons.mpr ⟨hwhole', hkeeps.whole⟩
    · have hgrows := hkeeps.grows
      refine pairwise_cons.mpr ⟨fun size hmem => ?_, hgrows⟩
      rcases mem_cons.mp hmem with rfl | hmem
      · exact hgrown
      · exact hgrown.trans ((pairwise_cons.mp hgrows).1 size hmem)
    · refine .cons ?_ hkeeps.covers
      rw [hserves.length]
      exact (le_roundUp _).trans (le_max_right _ _)
    · have hcharged := hkeeps.charged
      rw [← wordsOf_max_roundUp, ← hserves.length, wordsOf_of_dvd hwhole, wordsOf_of_dvd hwhole'] at hcharge
      simp only [finalSize, map_cons, getLastD_cons, sum_cons] at hcharged ⊢
      omega

theorem le_maxSize_of_session (memory : Memory)
    (hsize : memory.data.length ≤ maxSize) (hwhole : 32 ∣ memory.data.length)
    (h : memory.session accesses = (.ok served : Outcome ε _)) :
    ∀ access ∈ accesses, access.stop ≤ maxSize := by
  induction accesses generalizing memory served with
  | nil => nofun
  | cons access rest ih =>
    obtain ⟨charge, hcharge, h⟩ := bind_ok_inv h
    obtain ⟨⟨answer, memory'⟩, hserve, h⟩ := bind_ok_inv h
    obtain ⟨served', hrest, -⟩ := bind_ok_inv h
    have hstop : access.stop ≤ maxSize := by
      by_cases hlt : memory.data.length < access.stop
      · exact (expansionCost_eq_ok.mp hcharge).1 hlt
      · omega
    obtain ⟨answer', memory'', hserve', -, hsize', hwhole'⟩ := serve_small (ε := ε) hsize hwhole hstop
    obtain ⟨-, rfl⟩ := Prod.mk.inj (Except.ok.inj (hserve.symm.trans hserve'))
    exact forall_mem_cons.mpr ⟨hstop, ih memory' hsize' hwhole' hrest⟩

/-- A sequence of accesses to a new memory is charged and served as it should be exactly if none ends
beyond `maxSize`. -/
theorem session_iff (accesses : List Access) :
    (∃ served, (Memory.new.session accesses : Outcome ε _) = .ok served ∧ Memory.new.Keeps accesses served) ↔
      ∀ access ∈ accesses, access.stop ≤ maxSize := by
  constructor
  · rintro ⟨served, h, -⟩
    exact le_maxSize_of_session Memory.new (Nat.zero_le _) (Nat.dvd_zero 32) h
  · exact session_run Memory.new (Nat.zero_le _) (Nat.dvd_zero 32)

/-- A word at 128 GiB: the cost of the memory would fit into a `usize`. -/
theorem load_overflows :
    (Memory.new.session [.load (2 ^ 37 - 32)] : Outcome Empty _).map (List.map Served.size) =
      Outcome.panic "attempt to multiply with overflow" ∧
    fee (wordsOf (2 ^ 37)) < Rust.wordSize := by
  decide +kernel

end Memory
end EthereumRust.Levm
