import EthereumRust.Trie.Trie

/-! # Operations that fail

`Trie::insert` and `Trie::remove` take the root out of the trie and put one back at the
end. A database that fails on the way leaves the trie without a root. -/

namespace EthereumRust.Mpt
open Rlp

/-- An operation that changes the trie. -/
inductive TrieCall where
  | insert (path value : ByteString)
  | remove (path : ByteString)

namespace Trie

variable {δ : Type} {α : Type} {x : Exec (Trie δ) TrieError α}

def withDb (t : Trie δ) (db : δ) : Trie δ := { t with state := { t.state with db := db } }

variable [TrieDB δ] [Keccak256]

def run : TrieCall → Exec (Trie δ) TrieError Unit
  | .insert path value => insert path value
  | .remove path => do
    let _ ← remove path

def Fails (call : TrieCall) (t : Trie δ) : Prop := ∃ e, (run call t).1 = .error (.error e)

/-- Both tries answer alike. -/
structure SameAnswers (t t' : Trie δ) : Prop where
  get : ∀ path, t.get path = t'.get path
  hash : (hash t).1 = (hash t').1

/-- When the database works again after an error, the trie answers as it would have before the call. -/
def Atomic (call : TrieCall) (t : Trie δ) (repaired : δ) : Prop :=
  Fails call t → SameAnswers ((run call t).2.withDb repaired) (t.withDb repaired)

/-! ## The root after an error -/

/-- An error leaves the trie without a root. -/
def Uproots {α : Type} (x : Exec (Trie δ) TrieError α) : Prop :=
  ∀ t e, t.root = none → (x t).1 = .error e → (x t).2.root = none

omit [TrieDB δ] [Keccak256] in
theorem Uproots.bind {β : Type} {f : α → Exec (Trie δ) TrieError β}
    (hx : ∀ t, (x t).2.root = t.root) (hf : ∀ a, Uproots (f a)) : Uproots (x >>= f) := by
  intro t e hroot herror
  have hroot := (hx t).trans hroot
  rw [Exec.run_bind] at herror ⊢
  generalize x t = r at hroot herror
  rcases r with ⟨e | a, t'⟩
  · exact hroot
  · exact hf a t' e hroot herror

omit [TrieDB δ] [Keccak256] in
theorem uproots_of_ok (h : ∀ t, ∃ a, (x t).1 = .ok a) : Uproots x := by
  intro t e _ herror
  obtain ⟨a, ha⟩ := h t
  cases ha.symm.trans herror

omit [TrieDB δ] [Keccak256] in
/-- A call that takes the root out and then goes on with `f`. -/
theorem Uproots.take {f : Trie δ → Exec (Trie δ) TrieError α} (t : Trie δ) (hf : Uproots (f t))
    (h : ((Exec.get >>= fun self => setRoot none >>= fun _ => f self) t).1 = .error e) :
    ((Exec.get >>= fun self => setRoot none >>= fun _ => f self) t).2.root = none :=
  hf { t with root := none } e rfl h

theorem run_uproots (call : TrieCall) (t : Trie δ) (h : (run call t).1 = .error e) :
    (run call t).2.root = none := by
  have hset (root : Option NodeHash) : Uproots (δ := δ) (setRoot root) := uproots_of_ok fun _ => ⟨(), rfl⟩
  cases call with
  | insert path value =>
    unfold run insert at h ⊢
    refine Uproots.take t (.bind (fun t' => by unfold rootNode; split <;> rfl) fun node => ?_) h
    cases node with
    | some rootNode => exact .bind (fun _ => rfl) fun _ => .bind (fun _ => rfl) fun root => hset _
    | none => exact .bind (fun _ => rfl) fun root => hset _
  | remove path =>
    have hpure {α : Type} (a : α) : Uproots (δ := δ) (pure a) := uproots_of_ok fun _ => ⟨a, rfl⟩
    have hremove (e : Fault TrieError) (h : (remove path t).1 = .error e) : (remove path t).2.root = none := by
      unfold remove at h ⊢
      refine Uproots.take t ?_ h
      split
      · refine .bind (fun _ => rfl) fun rootNode => .bind (fun _ => rfl) fun result => ?_
        obtain ⟨rootNode, oldValue⟩ := result
        cases rootNode with
        | some rootNode => exact .bind (fun _ => rfl) fun root => uproots_of_ok fun _ => ⟨oldValue, rfl⟩
        | none => exact hpure _
      · exact hpure _
    rw [run, Exec.run_bind] at h ⊢
    generalize remove path t = r at hremove h
    rcases r with ⟨e | a, t'⟩
    · exact hremove e rfl
    · cases h

theorem sameAnswers_congr {t t' : Trie δ} (hroot : t.root = none) (db : δ) :
    SameAnswers t t' ↔ SameAnswers (Trie.new db) t' := by
  have hget (path : ByteString) : t.get path = (Trie.new db).get path := by
    rw [get, hroot]
    rfl
  have hhash : (hash t).1 = (hash (Trie.new db)).1 := by
    rw [hash, Exec.run_bind_ok (Exec.run_get t), hroot]
    rfl
  exact ⟨fun h => ⟨fun path => (hget path).symm.trans (h.get path), hhash.symm.trans h.hash⟩,
    fun h => ⟨fun path => (hget path).trans (h.get path), hhash.trans h.hash⟩⟩

/-- A call is atomic exactly if it does not fail, or if the trie answered as an empty one before. -/
theorem atomic_iff (call : TrieCall) (t : Trie δ) (repaired : δ) :
    Atomic call t repaired ↔ ¬ Fails call t ∨ SameAnswers (Trie.new repaired) (t.withDb repaired) := by
  have hlost (h : Fails call t) : ((run call t).2.withDb repaired).root = none := by
    obtain ⟨e, herror⟩ := h
    exact run_uproots call t herror
  constructor
  · intro h
    by_cases hfails : Fails call t
    · exact .inr ((sameAnswers_congr (hlost hfails) repaired).mp (h hfails))
    · exact .inl hfails
  · rintro (h | h) hfails
    · exact absurd hfails h
    · exact (sameAnswers_congr (hlost hfails) repaired).mpr h

end Trie

/-- A database that can be out of order. -/
structure FlakyDb where
  broken : Bool
  nodes : HashMap ByteString ByteString

instance : TrieDB FlakyDb where
  get self key := if self.broken then .error (.error (.libmdbxError "unavailable")) else .ok (self.nodes.lookup key)
  put self key value := (.ok (), { self with nodes := self.nodes.insert key value })

def sampleRoot : H256 := ⟨List.replicate 32 1, rfl⟩

/-- The root is a leaf with the value `2` at the path `1`. -/
def sampleStored (broken : Bool) : FlakyDb := ⟨broken, AList.singleton sampleRoot.1 (encode (Node.leaf ⟨[1], [2]⟩))⟩

/-- An insertion fails because the database does; after that the value is gone. -/
theorem insert_error_empties :
    letI := Keccak256.ofTable []
    let t : Trie FlakyDb := ⟨some (.hashed sampleRoot), TrieState.new (sampleStored true)⟩
    Trie.Fails (.insert [3] [4]) t ∧ (t.withDb (sampleStored false)).get [1] = .ok (some [2]) ∧
      ((Trie.run (.insert [3] [4]) t).2.withDb (sampleStored false)).get [1] = .ok none := by
  let := Keccak256.ofTable []
  exact ⟨⟨.libmdbxError "unavailable", by decide +kernel⟩, by decide +kernel, by decide +kernel⟩

end EthereumRust.Mpt
