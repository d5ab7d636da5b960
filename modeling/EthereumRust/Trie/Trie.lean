import EthereumRust.Trie.Node

/-! # The trie: `crates/trie/trie.rs` -/

namespace EthereumRust.Mpt
open Rlp

/-- The hash of an empty trie: that of the encoded empty string. -/
def EMPTY_TRIE_HASH [Keccak256] : H256 := digest [RLP_NULL]

structure Trie (δ : Type) where
  root : Option NodeHash
  state : TrieState δ

namespace Trie

variable {δ : Type}

def new (db : δ) : Trie δ := ⟨none, TrieState.new db⟩

def openAt [Keccak256] (db : δ) (root : H256) : Trie δ :=
  ⟨if root ≠ EMPTY_TRIE_HASH then some (.hashed root) else none, TrieState.new db⟩

/-- Twice the path's bytes: a node other than a leaf takes a half-byte. -/
def depth (path : ByteString) : Nat := 2 * path.length + 1

def onState {α : Type} (x : TrieM δ α) : Exec (Trie δ) TrieError α :=
  Exec.zoom Trie.state (fun t s => { t with state := s }) x

def setRoot (root : Option NodeHash) : Exec (Trie δ) TrieError Unit :=
  Exec.modify fun t => { t with root := root }

variable [TrieDB δ] [Keccak256]

omit [Keccak256] in
def get (self : Trie δ) (path : ByteString) : Outcome TrieError (Option ByteString) :=
  match self.root with
  | some root => do
    let rootNode ← self.state.expectNode root
    Node.get (depth path) self.state rootNode (NibbleSlice.new path)
  | none => .ok none

def rootNode (root : Option NodeHash) : Exec (Trie δ) TrieError (Option Node) := fun t =>
  match root with
  | some root => (t.state.getNode root, t)
  | none => (.ok none, t)

def insert (path value : ByteString) : Exec (Trie δ) TrieError Unit := do
  let self ← Exec.get
  setRoot none
  match ← rootNode self.root with
  | some rootNode =>
    let rootNode ← onState (Node.insert (depth path) rootNode (NibbleSlice.new path) value)
    let root ← onState (rootNode.insertSelf 0)
    setRoot (some root)
  | none =>
    let root ← onState (Node.insertSelf (.leaf ⟨path, value⟩) 0)
    setRoot (some root)

def remove (path : ByteString) : Exec (Trie δ) TrieError (Option ByteString) := do
  let self ← Exec.get
  setRoot none
  match self.root with
  | some root =>
    let rootNode ← onState (expectNode root)
    let (rootNode, oldValue) ← onState (Node.remove (depth path) rootNode (NibbleSlice.new path))
    match rootNode with
    | some rootNode =>
      let root ← onState (rootNode.insertSelf 0)
      setRoot (some root)
      pure oldValue
    | none => pure oldValue
  | none => pure none

omit [TrieDB δ] in
def finalHash (root : Option NodeHash) : H256 :=
  match root with
  | some root => root.finalize
  | none => EMPTY_TRIE_HASH

/-- Commits the trie to the database and returns the hash of its root. -/
def hash : Exec (Trie δ) TrieError H256 := do
  let self ← Exec.get
  match self.root with
  | some root => onState (TrieState.commit root)
  | none => pure ()
  pure (finalHash self.root)

omit [Keccak256] in
/-- The encoded nodes traversed on the way to the path, stored or not. -/
def getProof (self : Trie δ) (path : ByteString) : Outcome TrieError (List ByteString) :=
  match self.root with
  | none => .ok []
  | some root => do
    let nodePath := match root with
      | .inline node => [node]
      | .hashed _ => []
    let node ← self.state.getNode root
    let rootNode ← Rust.expect node "inconsistent tree structure"
    Node.getPath (depth path) self.state rootNode (NibbleSlice.new path) nodePath

def insertUnwrap (path value : ByteString) : Exec (Trie δ) TrieError Unit := fun t =>
  match insert path value t with
  | (.error (.error _), t) => (Outcome.panic "called `Result::unwrap()` on an `Err` value", t)
  | r => r

def insertAll (iter : List (ByteString × ByteString)) : Exec (Trie δ) TrieError Unit :=
  Exec.forEach (fun (path, value) => insertUnwrap path value) iter

/-- Builds a trie from the given elements and returns its hash. -/
def computeHashFromUnsortedIter (iter : List (ByteString × ByteString)) : Outcome TrieError H256 :=
  match insertAll iter (Trie.new NullTrieDB.mk) with
  | (.ok (), t) => .ok (finalHash t.root)
  | (.error e, _) => .error e

end Trie
end EthereumRust.Mpt
