import EthereumRust.Rlp.Decode
import EthereumRust.Trie.NodeHash
import Mathlib.Logic.Function.Basic

/-! # Nodes and the node state: `crates/trie/node.rs`, `node/*.rs`, `rlp.rs`, `state.rs`

A leaf holds its whole path, while its reference covers only the part of the path below
its place in the trie. The functions of a node type take the recursive call as an
argument, and those of `Node` tie the knot on fuel: a node takes at least one half-byte
of the path, unless it is a leaf. -/

namespace EthereumRust.Mpt
open Nibble Rlp

inductive TrieError where
  | libmdbxError (message : String)
  | rlpDecode (e : RLPDecodeError)
  deriving DecidableEq, Repr

/-- `std::iter::Iterator::nth` of a slice that was not advanced. -/
def NibbleSlice.nth (self : NibbleSlice) (n : Nat) : Option Nibble := (self.offsetAdd n).next.map (·.1)

structure LeafNode where
  path : ByteString
  value : ByteString
  deriving DecidableEq

structure ExtensionNode where
  pfx : NibbleVec
  child : NodeHash
  deriving DecidableEq

structure BranchNode where
  choices : Nibble → NodeHash
  path : ByteString
  value : ByteString

inductive Node where
  | branch (n : BranchNode)
  | extension (n : ExtensionNode)
  | leaf (n : LeafNode)

/-! ## The database encoding -/

instance : RLPEncode NodeHash where
  encode self := encode self.toVec

instance : RLPEncode NibbleVec where
  encode self := (((Encoder.new.encodeField self.data).encodeField self.firstIsHalf).encodeField
    self.lastIsHalf).finish

instance : RLPEncode BranchNode where
  encode self := (((Encoder.new.encodeField (List.ofFn self.choices)).encodeField self.path).encodeField
    self.value).finish

instance : RLPEncode ExtensionNode where
  encode self := ((Encoder.new.encodeField self.pfx).encodeField self.child).finish

instance : RLPEncode LeafNode where
  encode self := ((Encoder.new.encodeField self.path).encodeField self.value).finish

/-- The node type as a byte, then the node. -/
instance : RLPEncode Node where
  encode
    | .branch n => 0 :: encode n
    | .extension n => 1 :: encode n
    | .leaf n => 2 :: encode n

instance : RLPDecode NodeHash where
  typeName := "ethereum_rust_trie::node_hash::NodeHash"
  decodeUnfinished rlp := do
    let ((hash : ByteString), rest) ← decodeUnfinished rlp
    pure (NodeHash.fromVec hash, rest)

instance : RLPDecode NibbleVec where
  typeName := "ethereum_rust_trie::nibble::NibbleVec"
  decodeUnfinished rlp := do
    let decoder ← Decoder.new rlp
    let (data, decoder) ← decoder.decodeField ByteString "data"
    let (firstIsHalf, decoder) ← decoder.decodeField Bool "first_is_half"
    let (lastIsHalf, decoder) ← decoder.decodeField Bool "last_is_half"
    let rest ← decoder.finish
    pure (⟨data, firstIsHalf, lastIsHalf⟩, rest)

instance : RLPDecode BranchNode where
  typeName := "ethereum_rust_trie::node::branch::BranchNode"
  decodeUnfinished rlp := do
    let decoder ← Decoder.new rlp
    let (choices, decoder) ← decoder.decodeField (List NodeHash) "choices"
    if h : choices.length = 16 then
      let (path, decoder) ← decoder.decodeField ByteString "path"
      let (value, decoder) ← decoder.decodeField ByteString "value"
      let rest ← decoder.finish
      pure (⟨fun i => choices.get (i.cast h.symm), path, value⟩, rest)
    else Decode.fail (.custom "Error decoding field 'choices' of type [H256;16]: Invalid Length")

instance : RLPDecode ExtensionNode where
  typeName := "ethereum_rust_trie::node::extension::ExtensionNode"
  decodeUnfinished rlp := do
    let decoder ← Decoder.new rlp
    let (pfx, decoder) ← decoder.decodeField NibbleVec "prefix"
    let (child, decoder) ← decoder.decodeField NodeHash "child"
    let rest ← decoder.finish
    pure (⟨pfx, child⟩, rest)

instance : RLPDecode LeafNode where
  typeName := "ethereum_rust_trie::node::leaf::LeafNode"
  decodeUnfinished rlp := do
    let decoder ← Decoder.new rlp
    let (path, decoder) ← decoder.decodeField ByteString "path"
    let (value, decoder) ← decoder.decodeField ByteString "value"
    let rest ← decoder.finish
    pure (⟨path, value⟩, rest)

instance : RLPDecode Node where
  typeName := "ethereum_rust_trie::node::Node"
  decodeUnfinished
    | [] => Decode.fail .invalidLength
    | nodeType :: rlp =>
      if nodeType = 0 then do
        let (node, rem) ← decodeUnfinished rlp
        pure (.branch node, rem)
      else if nodeType = 1 then do
        let (node, rem) ← decodeUnfinished rlp
        pure (.extension node, rem)
      else if nodeType = 2 then do
        let (node, rem) ← decodeUnfinished rlp
        pure (.leaf node, rem)
      else Decode.fail .malformedData

/-! ## The state -/

/-- The database trait. -/
class TrieDB (δ : Type) where
  get : δ → ByteString → Outcome TrieError (Option ByteString)
  put : δ → ByteString → ByteString → Outcome TrieError Unit × δ

structure InMemoryTrieDB where
  inner : HashMap ByteString ByteString

instance : TrieDB InMemoryTrieDB where
  get self key := .ok (self.inner.lookup key)
  put self key value := (.ok (), ⟨self.inner.insert key value⟩)

structure NullTrieDB where

instance : TrieDB NullTrieDB where
  get _ _ := .ok none
  put self _ _ := (.ok (), self)

/-- `encodings` records every node encoding a reference was computed from. The code keeps no
such record; nothing here reads it either, it says on which encodings a hash must not collide. -/
structure TrieState (δ : Type) where
  db : δ
  cache : HashMap NodeHash Node
  encodings : List ByteString

abbrev TrieM (δ : Type) := Exec (TrieState δ) TrieError

namespace TrieState

variable {δ : Type}

def new (db : δ) : TrieState δ := ⟨db, ∅, []⟩

def getNode [TrieDB δ] (self : TrieState δ) (hash : NodeHash) : Outcome TrieError (Option Node) :=
  match self.cache.lookup hash with
  | some node => .ok (some node)
  | none => do
    match ← TrieDB.get self.db hash.toVec with
    | none => pure none
    | some rlp =>
      let node ← Outcome.mapErr TrieError.rlpDecode (decode rlp)
      pure (some node)

def insertNode (node : Node) (hash : NodeHash) : TrieM δ Unit :=
  Exec.modify fun s => { s with cache := s.cache.insert hash node }

def record (encoded : ByteString) : TrieM δ Unit :=
  Exec.modify fun s => { s with encodings := encoded :: s.encodings }

def removeCached (hash : NodeHash) : TrieM δ Unit :=
  Exec.modify fun s => { s with cache := s.cache.erase hash }

def putNode [TrieDB δ] (hash : NodeHash) (node : Node) : TrieM δ Unit := fun s =>
  let (res, db) := TrieDB.put s.db hash.toVec (encode node)
  (res, { s with db := db })

/-- Run a commit over the references of a node, in order. -/
def commitAll (commitNode : NodeHash → TrieM δ Unit) : List NodeHash → TrieM δ Unit
  | [] => pure ()
  | child :: rest => do
    commitNode child
    commitAll commitNode rest

def commitChildren (commitNode : NodeHash → TrieM δ Unit) : Node → TrieM δ Unit
  | .branch n => commitAll commitNode ((List.ofFn n.choices).filter (·.isValid))
  | .extension n => commitNode n.child
  | .leaf _ => pure ()

/-- Writes a node and its children into the database, each at most once: a node
that is not in the cache is taken to be there already. Every round takes a node
out of the cache, which bounds the recursion. -/
def commitNode [TrieDB δ] : Nat → NodeHash → TrieM δ Unit
  | 0, _ => Exec.diverge
  | fuel + 1, nodeHash => do
    let s ← Exec.get
    match s.cache.lookup nodeHash with
    | none => pure ()
    | some node =>
      removeCached nodeHash
      commitChildren (commitNode fuel) node
      putNode nodeHash node

def commit [TrieDB δ] (root : NodeHash) : TrieM δ Unit := do
  let s ← Exec.get
  commitNode (s.cache.entries.length + 1) root
  Exec.modify fun s => { s with cache := ∅ }

end TrieState

/-! ## Encodings and references -/

namespace LeafNode

def encodeRaw (self : LeafNode) (offset : Nat) : Outcome TrieError ByteString := do
  let path := (NibbleSlice.new self.path).offsetAdd offset
  let pathLen ← path.len
  let valueLen := NodeEncoder.bytesLen self.value.length (self.value.headD 0)
  let encodedPath ← NodeEncoder.writePathSlice path .leaf
  pure (NodeEncoder.writeListHeader (NodeEncoder.pathLen pathLen + valueLen) ++ encodedPath ++
    NodeEncoder.writeBytes self.value)

end LeafNode

namespace ExtensionNode

def encodeRaw (self : ExtensionNode) : Outcome TrieError ByteString := do
  let len ← self.pfx.len
  let childLen := match self.child with
    | .inline x => x.length
    | .hashed x => NodeEncoder.bytesLen 32 (x.1.headD 0)
  let encodedPath ← NodeEncoder.writePathVec self.pfx .extension
  pure (NodeEncoder.writeListHeader (NodeEncoder.pathLen len + childLen) ++ encodedPath ++
    match self.child with
    | .inline x => x
    | .hashed x => NodeEncoder.writeBytes x.1)

end ExtensionNode

namespace BranchNode

def EMPTY_CHOICES : Nibble → NodeHash := fun _ => NodeHash.constDefault

def new (choices : Nibble → NodeHash) : BranchNode := ⟨choices, [], []⟩

def newWithValue (choices : Nibble → NodeHash) (path value : ByteString) : BranchNode :=
  ⟨choices, path, value⟩

def hashChoice (nodeHash : NodeHash) : ByteString × Nat :=
  if nodeHash.isValid then
    match nodeHash with
    | .hashed x => (x.1, 32)
    | .inline x => (x, x.length)
  else ([], 0)

def childLen : ByteString × Nat → Nat
  | (_, 0) => 1
  | (x, 32) => NodeEncoder.bytesLen 32 (x.headD 0)
  | (_, y) => y

def writeChild : ByteString × Nat → ByteString
  | (_, 0) => NodeEncoder.writeBytes []
  | (x, 32) => NodeEncoder.writeBytes x
  | (x, _) => x

def encodeRaw (self : BranchNode) : ByteString :=
  let children := (List.ofFn self.choices).map hashChoice
  let valueLen :=
    if !self.value.isEmpty then NodeEncoder.bytesLen self.value.length (self.value.headD 0) else 1
  NodeEncoder.writeListHeader ((children.map childLen).sum + valueLen) ++
    children.flatMap writeChild ++
    (if !self.value.isEmpty then NodeEncoder.writeBytes self.value else NodeEncoder.writeBytes [])

end BranchNode

section

variable {δ : Type} [Keccak256]

def call {α : Type} (x : Outcome TrieError α) : TrieM δ α := fun s => (x, s)

/-- Stores a node under the reference of its encoding and returns the reference. -/
def insertEncoded (node : Node) (encoded : ByteString) : TrieM δ NodeHash := do
  TrieState.record encoded
  let hash := NodeHash.fromEncodedRaw encoded
  TrieState.insertNode node hash
  pure hash

/-- The offset is the length of the path above the leaf. -/
def LeafNode.insertSelf (self : LeafNode) (pathOffset : Nat) : TrieM δ NodeHash := do
  let encoded ← call (self.encodeRaw pathOffset)
  insertEncoded (.leaf self) encoded

def ExtensionNode.insertSelf (self : ExtensionNode) : TrieM δ NodeHash := do
  let encoded ← call self.encodeRaw
  insertEncoded (.extension self) encoded

def BranchNode.insertSelf (self : BranchNode) : TrieM δ NodeHash :=
  insertEncoded (.branch self) self.encodeRaw

def Node.insertSelf (self : Node) (pathOffset : Nat) : TrieM δ NodeHash :=
  match self with
  | .branch n => n.insertSelf
  | .extension n => n.insertSelf
  | .leaf n => n.insertSelf pathOffset

end

/-! ## Lookup -/

section

variable {δ : Type} [TrieDB δ]

def TrieState.expectNode (self : TrieState δ) (hash : NodeHash) : Outcome TrieError Node := do
  let node ← self.getNode hash
  Rust.expect node "inconsistent internal tree structure"

abbrev GetChild (δ : Type) := TrieState δ → Node → NibbleSlice → Outcome TrieError (Option ByteString)

def LeafNode.get (self : LeafNode) (path : NibbleSlice) : Outcome TrieError (Option ByteString) := do
  if ← path.cmpRest self.path then pure (some self.value) else pure none

def ExtensionNode.get (getChild : GetChild δ) (self : ExtensionNode) (state : TrieState δ)
    (path : NibbleSlice) : Outcome TrieError (Option ByteString) := do
  let (skipped, path) ← path.skipPrefix self.pfx
  if skipped then
    let childNode ← state.expectNode self.child
    getChild state childNode path
  else pure none

def BranchNode.get (getChild : GetChild δ) (self : BranchNode) (state : TrieState δ)
    (path : NibbleSlice) : Outcome TrieError (Option ByteString) :=
  match path.next with
  | some (choice, path) =>
    if (self.choices choice).isValid then do
      let childNode ← state.expectNode (self.choices choice)
      getChild state childNode path
    else .ok none
  | none => .ok (if !self.value.isEmpty then some self.value else none)

def Node.get : Nat → GetChild δ
  | 0, _, _, _ => .error .diverged
  | fuel + 1, state, self, path =>
    match self with
    | .branch n => n.get (Node.get fuel) state path
    | .extension n => n.get (Node.get fuel) state path
    | .leaf n => n.get path

end

/-! ## Insertion -/

section

variable {δ : Type} [TrieDB δ] [Keccak256]

def expectNode (hash : NodeHash) : TrieM δ Node := fun s => (s.expectNode hash, s)

abbrev InsertChild (δ : Type) := Node → NibbleSlice → ByteString → TrieM δ Node

def unwrap {α : Type} (x : Option α) : Outcome TrieError α :=
  Rust.expect x "called `Option::unwrap()` on a `None` value"

/-- The branch a leaf and a new path part at. -/
def LeafNode.split (self : LeafNode) (pathBranch : NibbleSlice) (value : ByteString) :
    TrieM δ BranchNode := do
  let absoluteOffset := pathBranch.offset
  let leafOffset := absoluteOffset + 1
  if absoluteOffset == 2 * pathBranch.data.length then
    let selfHash ← self.insertSelf leafOffset
    let selfChoice ← call (unwrap ((NibbleSlice.new self.path).nth absoluteOffset))
    pure (.newWithValue (Function.update BranchNode.EMPTY_CHOICES selfChoice selfHash)
      pathBranch.data value)
  else if absoluteOffset == 2 * self.path.length then
    let newLeaf : LeafNode := ⟨pathBranch.data, value⟩
    let leafHash ← newLeaf.insertSelf leafOffset
    let (choice, _) ← call (unwrap pathBranch.next)
    pure (.newWithValue (Function.update BranchNode.EMPTY_CHOICES choice leafHash) self.path self.value)
  else
    let newLeaf : LeafNode := ⟨pathBranch.data, value⟩
    let childHash ← newLeaf.insertSelf leafOffset
    let selfHash ← self.insertSelf leafOffset
    let selfChoice ← call (unwrap ((NibbleSlice.new self.path).nth absoluteOffset))
    let choices := Function.update BranchNode.EMPTY_CHOICES selfChoice selfHash
    let (choice, _) ← call (unwrap pathBranch.next)
    pure (.new (Function.update choices choice childHash))

def LeafNode.insert (self : LeafNode) (path : NibbleSlice) (value : ByteString) : TrieM δ Node := do
  if ← call (path.cmpRest self.path) then pure (.leaf { self with value := value })
  else
    let offset ← call (path.countPrefixSlice ((NibbleSlice.new self.path).offsetAdd path.offset))
    let branchNode ← self.split (path.offsetAdd offset) value
    if offset != 0 then
      let branchHash ← branchNode.insertSelf
      let pfx ← call (path.splitToVec offset)
      pure (.extension ⟨pfx, branchHash⟩)
    else pure (.branch branchNode)

/-- What is left of an extension to the right of a split: an extension again, or its child. -/
def ExtensionNode.rightPrefixNode (child : NodeHash) (rightPrefix : Option NibbleVec) :
    TrieM δ NodeHash :=
  match rightPrefix with
  | some rightPrefix => ExtensionNode.insertSelf ⟨rightPrefix, child⟩
  | none => pure child

/-- The branch where a new path leaves an extension; `path` is at the half-byte where it does. -/
def ExtensionNode.splitBranch (child : NodeHash) (path : NibbleSlice) (value : ByteString)
    (choice : Nibble) (rightPrefix : Option NibbleVec) : TrieM δ BranchNode := do
  let childOffset := path.offset + 1
  let rightPrefixNode ← ExtensionNode.rightPrefixNode child rightPrefix
  let choices := Function.update BranchNode.EMPTY_CHOICES choice rightPrefixNode
  match path.next with
  | some (c, path) =>
    let newLeaf : LeafNode := ⟨path.data, value⟩
    let leafHash ← newLeaf.insertSelf childOffset
    pure (.new (Function.update choices c leafHash))
  | none => pure (.newWithValue choices path.data value)

def ExtensionNode.insert (insertChild : InsertChild δ) (self : ExtensionNode) (path : NibbleSlice)
    (value : ByteString) : TrieM δ Node := do
  let (skipped, path) ← call (path.skipPrefix self.pfx)
  if skipped then
    let childNode ← expectNode self.child
    let childNode ← insertChild childNode path value
    -- the child of an extension is never a leaf, so the offset is not used
    let child ← childNode.insertSelf 0
    pure (.extension { self with child := child })
  else
    let offset ← call (path.countPrefixVec self.pfx)
    let path := path.offsetAdd offset
    let (leftPrefix, choice, rightPrefix) ← call (self.pfx.splitExtractAt offset)
    let leftPrefix := if !leftPrefix.isEmpty then some leftPrefix else none
    let rightPrefix := if !rightPrefix.isEmpty then some rightPrefix else none
    let branchNode ← ExtensionNode.splitBranch self.child path value choice rightPrefix
    match leftPrefix with
    | some leftPrefix =>
      let branchHash ← branchNode.insertSelf
      pure (.extension ⟨leftPrefix, branchHash⟩)
    | none => pure (.branch branchNode)

def BranchNode.insert (insertChild : InsertChild δ) (self : BranchNode) (path : NibbleSlice)
    (value : ByteString) : TrieM δ Node :=
  match path.next with
  | some (choice, path) =>
    if !(self.choices choice).isValid then do
      let newLeaf : LeafNode := ⟨path.data, value⟩
      let childHash ← newLeaf.insertSelf path.offset
      pure (.branch { self with choices := Function.update self.choices choice childHash })
    else do
      let childNode ← expectNode (self.choices choice)
      let childNode ← insertChild childNode path value
      let childHash ← childNode.insertSelf path.offset
      pure (.branch { self with choices := Function.update self.choices choice childHash })
  | none => pure (.branch { self with path := path.data, value := value })

def Node.insert : Nat → InsertChild δ
  | 0, _, _, _ => Exec.diverge
  | fuel + 1, self, path, value =>
    match self with
    | .branch n => n.insert (Node.insert fuel) path value
    | .extension n => n.insert (Node.insert fuel) path value
    | .leaf n => n.insert path value

end

/-! ## Removal -/

section

variable {δ : Type} [TrieDB δ] [Keccak256]

abbrev RemoveChild (δ : Type) := Node → NibbleSlice → TrieM δ (Option Node × Option ByteString)

def LeafNode.remove (self : LeafNode) (path : NibbleSlice) :
    Outcome TrieError (Option Node × Option ByteString) := do
  if ← path.cmpRest self.path then pure (none, some self.value) else pure (some (.leaf self), none)

/-- An extension above what is left of its child. -/
def ExtensionNode.restructure (self : ExtensionNode) (childNode : Option Node) :
    TrieM δ (Option Node) :=
  match childNode with
  | none => pure none
  | some (.branch branchNode) => do
    let child ← branchNode.insertSelf
    pure (some (.extension { self with child := child }))
  | some (.extension extensionNode) => do
    let pfx ← call (self.pfx.extend extensionNode.pfx)
    pure (some (.extension { extensionNode with pfx := pfx }))
  | some (.leaf leafNode) => pure (some (.leaf leafNode))

def ExtensionNode.remove (removeChild : RemoveChild δ) (self : ExtensionNode) (path : NibbleSlice) :
    TrieM δ (Option Node × Option ByteString) := do
  let (skipped, path) ← call (path.skipPrefix self.pfx)
  if skipped then
    let childNode ← expectNode self.child
    let (childNode, oldValue) ← removeChild childNode path
    let node ← self.restructure childNode
    pure (node, oldValue)
  else pure (some (.extension self), none)

/-- Store what is left of a child, or the default choice when nothing is. -/
def storeChild (childNode : Option Node) (offset : Nat) : TrieM δ NodeHash :=
  match childNode with
  | some childNode => childNode.insertSelf offset
  | none => pure NodeHash.constDefault

/-- The first step of `BranchNode::remove`: take the value out of a child or of the node itself. -/
def BranchNode.removeValue (removeChild : RemoveChild δ) (self : BranchNode) (path : NibbleSlice) :
    TrieM δ (BranchNode × Option ByteString) :=
  match path.next with
  | some (choiceIndex, path) =>
    if (self.choices choiceIndex).isValid then do
      let childNode ← expectNode (self.choices choiceIndex)
      let (childNode, oldValue) ← removeChild childNode path
      let childHash ← storeChild childNode path.offset
      pure ({ self with choices := Function.update self.choices choiceIndex childHash }, oldValue)
    else pure (self, none)
  | none =>
    if !self.path.isEmpty then
      pure ({ self with path := [], value := [] },
        if !self.value.isEmpty then some self.value else none)
    else pure (self, none)

/-- The `try_fold` over the choices: an error when more than one is valid. -/
def BranchNode.choiceCount (self : BranchNode) : Except Unit (Option Nibble) :=
  let step : Option Nibble → Nibble → Except Unit (Option Nibble) := fun acc i =>
    match acc, (self.choices i).isValid with
    | none, true => .ok (some i)
    | none, false => .ok none
    | some _, true => .error ()
    | some i, false => .ok (some i)
  (List.finRange 16).foldlM step none

/-- The second step: a node with a single child is merged with it. -/
def BranchNode.restructure (self : BranchNode) (pathOffset : Nat) : TrieM δ Node := do
  match self.choiceCount with
  | .ok (some choiceIndex) =>
    let childHash := self.choices choiceIndex
    let childNode ← expectNode childHash
    match childNode with
    | .extension extensionNode =>
      call (Rust.assert self.path.isEmpty "assertion failed: self.path.is_empty()")
      let pfx ← call (extensionNode.pfx.prepend choiceIndex)
      pure (.extension { extensionNode with pfx := pfx })
    | .branch _ =>
      let extensionNode : ExtensionNode :=
        ⟨NibbleVec.fromSingle choiceIndex (pathOffset % 2 != 0), childHash⟩
      let childHash ← extensionNode.insertSelf
      if !self.path.isEmpty then
        pure (.branch { self with choices := Function.update self.choices choiceIndex childHash })
      else expectNode childHash
    | .leaf _ => if !self.path.isEmpty then pure (.branch self) else expectNode childHash
  | _ => if !self.path.isEmpty then pure (.leaf ⟨self.path, self.value⟩) else pure (.branch self)

def BranchNode.remove (removeChild : RemoveChild δ) (self : BranchNode) (path : NibbleSlice) :
    TrieM δ (Option Node × Option ByteString) := do
  let (self, value) ← self.removeValue removeChild path
  let newNode ← self.restructure path.offset
  pure (some newNode, value)

def Node.remove : Nat → RemoveChild δ
  | 0, _, _ => Exec.diverge
  | fuel + 1, self, path =>
    match self with
    | .branch n => n.remove (Node.remove fuel) path
    | .extension n => n.remove (Node.remove fuel) path
    | .leaf n => call (n.remove path)

end

/-! ## Proofs -/

section

variable {δ : Type} [TrieDB δ]

abbrev GetPathChild (δ : Type) :=
  TrieState δ → Node → NibbleSlice → List ByteString → Outcome TrieError (List ByteString)

/-- `node_path.push(encoded)`, unless the node is inlined in its parent. -/
def pushEncoded (nodePath : List ByteString) (encoded : ByteString) : List ByteString :=
  if encoded.length ≥ 32 then nodePath ++ [encoded] else nodePath

def LeafNode.getPath (self : LeafNode) (path : NibbleSlice) (nodePath : List ByteString) :
    Outcome TrieError (List ByteString) := do
  let encoded ← self.encodeRaw path.offset
  pure (pushEncoded nodePath encoded)

def ExtensionNode.getPath (getPathChild : GetPathChild δ) (self : ExtensionNode) (state : TrieState δ)
    (path : NibbleSlice) (nodePath : List ByteString) : Outcome TrieError (List ByteString) := do
  let encoded ← self.encodeRaw
  let nodePath := pushEncoded nodePath encoded
  let (skipped, path) ← path.skipPrefix self.pfx
  if skipped then
    let childNode ← state.expectNode self.child
    getPathChild state childNode path nodePath
  else pure nodePath

def BranchNode.getPath (getPathChild : GetPathChild δ) (self : BranchNode) (state : TrieState δ)
    (path : NibbleSlice) (nodePath : List ByteString) : Outcome TrieError (List ByteString) :=
  let nodePath := pushEncoded nodePath self.encodeRaw
  match path.next with
  | some (choice, path) =>
    if (self.choices choice).isValid then do
      let childNode ← state.expectNode (self.choices choice)
      getPathChild state childNode path nodePath
    else .ok nodePath
  | none => .ok nodePath

def Node.getPath : Nat → GetPathChild δ
  | 0, _, _, _, _ => .error .diverged
  | fuel + 1, state, self, path, nodePath =>
    match self with
    | .branch n => n.getPath (Node.getPath fuel) state path nodePath
    | .extension n => n.getPath (Node.getPath fuel) state path nodePath
    | .leaf n => n.getPath path nodePath

end
end EthereumRust.Mpt
