import Mathlib
import Diem.Theory.Hoare
import Diem.Types.SparseMerkleProof
import Diem.Storage.JellyfishMerkle.TreeCache
import Diem.Storage.JellyfishMerkle.Siblings

/-!
# The Jellyfish Merkle tree

`JellyfishMerkleTree` of `storage/jellyfish-merkle/src/lib.rs`: the writer
`put_value_sets`, which inserts the keys of each value set one after the other
into a `TreeCache` and freezes it after each set, and the reader
`get_with_proof`, which walks from the root of a version down the nibbles of a
key.

The writer's methods take the `TreeCache` by `&mut`: they are computations in
`TreeCacheM`, whose `reader` is a parameter, as are the hashes and the
placeholder. `insert_at` and `insert_at_internal_node` call each other; each call
of the second reads a nibble off the iterator first, which bounds the recursion.
The iterator is passed by value, since no caller reads it after the callee has
advanced it. The loops of `insert_at_leaf_node` and of `get_with_proof` are
`insertAtLeafNodeLoop` and `getWithProofLoop`, with the count of the rounds
left. A panic is a `Failure.panic` with the text of the assertion or `expect`,
and `first_version + idx` is a `u64` addition that wraps as in a release build.
-/

namespace Diem.JellyfishMerkle

open EStateM

/-- `NibblePath::new(key.to_vec())`: the path of the 64 nibbles of a key. -/
def HashValue.nibblePath (key : HashValue) : NibblePath :=
  NibblePath.new (HashValue.toVec key) (by rw [HashValue.toVec, Bytes.length_toBe]; decide)

namespace Tree

open NibblePath (NibbleIterator skipCommonPrefix)

/-- `Option::expect`. -/
def expect {α : Type} (message : String) : Option α → Except Failure α
  | some a => .ok a
  | none => .error (.panic message)

@[simp] theorem expect_some {α : Type} (message : String) (a : α) : expect message (some a) = .ok a := rfl

@[simp] theorem expect_none {α : Type} (message : String) : expect message (none : Option α) = .error (.panic message) :=
  rfl

/-- `Result::expect`: an `Err` panics with the message. -/
def expectOk {α : Type} (message : String) : Except Failure α → Except Failure α
  | .ok a => .ok a
  | .error _ => .error (.panic message)

@[simp] theorem expectOk_ok {α : Type} (message : String) (a : α) : expectOk message (.ok a) = .ok a := rfl

/-- `assert!`: a panic with the text unless the condition holds. -/
def assert {σ : Type} (condition : Bool) (message : String) : EStateM Failure σ Unit :=
  if condition then pure () else throw (.panic message)

@[simp] theorem wp_assert {σ : Type} {condition : Bool} {message : String} {Q : Unit → σ → Prop}
    {R : Failure → σ → Prop} : wp (assert condition message) Q R = if condition then Q () else R (.panic message) := by
  unfold assert
  split <;> rfl

/-- The text of the `assert!` of `NibblePath::get_nibble`. -/
def getNibbleAssertion : String := "assertion failed: i < self.num_nibbles"

section Writer

variable {V : Type} (reader : TreeReader V) (valueHash : V → HashValue) (leafHash node : HashValue → HashValue → HashValue)
  (placeholder : HashValue) (leafCountMigration : Bool)

/-- `create_leaf_node`: a leaf for the key of the whole path the iterator
walks, put at `node_key`. -/
def createLeafNode (nodeKey : NodeType.NodeKey) (nibbleIter : NibbleIterator) (value : V) :
    TreeCacheM V (NodeType.NodeKey × Node V) := do
  let nibblePath ← liftExcept (expect getNibbleAssertion nibbleIter.getNibblePath)
  let accountKey ← liftExcept (expectOk "LeafNode must have full nibble path." (HashValue.fromSlice nibblePath.bytes))
  let newLeafNode : Node V := .Leaf (LeafNode.new valueHash accountKey value)
  TreeCache.putNode nodeKey newLeafNode
  return (nodeKey, newLeafNode)

/-- The loop of `insert_at_leaf_node` that builds the internal nodes above the
one where the two keys part, bottom-up: each pops a nibble off the common path
and puts a node with the one child below it there. -/
def insertAtLeafNodeLoop (version : UInt64) :
    ℕ → NibblePath → NodeType.NodeKey → Node V → TreeCacheM V (NodeType.NodeKey × Node V)
  | 0, _, nodeKey, nextInternalNode => pure (nodeKey, nextInternalNode)
  | n + 1, commonNibblePath, _, nextInternalNode => do
    let nibble ← liftExcept (expect "Common nibble_path below internal node ran out of nibble" commonNibblePath.pop.1)
    let commonNibblePath := commonNibblePath.pop.2
    let nodeKey : NodeType.NodeKey := ⟨version, commonNibblePath⟩
    let hash ← liftExcept (nextInternalNode.hash leafHash node placeholder)
    let nodeType ← liftExcept nextInternalNode.nodeType
    let internalNode ← liftExcept
      (InternalNode.newMigration ((∅ : Children).insert nibble ⟨hash, version.toNat, nodeType⟩) leafCountMigration)
    TreeCache.putNode nodeKey (.Internal internalNode)
    insertAtLeafNodeLoop version n commonNibblePath nodeKey (.Internal internalNode)

/-- `insert_at_leaf_node`: the key reaches a leaf. The leaf is replaced by a
leaf with the new value if it holds the key, and otherwise by internal nodes
down to where the two keys part, with the two leaves below. -/
def insertAtLeafNode (nodeKey : NodeType.NodeKey) (existingLeafNode : LeafNode V) (version : UInt64)
    (nibbleIter : NibbleIterator) (value : V) : TreeCacheM V (NodeType.NodeKey × Node V) := do
  TreeCache.deleteNode nodeKey true
  -- 1. the leaf's key shares the nibbles already visited
  let existingLeafNibblePath := HashValue.nibblePath existingLeafNode.accountKey
  let (_, visitedNibbleIter, existingLeafNibbleIter) ← liftExcept
    (expect getNibbleAssertion (skipCommonPrefix nibbleIter.visitedNibbles existingLeafNibblePath.toRaw.nibbles))
  let visitedFinished ← liftExcept (expect getNibbleAssertion visitedNibbleIter.isFinished)
  assert visitedFinished "Leaf nodes failed to share the same visited nibbles before index"
  -- 2. and how many more
  let (numCommonNibblesBelowInternal, nibbleIter, existingLeafNibbleIterBelowInternal) ← liftExcept
    (expect getNibbleAssertion (skipCommonPrefix nibbleIter existingLeafNibbleIter.remainingNibbles))
  let commonNibblePath ← liftExcept (expect getNibbleAssertion nibbleIter.visitedNibbles.collect)
  let finished ← liftExcept (expect getNibbleAssertion nibbleIter.isFinished)
  if finished then
    -- 2.1. the same key: a new leaf in its place
    let existingFinished ← liftExcept (expect getNibbleAssertion existingLeafNibbleIterBelowInternal.isFinished)
    assert existingFinished "assertion failed: existing_leaf_nibble_iter_below_internal.is_finished()"
    createLeafNode valueHash { nodeKey with version := version } nibbleIter value
  else
    -- 2.2. the keys part: the node where they do, then the nodes above it
    let (existingLeafIndex, _) ← liftExcept (expect getNibbleAssertion existingLeafNibbleIterBelowInternal.next)
    let existingLeafIndex ← liftExcept (expect "Ran out of nibbles" existingLeafIndex)
    let (newLeafIndex, nibbleIter) ← liftExcept (expect getNibbleAssertion nibbleIter.next)
    let newLeafIndex ← liftExcept (expect "Ran out of nibbles" newLeafIndex)
    assert (existingLeafIndex != newLeafIndex) "assertion failed: (left != right)"
    let children : Children :=
      (∅ : Children).insert existingLeafIndex ⟨existingLeafNode.hash leafHash, version.toNat, .Leaf⟩
    let nodeKey : NodeType.NodeKey := ⟨version, commonNibblePath⟩
    let existingLeafNodeKey ← liftExcept (nodeKey.genChildNodeKey version existingLeafIndex)
    TreeCache.putNode existingLeafNodeKey (.Leaf existingLeafNode)
    let newLeafNodeKey ← liftExcept (nodeKey.genChildNodeKey version newLeafIndex)
    let (_, newLeafNode) ← createLeafNode valueHash newLeafNodeKey nibbleIter value
    let newLeafHash ← liftExcept (newLeafNode.hash leafHash node placeholder)
    let children := children.insert newLeafIndex ⟨newLeafHash, version.toNat, .Leaf⟩
    let internalNode ← liftExcept (InternalNode.newMigration children leafCountMigration)
    TreeCache.putNode nodeKey (.Internal internalNode)
    insertAtLeafNodeLoop leafHash node placeholder leafCountMigration version numCommonNibblesBelowInternal
      commonNibblePath nodeKey (.Internal internalNode)

mutual

/-- `insert_at`: insert the key the iterator walks, from the nibble it is at,
into the subtree at `node_key`; the key and the node of the new subtree. -/
def insertAt (nodeKey : NodeType.NodeKey) (version : UInt64) (nibbleIter : NibbleIterator) (value : V) :
    TreeCacheM V (NodeType.NodeKey × Node V) := do
  match ← TreeCache.getNode reader nodeKey with
  | .Internal internalNode => insertAtInternalNode nodeKey internalNode version nibbleIter value
  | .Leaf leafNode =>
    insertAtLeafNode valueHash leafHash node placeholder leafCountMigration nodeKey leafNode version nibbleIter value
  | .Null =>
    if !nodeKey.nibblePath.isEmpty then throw (.error (.message "Null node exists for non-root node with node_key"))
    else do
      -- the null root of the same version goes
      if nodeKey.version = version then TreeCache.deleteNode nodeKey false
      createLeafNode valueHash (NodeType.NodeKey.newEmptyPath version) nibbleIter value
termination_by (nibbleIter.posEnd - nibbleIter.posStart, 1)

/-- `insert_at_internal_node`: the key goes down to the child at its next
nibble, or to a new leaf there; the node is put again at `version` with the
child's new hash. -/
def insertAtInternalNode (nodeKey : NodeType.NodeKey) (internalNode : InternalNode) (version : UInt64)
    (nibbleIter : NibbleIterator) (value : V) : TreeCacheM V (NodeType.NodeKey × Node V) := do
  TreeCache.deleteNode nodeKey false
  match _hnext : nibbleIter.next with
  | some (some childIndex, nibbleIter') =>
    let (_, newChildNode) ← (match internalNode.child childIndex with
      | some child => do
        let childNodeKey ← liftExcept (nodeKey.genChildNodeKey child.version.toUInt64 childIndex)
        insertAt childNodeKey version nibbleIter' value
      | none => do
        let newChildNodeKey ← liftExcept (nodeKey.genChildNodeKey version childIndex)
        createLeafNode valueHash newChildNodeKey nibbleIter' value : TreeCacheM V (NodeType.NodeKey × Node V))
    let newChildHash ← liftExcept (newChildNode.hash leafHash node placeholder)
    let newChildNodeType ← liftExcept newChildNode.nodeType
    let newInternalNode ← liftExcept (InternalNode.newMigration
      (internalNode.children.insert childIndex ⟨newChildHash, version.toNat, newChildNodeType⟩) leafCountMigration)
    let nodeKey : NodeType.NodeKey := { nodeKey with version := version }
    TreeCache.putNode nodeKey (.Internal newInternalNode)
    return (nodeKey, .Internal newInternalNode)
  | some (none, _) => throw (.panic "Ran out of nibbles")
  | none => throw (.panic getNibbleAssertion)
termination_by (nibbleIter.posEnd - nibbleIter.posStart, 0)
decreasing_by
  obtain ⟨rfl, hlt, -⟩ := NibbleIterator.eq_advance_of_next _hnext
  exact Prod.Lex.left _ _ (by simp only [NibbleIterator.advance_posEnd, NibbleIterator.advance_posStart]; omega)

end

/-- `put`: insert one key from the root, which becomes the new root. -/
def put (key : HashValue) (value : V) (version : UInt64) : TreeCacheM V Unit := do
  let nibblePath := HashValue.nibblePath key
  let rootNodeKey ← TreeCache.getRootNodeKey
  let (newRootNodeKey, _) ←
    insertAt reader valueHash leafHash node placeholder leafCountMigration rootNodeKey version nibblePath.toRaw.nibbles value
  TreeCache.setRootNodeKey newRootNodeKey

/-- The loop of `put_value_sets` over the value sets from the one of index
`idx`: each is written at `first_version + idx`, one key after the other, and
then frozen. -/
def putValueSetsLoop (firstVersion : UInt64) : ℕ → List (List (HashValue × V)) → TreeCacheM V Unit
  | _, [] => pure ()
  | idx, valueSet :: valueSets =>
    if valueSet.isEmpty then throw (.panic "Transactions that output empty write set should not be included.")
    else do
      let version := firstVersion + idx.toUInt64
      valueSet.forM fun (key, value) => put reader valueHash leafHash node placeholder leafCountMigration key value version
      TreeCache.freeze reader leafHash node placeholder
      putValueSetsLoop firstVersion (idx + 1) valueSets

/-- `put_value_sets`: the root hash of each version written, and the batch of
nodes and stale node indices to write to the store. -/
def putValueSets (valueSets : List (List (HashValue × V))) (firstVersion : UInt64) :
    Except Failure (List HashValue × TreeUpdateBatch V) :=
  match (putValueSetsLoop reader valueHash leafHash node placeholder leafCountMigration firstVersion 0 valueSets).run
      (TreeCache.new reader firstVersion) with
  | .ok _ treeCache => .ok treeCache.into
  | .error e _ => .error e

end Writer

section Reader

variable {V : Type} (reader : TreeReader V) (leafHash node : HashValue → HashValue → HashValue) (placeholder : HashValue)

/-- The loop `for nibble_depth in 0..=ROOT_NIBBLE_HEIGHT` of `get_with_proof`,
with `rounds` rounds left: the node at `next_node_key` is read, and the walk
goes on to the child an internal node gives, with its siblings. -/
def getWithProofLoop (key : HashValue) (version : UInt64) :
    ℕ → ℕ → NodeType.NodeKey → NibbleIterator → List HashValue → Except Failure (Option V × SparseMerkleProof)
  | 0, _, _, _, _ => .error (.error (.message "Jellyfish Merkle tree has cyclic graph inside."))
  | rounds + 1, nibbleDepth, nextNodeKey, nibbleIter, siblings => do
    let nextNode ← match reader nextNodeKey with
      | some nextNode => .ok nextNode
      | none =>
        if nibbleDepth = 0 then .error (.error (.message "Missing state root node at version, probably pruned."))
        else .error (.error (.message "Missing node at"))
    match nextNode with
    | .Internal internalNode => do
      let (queriedChildIndex, nibbleIter) ← expect getNibbleAssertion nibbleIter.next
      let queriedChildIndex ← match queriedChildIndex with
        | some queriedChildIndex => .ok queriedChildIndex
        | none => .error (.error (.message "ran out of nibbles"))
      let (childNodeKey, siblingsInInternal) ←
        internalNode.getChildWithSiblings node placeholder nextNodeKey queriedChildIndex
      let siblings := siblings ++ siblingsInInternal
      match childNodeKey with
      | some childNodeKey => getWithProofLoop key version rounds (nibbleDepth + 1) childNodeKey nibbleIter siblings
      | none => .ok (none, ⟨none, siblings.reverse⟩)
    | .Leaf leafNode =>
      .ok (if leafNode.accountKey = key then some leafNode.value else none,
        ⟨some ⟨leafNode.accountKey, leafNode.valueHash⟩, siblings.reverse⟩)
    | .Null =>
      if nibbleDepth = 0 then .ok (none, ⟨none, []⟩)
      else .error (.error (.message "Non-root null node exists with node key"))

/-- `get_with_proof`: the value of `key` at `version`, and its proof. -/
def getWithProof (key : HashValue) (version : UInt64) : Except Failure (Option V × SparseMerkleProof) :=
  getWithProofLoop reader node placeholder key version (Diem.ROOT_NIBBLE_HEIGHT + 1) 0
    (NodeType.NodeKey.newEmptyPath version) (HashValue.nibblePath key).toRaw.nibbles []

/-- `get` (a test helper): the value `get_with_proof` finds. -/
def get (key : HashValue) (version : UInt64) : Except Failure (Option V) := do
  return (← getWithProof reader node placeholder key version).1

/-- `get_root_node_option`. -/
def getRootNodeOption (version : UInt64) : Option (Node V) := reader (NodeType.NodeKey.newEmptyPath version)

/-- `get_root_node`. -/
def getRootNode (version : UInt64) : Except Failure (Node V) :=
  match getRootNodeOption reader version with
  | some rootNode => .ok rootNode
  | none => .error (.error (.message "Root node not found for version"))

/-- `get_root_hash`. -/
def getRootHash (version : UInt64) : Except Failure HashValue := do
  (← getRootNode reader version).hash leafHash node placeholder

end Reader

end Tree

end Diem.JellyfishMerkle
