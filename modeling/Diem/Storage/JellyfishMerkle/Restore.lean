import Diem.Storage.JellyfishMerkle.NodeType
import Diem.Theory.Hoare

/-!
# Restoring a Jellyfish Merkle tree from chunks

`JellyfishMerkleRestore` of `storage/jellyfish-merkle/src/restore/mod.rs`
rebuilds a tree from its accounts, sent in chunks in increasing key order, each
with a range proof against the expected root hash. The accounts are inserted
from left to right into a stack of partial internal nodes; what can no longer
change is moved into `frozen_nodes`, which `add_chunk` writes to the store once
the proof checks.

A method on `&mut self` is a computation in `EStateM Failure`, so an `Err` or a
panic leaves behind the mutations made before it. `add_chunk`, the one method
that writes, runs on the restore together with the contents of the store, which
it reaches through `EStateM.zoom`. The store is the parameter `writeNodeBatch`:
a write returns the new contents, or an error after which the store is as it
was. The hashes are parameters as in `Diem.Types.SparseMerkleProof`, and
`num_keys_received` is a `u64` that wraps.

**`addChunk_error_keeps_store`**: a call of `add_chunk` that fails leaves the
store as it was, since the write is its last step. The restore itself is not
left as it was (**`addChunk_outOfOrder_not_atomic`**): a chunk whose second key
is below its first fails the order check after the first key is in, and the
chunk of the one true account is then rejected, though a fresh restore accepts
it. A restart recovers from the store, which the failure did not touch.
-/

namespace Diem.JellyfishMerkle

open EStateM

/-- `ROOT_NIBBLE_HEIGHT`. -/
def ROOT_NIBBLE_HEIGHT : ℕ := 64

/-- Nibble `index` of the 32 bytes of a hash, high nibble first. -/
def HashValue.nibble (h : HashValue) (index : ℕ) : Nibble :=
  ⟨h.val / 16 ^ (2 * HashValue.LENGTH - 1 - index) % 16, Nat.mod_lt _ (by decide)⟩

/-- `HashValue::get_nibble`: indexing the bytes panics past the last one. -/
def HashValue.getNibble (h : HashValue) (index : ℕ) : Except Failure Nibble :=
  if index < 2 * HashValue.LENGTH then .ok (HashValue.nibble h index) else .error (.panic "index out of bounds")

/-- The nibbles of a key, `NibblePath::new(key.to_vec()).nibbles()`. -/
def HashValue.nibbles (h : HashValue) : List Nibble := (List.range ROOT_NIBBLE_HEIGHT).map (HashValue.nibble h)

/-- `common_prefix_nibbles_len`. -/
def HashValue.commonPrefixNibblesLen (h other : HashValue) : ℕ := h.commonPrefixBitsLen other / 4

/-- `NodeKey`. -/
structure NodeKey where
  /-- `version`. -/
  version : ℕ
  /-- `nibble_path`. -/
  nibblePath : List Nibble
  deriving DecidableEq, Repr

/-- `NodeKey::new_empty_path`. -/
def NodeKey.newEmptyPath (version : ℕ) : NodeKey := ⟨version, []⟩

/-- `NodeKey::gen_child_node_key`. -/
def NodeKey.genChildNodeKey (key : NodeKey) (version : ℕ) (n : Nibble) : NodeKey := ⟨version, key.nibblePath ++ [n]⟩

/-- `NodeBatch`: `BTreeMap<NodeKey, Node<V>>`. -/
abbrev NodeBatch (V : Type) := AList fun _ : NodeKey => Node V

/-- `ChildInfo`. -/
inductive ChildInfo (V : Type) where
  /-- An internal node, with its hash and leaf count once known. -/
  | Internal (hash : Option HashValue) (leafCount : Option ℕ)
  /-- A leaf. -/
  | Leaf (node : LeafNode V)
  deriving DecidableEq

/-- `InternalInfo`: a partial internal node. -/
structure InternalInfo (V : Type) where
  /-- `node_key`. -/
  nodeKey : NodeKey
  /-- `children`, an array of sixteen. -/
  children : List (Option (ChildInfo V))
  /-- The array has sixteen entries. -/
  length_children : children.length = 16

/-- `InternalInfo::new_empty`. -/
def InternalInfo.newEmpty {V : Type} (nodeKey : NodeKey) : InternalInfo V := ⟨nodeKey, List.replicate 16 none, by simp⟩

/-- `InternalInfo::set_child`. -/
def InternalInfo.setChild {V : Type} (info : InternalInfo V) (index : Nibble) (childInfo : ChildInfo V) :
    InternalInfo V :=
  ⟨info.nodeKey, info.children.set index (some childInfo), by simp [info.length_children]⟩

/-- `children.iter().rposition(|x| x.is_some())`. -/
def rightmostChildIndex {V : Type} (children : List (Option (ChildInfo V))) : Option ℕ :=
  ((List.range children.length).filter fun i => (children.getD i none).isSome).getLast?

/-- `JellyfishMerkleRestore`, all of it but the store. -/
structure JellyfishMerkleRestore (V : Type) where
  /-- `version`. -/
  version : ℕ
  /-- `partial_nodes`. -/
  partialNodes : List (InternalInfo V)
  /-- `frozen_nodes`. -/
  frozenNodes : NodeBatch V
  /-- `previous_leaf`. -/
  previousLeaf : Option (LeafNode V)
  /-- `num_keys_received`. -/
  numKeysReceived : ℕ
  /-- `expected_root_hash`. -/
  expectedRootHash : HashValue
  /-- `leaf_count_migration`. -/
  leafCountMigration : Bool

/-- `JellyfishMerkleRestore::new_overwrite`. -/
def JellyfishMerkleRestore.newOverwrite {V : Type} (version : ℕ) (expectedRootHash : HashValue)
    (leafCountMigration : Bool) : JellyfishMerkleRestore V :=
  ⟨version, [InternalInfo.newEmpty (NodeKey.newEmptyPath version)], ∅, none, 0, expectedRootHash, leafCountMigration⟩

/-- A method of the restore. -/
abbrev RestoreM (V α : Type) := EStateM Failure (JellyfishMerkleRestore V) α

/-- Fail with a panic. -/
def panicWith {V α : Type} (message : String) : RestoreM V α := throw (.panic message)

/-- Lift a call that may fail but touches no state. -/
def liftFailure {V α : Type} (x : Except Failure α) : RestoreM V α :=
  match x with
  | .ok a => pure a
  | .error e => throw e

section Restore

variable {V : Type} (valueHash : V → HashValue) (leafHash node : HashValue → HashValue → HashValue)
  (placeholder : HashValue)

/-- `ChildInfo::into_child`. -/
def ChildInfo.intoChild (childInfo : ChildInfo V) (version : ℕ) : Except Failure Child :=
  match childInfo with
  | .Internal hash leafCount =>
    match hash with
    | some hash => .ok ⟨hash, version, (leafCount.map NodeType.Internal).getD .InternalLegacy⟩
    | none => .error (.panic "Must have been initialized.")
  | .Leaf leaf => .ok ⟨leaf.hash leafHash, version, .Leaf⟩

/-- The loop of `into_internal_node` over the array, from index `index` on. -/
def intoChildren (version : ℕ) : ℕ → List (Option (ChildInfo V)) → Children → Except Failure Children
  | _, [], children => .ok children
  | index, none :: rest, children => intoChildren version (index + 1) rest children
  | index, some childInfo :: rest, children => do
    let child ← childInfo.intoChild leafHash version
    let nibble ← Nibble.fromU8 index
    intoChildren version (index + 1) rest (children.insert nibble child)

/-- `InternalInfo::into_internal_node`. -/
def InternalInfo.intoInternalNode (info : InternalInfo V) (version : ℕ) (leafCountMigration : Bool) :
    Except Failure (NodeKey × InternalNode) := do
  let children ← intoChildren leafHash version 0 info.children ∅
  let internalNode ← InternalNode.newMigration children leafCountMigration
  .ok (info.nodeKey, internalNode)

/-- `freeze_previous_leaf`. -/
def freezePreviousLeaf : RestoreM V Unit := do
  let s ← get
  if s.numKeysReceived = 0 then pure ()
  else
    match s.partialNodes.getLast? with
    | none => panicWith "Must have at least one partial node."
    | some lastNode =>
      match rightmostChildIndex lastNode.children with
      | none => panicWith "Must have at least one child."
      | some index =>
        match lastNode.children.getD index none, Nibble.fromU8 index with
        | some (.Leaf leaf), .ok nibble =>
          set { s with frozenNodes := s.frozenNodes.insert (lastNode.nodeKey.genChildNodeKey s.version nibble) (.Leaf leaf) }
        | _, _ => panicWith "Must have at least one child and must not have further internal nodes."

/-- Record the hash and leaf count of a frozen internal node in its parent,
the last partial node, where it is the rightmost child. -/
def updateParent (nodeHash : HashValue) (nodeLeafCount : Option ℕ) : RestoreM V Unit := do
  let s ← get
  match s.partialNodes.getLast? with
  | none => pure ()
  | some parentNode =>
    match rightmostChildIndex parentNode.children with
    | none => panicWith "Must have at least one child."
    | some index =>
      match parentNode.children.getD index none, Nibble.fromU8 index with
      | some (.Internal hash leafCount), .ok nibble =>
        if hash.isSome then panicWith "assertion failed: hash.replace(node_hash) == None"
        else if leafCount.isSome then panicWith "assertion failed: leaf_count.is_none()"
        else
          let parentNode := parentNode.setChild nibble (.Internal (some nodeHash) nodeLeafCount)
          set { s with partialNodes := s.partialNodes.dropLast ++ [parentNode] }
      | _, _ => panicWith "Must have at least one child and the rightmost child must not be a leaf."

/-- The `while` loop of `freeze_internal_nodes`, with `fuel` rounds at most:
each round pops one partial node. -/
def freezeInternalNodesLoop (numRemainingNodes : ℕ) : ℕ → RestoreM V Unit
  | 0 => pure ()
  | fuel + 1 => do
    let s ← get
    if s.partialNodes.length > numRemainingNodes then
      match s.partialNodes.getLast? with
      | none => panicWith "This node must exist."
      | some lastNode =>
        set { s with partialNodes := s.partialNodes.dropLast }
        let (nodeKey, internalNode) ← liftFailure (lastNode.intoInternalNode leafHash s.version s.leafCountMigration)
        let nodeHash ← liftFailure (internalNode.hash node placeholder)
        modify fun s => { s with frozenNodes := s.frozenNodes.insert nodeKey (.Internal internalNode) }
        updateParent nodeHash internalNode.leafCount
        freezeInternalNodesLoop numRemainingNodes fuel
    else pure ()

/-- `freeze_internal_nodes`: the loop runs once for each partial node above
`num_remaining_nodes`. -/
def freezeInternalNodes (numRemainingNodes : ℕ) : RestoreM V Unit := do
  let s ← get
  freezeInternalNodesLoop leafHash node placeholder numRemainingNodes s.partialNodes.length

/-- `freeze`. -/
def freeze (numRemainingPartialNodes : ℕ) : RestoreM V Unit := do
  freezePreviousLeaf
  freezeInternalNodes leafHash node placeholder numRemainingPartialNodes

/-- Set a child of the partial node at `index`. -/
def setPartialChild (index : ℕ) (childIndex : Nibble) (childInfo : ChildInfo V) : RestoreM V Unit := do
  let s ← get
  if index < s.partialNodes.length then
    set { s with partialNodes := s.partialNodes.modify index fun info => info.setChild childIndex childInfo }
  else panicWith "index out of bounds"

/-- Push a partial node. -/
def pushPartialNode (info : InternalInfo V) : RestoreM V Unit :=
  modify fun s => { s with partialNodes := s.partialNodes ++ [info] }

/-- The loop `for _ in num_existing_partial_nodes..common_prefix_len` of
`insert_at_leaf`: a partial node with a single internal child for each
nibble the two keys share below the existing nodes. `nibbles` are the key's
nibbles and `visited` how many the iterator has read. -/
def insertInternalChain (nibbles : List Nibble) : ℕ → ℕ → RestoreM V ℕ
  | 0, visited => pure visited
  | rounds + 1, visited => do
    let s ← get
    match nibbles[visited]? with
    | none => panicWith "This nibble must exist."
    | some nextNibble =>
      let internalInfo := (InternalInfo.newEmpty ⟨s.version, nibbles.take visited⟩).setChild nextNibble
        (.Internal none none)
      pushPartialNode internalInfo
      insertInternalChain nibbles rounds (visited + 1)

/-- `insert_at_leaf`. -/
def insertAtLeaf (childIndex : Nibble) (existingLeaf : LeafNode V) (newKey : HashValue) (newValue : V)
    (nibbles : List Nibble) (visited : ℕ) : RestoreM V Unit := do
  let s ← get
  let numExistingPartialNodes := s.partialNodes.length
  setPartialChild (numExistingPartialNodes - 1) childIndex (.Internal none none)
  let commonPrefixLen := HashValue.commonPrefixNibblesLen existingLeaf.accountKey newKey
  let visited ← insertInternalChain nibbles (commonPrefixLen - numExistingPartialNodes) visited
  let s ← get
  let newNodeKey : NodeKey := ⟨s.version, nibbles.take visited⟩
  let existingChildIndex ← liftFailure (HashValue.getNibble existingLeaf.accountKey commonPrefixLen)
  pushPartialNode ((InternalInfo.newEmpty newNodeKey).setChild existingChildIndex (.Leaf existingLeaf))
  let s ← get
  freeze leafHash node placeholder s.partialNodes.length
  let newChildIndex ← liftFailure (HashValue.getNibble newKey commonPrefixLen)
  if newChildIndex ≤ existingChildIndex then panicWith "New leaf must be on the right."
  else
    let s ← get
    setPartialChild (s.partialNodes.length - 1) newChildIndex (.Leaf (LeafNode.new valueHash newKey newValue))

/-- The loop `for i in 0..ROOT_NIBBLE_HEIGHT` of `add_one` from `i` on, with
`rounds` rounds left: go down the partial nodes along the key's nibbles. -/
def addOneLoop (newKey : HashValue) (newValue : V) (nibbles : List Nibble) : ℕ → ℕ → RestoreM V Unit
  | 0, _ => pure ()
  | rounds + 1, i => do
    let s ← get
    match nibbles[i]? with
    | none => panicWith "This nibble must exist."
    | some childIndex =>
      match s.partialNodes[i]? with
      | none => panicWith "assertion failed: i < self.partial_nodes.len()"
      | some partialNode =>
        match partialNode.children.getD childIndex none with
        | some (.Leaf existingLeaf) =>
          if i ≠ s.partialNodes.length - 1 then
            panicWith "If we see a leaf, there will be no more partial internal nodes on lower level."
          else insertAtLeaf valueHash leafHash node placeholder childIndex existingLeaf newKey newValue nibbles (i + 1)
        | some (.Internal _ _) => addOneLoop newKey newValue nibbles rounds (i + 1)
        | none => do
          freeze leafHash node placeholder (i + 1)
          setPartialChild i childIndex (.Leaf (LeafNode.new valueHash newKey newValue))

/-- `add_one`. -/
def addOne (newKey : HashValue) (newValue : V) : RestoreM V Unit :=
  addOneLoop valueHash leafHash node placeholder newKey newValue (HashValue.nibbles newKey) ROOT_NIBBLE_HEIGHT 0

/-- `compute_left_sibling_impl` on a slice of `2 ^ height` children: the hash
of that part of the node and whether it is a single leaf. -/
def computeLeftSiblingImpl : ℕ → List (Option (ChildInfo V)) → Except Failure (HashValue × Bool)
  | height, children =>
    if children.isEmpty then .error (.panic "assertion failed: !children.is_empty()")
    else if children.length.countOnes ≠ 1 then .error (.panic "assertion failed: num_children.is_power_of_two()")
    else if children.length = 1 then
      match children with
      | [some (.Internal (some hash) _)] => .ok (hash, false)
      | [some (.Internal none _)] => .error (.panic "The hash must be known.")
      | [some (.Leaf leaf)] => .ok (leaf.hash leafHash, true)
      | _ => .ok (placeholder, true)
    else
      match height with
      | 0 => .error (.panic "assertion failed: num_children.is_power_of_two()")
      | height + 1 => do
        let (leftHash, leftIsLeaf) ← computeLeftSiblingImpl height (children.take (children.length / 2))
        let (rightHash, rightIsLeaf) ← computeLeftSiblingImpl height (children.drop (children.length / 2))
        if leftHash = placeholder ∧ rightIsLeaf then .ok (rightHash, true)
        else if leftIsLeaf ∧ rightHash = placeholder then .ok (leftHash, true)
        else .ok (node leftHash rightHash, false)

/-- `compute_left_sibling`: the sibling on the left of the `n`-th child at
`height` within the partial node. -/
def computeLeftSibling (partialNode : InternalInfo V) (n : Nibble) (height : ℕ) : Except Failure HashValue := do
  if height ≥ 4 then .error (.panic "assertion failed: height < 4")
  else
    let width := 1 <<< height
    let start := (getChildAndSiblingHalfStart n height).2.toNat
    if start + width ≤ partialNode.children.length then do
      let (hash, _) ← computeLeftSiblingImpl leafHash node placeholder height
        ((partialNode.children.drop start).take width)
      .ok hash
    else .error (.panic "range end index out of range")

/-- The first loop of `verify`, over `iter_bits().enumerate()` from bit `i`
on: a left sibling for each set bit, a count of the clear ones. -/
def leftSiblingsLoop (partialNodes : List (InternalInfo V)) (previousKey : HashValue) :
    ℕ → List Bool → List HashValue → ℕ → Except Failure (List HashValue × ℕ)
  | _, [], leftSiblings, numVisitedRightSiblings => .ok (leftSiblings, numVisitedRightSiblings)
  | i, bit :: bits, leftSiblings, numVisitedRightSiblings =>
    if bit then do
      let sibling ← if i ≥ partialNodes.length * 4 then .ok placeholder
        else match partialNodes[i / 4]? with
          | some partialNode => do
            let n ← HashValue.getNibble previousKey (i / 4)
            computeLeftSibling leafHash node placeholder partialNode n (3 - i % 4)
          | none => .error (.panic "index out of bounds")
      leftSiblingsLoop partialNodes previousKey (i + 1) bits (leftSiblings ++ [sibling]) numVisitedRightSiblings
    else leftSiblingsLoop partialNodes previousKey (i + 1) bits leftSiblings (numVisitedRightSiblings + 1)

/-- The second loop of `verify`, over the bits from the last: drop the
placeholders at the bottom of the left siblings and the extra right ones. -/
def trimSiblingsLoop (numRightSiblings : ℕ) :
    List Bool → List HashValue → ℕ → Except Failure (List HashValue × ℕ)
  | [], leftSiblings, numVisitedRightSiblings => .ok (leftSiblings, numVisitedRightSiblings)
  | bit :: bits, leftSiblings, numVisitedRightSiblings =>
    if bit then
      match leftSiblings.getLast? with
      | none => .error (.panic "This sibling must exist.")
      | some last =>
        if last = placeholder then trimSiblingsLoop numRightSiblings bits leftSiblings.dropLast numVisitedRightSiblings
        else .ok (leftSiblings, numVisitedRightSiblings)
    else if numVisitedRightSiblings > numRightSiblings then
      trimSiblingsLoop numRightSiblings bits leftSiblings (numVisitedRightSiblings - 1)
    else .ok (leftSiblings, numVisitedRightSiblings)

/-- `verify`: the left siblings of the path to the last key, from the partial
nodes, and the range proof with them against the expected root hash. -/
def verify (s : JellyfishMerkleRestore V) (proof : SparseMerkleRangeProof) : Except Failure Unit := do
  match s.previousLeaf with
  | none => .error (.panic "The previous leaf must exist.")
  | some previousLeaf =>
    let previousKey := previousLeaf.accountKey
    let (leftSiblings, numVisitedRightSiblings) ←
      leftSiblingsLoop leafHash node placeholder s.partialNodes previousKey 0 previousKey.iterBits [] 0
    if numVisitedRightSiblings < proof.rightSiblings.length then
      .error (.error (.message "Too many right siblings in the proof."))
    else do
      let (leftSiblings, _) ← trimSiblingsLoop placeholder proof.rightSiblings.length
        previousKey.iterBits.reverse leftSiblings numVisitedRightSiblings
      match SparseMerkleRangeProof.verify leafHash node proof s.expectedRootHash
          ⟨previousKey, previousLeaf.valueHash⟩ leftSiblings.reverse with
      | .ok () => .ok ()
      | .error message => .error (.error (.message message))

/-- The `ensure!(key > prev_leaf.account_key())` of `add_chunk` fails. -/
def outOfOrder (previousLeaf : Option (LeafNode V)) (key : HashValue) : Bool :=
  match previousLeaf with
  | some prevLeaf => key.val ≤ prevLeaf.accountKey.val
  | none => false

/-- The loop of `add_chunk` over the chunk: check the order, add the key,
remember it as the previous leaf. -/
def addChunkLoop : List (HashValue × V) → RestoreM V Unit
  | [] => pure ()
  | (key, value) :: rest => do
    let s ← get
    if outOfOrder s.previousLeaf key then throw (.error (.message "Account keys must come in increasing order."))
    else do
      addOne valueHash leafHash node placeholder key value
      modify fun s => { s with previousLeaf := some (LeafNode.new valueHash key value),
                               numKeysReceived := (s.numKeysReceived + 1) % 2 ^ 64 }
      addChunkLoop rest

variable (writeNodeBatch : NodeBatch V → NodeBatch V → Except String (NodeBatch V))

/-- `add_chunk`, on the restore and the contents of its store. -/
def addChunk (chunk : List (HashValue × V)) (proof : SparseMerkleRangeProof) :
    EStateM Failure (JellyfishMerkleRestore V × NodeBatch V) Unit := do
  if chunk.isEmpty then throw (.error (.message "Should not add empty chunks."))
  else do
    zoom Prod.fst (fun s r => (r, s.2)) (addChunkLoop valueHash leafHash node placeholder chunk)
    let (s, store) ← get
    match verify leafHash node placeholder s proof with
    | .error e => throw e
    | .ok () =>
      match writeNodeBatch store s.frozenNodes with
      | .error message => throw (.error (.message message))
      | .ok store => set ({ s with frozenNodes := ∅ }, store)

end Restore

section Store

variable {V : Type} (valueHash : V → HashValue) (leafHash node : HashValue → HashValue → HashValue)
  (placeholder : HashValue) (writeNodeBatch : NodeBatch V → NodeBatch V → Except String (NodeBatch V))

/-- A call of `add_chunk` that fails, with an error or a panic, writes nothing. -/
theorem addChunk_error_keeps_store (chunk : List (HashValue × V)) (proof : SparseMerkleRangeProof)
    (s : JellyfishMerkleRestore V) (store : NodeBatch V) :
    wp (addChunk valueHash leafHash node placeholder writeNodeBatch chunk proof) (fun _ _ => True)
      (fun _ after => after.2 = store) (s, store) := by
  unfold addChunk
  rw [wp_ite]
  split_ifs
  · rfl
  · rw [wp_bind, wp_zoom]
    refine wp_mono (wp_true _ _) (fun _ t _ => ?_) (fun _ _ _ => rfl)
    simp only [wp_bind, wp_get]
    split
    · rfl
    · split
      · rfl
      · trivial

end Store

section Counterexample

/-- A concrete restore: one account, key `1` with value `2`, under
the hashes of `Diem.Types.SparseMerkleProof`'s examples. -/
def exampleRestore : JellyfishMerkleRestore ℕ :=
  .newOverwrite 0 (exampleLeafNodeHash ⟨1⟩ ⟨2⟩) true

/-- A store that keeps every batch written to it. -/
def exampleWriteNodeBatch (store batch : NodeBatch ℕ) : Except String (NodeBatch ℕ) := .ok (batch ∪ store)

/-- `add_chunk` over the example hashes, the value hash `v ↦ v` and the example store. -/
def exampleAddChunk (chunk : List (HashValue × ℕ)) (proof : SparseMerkleRangeProof) :
    EStateM Failure (JellyfishMerkleRestore ℕ × NodeBatch ℕ) Unit :=
  addChunk (fun v => ⟨v⟩) exampleLeafNodeHash exampleInternalNodeHash HashValue.zero exampleWriteNodeBatch chunk proof

set_option maxRecDepth 8000 in
theorem addChunk_outOfOrder_not_atomic :
    ∃ s, (exampleAddChunk [(⟨2 ^ 255⟩, 1), (⟨1⟩, 2)] ⟨[]⟩).run (exampleRestore, ∅) =
        .error (.error (.message "Account keys must come in increasing order.")) s ∧
      s.1.numKeysReceived = 1 ∧
      (∃ s', (exampleAddChunk [(⟨1⟩, 2)] ⟨[]⟩).run s =
        .error (.error (.message "Account keys must come in increasing order.")) s') ∧
      ∃ s', (exampleAddChunk [(⟨1⟩, 2)] ⟨[]⟩).run (exampleRestore, ∅) = .ok () s' := by
  refine ⟨_, rfl, rfl, ⟨_, rfl⟩, _, rfl⟩

end Counterexample

end Diem.JellyfishMerkle
