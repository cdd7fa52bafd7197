import Mathlib
import Diem.Theory.Hoare
import Diem.Storage.JellyfishMerkle.NodeKey

/-!
# The tree cache

`TreeCache` of `storage/jellyfish-merkle/src/tree_cache/mod.rs`: the nodes a
batch of writes to the Jellyfish Merkle tree creates, kept in memory over the
nodes of the store. The nodes created at the version being written are in
`node_cache`; `freeze` closes the version and moves them, with the keys of the
nodes the version made stale, into the frozen cache, which becomes the
`TreeUpdateBatch` the caller writes to the store.

A `TreeReader` is its `get_node_option`. The maps of nodes are `AList`s and the
sets of keys `Finset`s; the counters are `usize`s that wrap. A method on
`&mut self` is a computation in `EStateM Failure`, as in
`Diem.JellyfishMerkle.Restore`.

`view` is what `get_node` reads: `node_cache`, then the frozen nodes, then the
store. `putNode_spec` and `deleteNode_spec` say when the two writes fail and
which cache they leave otherwise (`withNewNode`, `withoutNewNode`,
`withStaleNode`).
-/

namespace Diem.JellyfishMerkle.Tree

open EStateM

/-- `PRE_GENESIS_VERSION`: `u64::max_value()`. -/
def PRE_GENESIS_VERSION : UInt64 := 18446744073709551615

/-- A `TreeReader`, by its `get_node_option`: the node the store holds under a key. -/
abbrev TreeReader (V : Type) := NodeType.NodeKey → Option (Node V)

/-- `TreeReader::get_node`: a missing node is an error. -/
def TreeReader.getNode {V : Type} (reader : TreeReader V) (nodeKey : NodeType.NodeKey) :
    Except Failure (Node V) :=
  match reader nodeKey with
  | some node => .ok node
  | none => .error (.error (.message "Missing node at"))

/-- `NodeBatch`: `BTreeMap<NodeKey, Node<V>>`. -/
abbrev NodeBatch (V : Type) := AList fun _ : NodeType.NodeKey => Node V

/-- `NodeStats`. -/
structure NodeStats where
  /-- `new_nodes`. -/
  newNodes : ℕ
  /-- `new_leaves`. -/
  newLeaves : ℕ
  /-- `stale_nodes`. -/
  staleNodes : ℕ
  /-- `stale_leaves`. -/
  staleLeaves : ℕ
  deriving DecidableEq, Repr

/-- `StaleNodeIndex`. -/
structure StaleNodeIndex where
  /-- `stale_since_version`. -/
  staleSinceVersion : UInt64
  /-- `node_key`. -/
  nodeKey : NodeType.NodeKey
  deriving DecidableEq

/-- `TreeUpdateBatch`. -/
structure TreeUpdateBatch (V : Type) where
  /-- `node_batch`. -/
  nodeBatch : NodeBatch V
  /-- `stale_node_index_batch`. -/
  staleNodeIndexBatch : Finset StaleNodeIndex
  /-- `node_stats`. -/
  nodeStats : List NodeStats

/-- `FrozenTreeCache`. -/
structure FrozenTreeCache (V : Type) where
  /-- `node_cache`. -/
  nodeCache : NodeBatch V
  /-- `stale_node_index_cache`. -/
  staleNodeIndexCache : Finset StaleNodeIndex
  /-- `node_stats`. -/
  nodeStats : List NodeStats
  /-- `root_hashes`. -/
  rootHashes : List HashValue

/-- `FrozenTreeCache::new`. -/
def FrozenTreeCache.new {V : Type} : FrozenTreeCache V := ⟨∅, ∅, [], []⟩

/-- `TreeCache`, all of it but the reader. -/
structure TreeCache (V : Type) where
  /-- `root_node_key`. -/
  rootNodeKey : NodeType.NodeKey
  /-- `next_version`. -/
  nextVersion : UInt64
  /-- `node_cache`. -/
  nodeCache : NodeBatch V
  /-- `num_new_leaves`. -/
  numNewLeaves : ℕ
  /-- `stale_node_index_cache`. -/
  staleNodeIndexCache : Finset NodeType.NodeKey
  /-- `num_stale_leaves`. -/
  numStaleLeaves : ℕ
  /-- `frozen_cache`. -/
  frozenCache : FrozenTreeCache V

/-- A method of the cache. -/
abbrev TreeCacheM (V α : Type) := EStateM Failure (TreeCache V) α

section Cache

variable {V : Type} (reader : TreeReader V)

/-- `TreeCache::new`: the root of the version before `next_version`; before
genesis, the pre-genesis root if the store has one, and otherwise a `Null`
root of version `0`, in `node_cache`. -/
def TreeCache.new (nextVersion : UInt64) : TreeCache V :=
  if nextVersion = 0 then
    match reader (NodeType.NodeKey.newEmptyPath PRE_GENESIS_VERSION) with
    | some _ => ⟨NodeType.NodeKey.newEmptyPath PRE_GENESIS_VERSION, nextVersion, ∅, 0, ∅, 0, FrozenTreeCache.new⟩
    | none =>
      ⟨NodeType.NodeKey.newEmptyPath 0, nextVersion, (∅ : NodeBatch V).insert (NodeType.NodeKey.newEmptyPath 0) .Null,
        0, ∅, 0, FrozenTreeCache.new⟩
  else ⟨NodeType.NodeKey.newEmptyPath (nextVersion - 1), nextVersion, ∅, 0, ∅, 0, FrozenTreeCache.new⟩

/-- The node `get_node` finds: in `node_cache`, in the frozen cache, or in the store. -/
def TreeCache.view (tc : TreeCache V) (nodeKey : NodeType.NodeKey) : Option (Node V) :=
  (tc.nodeCache.lookup nodeKey).or ((tc.frozenCache.nodeCache.lookup nodeKey).or (reader nodeKey))

/-- `TreeCache::get_node`. -/
def TreeCache.getNode (nodeKey : NodeType.NodeKey) : TreeCacheM V (Node V) := do
  let tc ← get
  match tc.nodeCache.lookup nodeKey with
  | some node => pure node
  | none =>
    match tc.frozenCache.nodeCache.lookup nodeKey with
    | some node => pure node
    | none => liftExcept (reader.getNode nodeKey)

/-- `TreeCache::get_root_node_key`. -/
def TreeCache.getRootNodeKey : TreeCacheM V NodeType.NodeKey := do
  return (← get).rootNodeKey

/-- `TreeCache::set_root_node_key`. -/
def TreeCache.setRootNodeKey (rootNodeKey : NodeType.NodeKey) : TreeCacheM V Unit :=
  modify fun tc => { tc with rootNodeKey := rootNodeKey }

/-- `TreeCache::put_node`: a key already in `node_cache` is an error. -/
def TreeCache.putNode (nodeKey : NodeType.NodeKey) (newNode : Node V) : TreeCacheM V Unit := do
  let tc ← get
  match tc.nodeCache.lookup nodeKey with
  | none =>
    set { tc with
      nodeCache := tc.nodeCache.insert nodeKey newNode
      numNewLeaves := if newNode.isLeaf then (tc.numNewLeaves + 1) % 2 ^ 64 else tc.numNewLeaves }
  | some _ => throw (.error (.message "Node with key already exists in NodeBatch"))

/-- `TreeCache::delete_node`: a node of `node_cache` leaves it; any other key
becomes stale, and `assert!(is_new_entry)` panics on a key already stale. -/
def TreeCache.deleteNode (oldNodeKey : NodeType.NodeKey) (isLeaf : Bool) : TreeCacheM V Unit := do
  let tc ← get
  match tc.nodeCache.lookup oldNodeKey with
  | none =>
    let isNewEntry := decide (oldNodeKey ∉ tc.staleNodeIndexCache)
    set { tc with staleNodeIndexCache := insert oldNodeKey tc.staleNodeIndexCache }
    if !isNewEntry then throw (.panic "Node gets stale twice unexpectedly.")
    if isLeaf then modify fun tc => { tc with numStaleLeaves := (tc.numStaleLeaves + 1) % 2 ^ 64 }
  | some _ =>
    set { tc with
      nodeCache := tc.nodeCache.erase oldNodeKey
      numNewLeaves := if isLeaf then (tc.numNewLeaves + 2 ^ 64 - 1) % 2 ^ 64 else tc.numNewLeaves }

end Cache

section Freeze

variable {V : Type} (reader : TreeReader V) (leafHash node : HashValue → HashValue → HashValue)
  (placeholder : HashValue)

/-- `TreeCache::freeze`: the root hash and the counts of the version, its
nodes into the frozen cache, and its stale keys with `stale_since_version`. -/
def TreeCache.freeze : TreeCacheM V Unit := do
  let rootNodeKey ← TreeCache.getRootNodeKey
  let rootNode ← tryCatch (TreeCache.getNode reader rootNodeKey) fun _ =>
    throw (.panic "internal error: entered unreachable code: Root node with key must exist")
  let rootHash ← liftExcept (rootNode.hash leafHash node placeholder)
  modify fun tc => { tc with
    frozenCache := {
      rootHashes := tc.frozenCache.rootHashes ++ [rootHash]
      nodeStats := tc.frozenCache.nodeStats ++
        [⟨tc.nodeCache.entries.length, tc.numNewLeaves, tc.staleNodeIndexCache.card, tc.numStaleLeaves⟩]
      nodeCache := tc.nodeCache ∪ tc.frozenCache.nodeCache
      staleNodeIndexCache := tc.frozenCache.staleNodeIndexCache ∪
        tc.staleNodeIndexCache.image fun nodeKey => ⟨tc.nextVersion, nodeKey⟩ }
    nodeCache := ∅
    staleNodeIndexCache := ∅
    numStaleLeaves := 0
    numNewLeaves := 0
    nextVersion := tc.nextVersion + 1 }

/-- `From<TreeCache> for (Vec<HashValue>, TreeUpdateBatch<V>)`. -/
def TreeCache.into (tc : TreeCache V) : List HashValue × TreeUpdateBatch V :=
  (tc.frozenCache.rootHashes, ⟨tc.frozenCache.nodeCache, tc.frozenCache.staleNodeIndexCache, tc.frozenCache.nodeStats⟩)

end Freeze

/-! ## What the writes do -/

section Effects

variable {V : Type} (reader : TreeReader V) (tc : TreeCache V)

/-- The cache once `put_node` has stored `newNode` under a key `node_cache` lacked. -/
def TreeCache.withNewNode (nodeKey : NodeType.NodeKey) (newNode : Node V) : TreeCache V :=
  { tc with
    nodeCache := tc.nodeCache.insert nodeKey newNode
    numNewLeaves := if newNode.isLeaf then (tc.numNewLeaves + 1) % 2 ^ 64 else tc.numNewLeaves }

/-- The cache once `delete_node` has dropped a node of `node_cache`. -/
def TreeCache.withoutNewNode (oldNodeKey : NodeType.NodeKey) (isLeaf : Bool) : TreeCache V :=
  { tc with
    nodeCache := tc.nodeCache.erase oldNodeKey
    numNewLeaves := if isLeaf then (tc.numNewLeaves + 2 ^ 64 - 1) % 2 ^ 64 else tc.numNewLeaves }

/-- The cache once `delete_node` has marked a node of the store or of the
frozen cache stale. -/
def TreeCache.withStaleNode (oldNodeKey : NodeType.NodeKey) (isLeaf : Bool) : TreeCache V :=
  { tc with
    staleNodeIndexCache := insert oldNodeKey tc.staleNodeIndexCache
    numStaleLeaves := if isLeaf then (tc.numStaleLeaves + 1) % 2 ^ 64 else tc.numStaleLeaves }

variable (nodeKey : NodeType.NodeKey) (newNode : Node V) (isLeaf : Bool)

@[simp] theorem withNewNode_nodeCache : (tc.withNewNode nodeKey newNode).nodeCache = tc.nodeCache.insert nodeKey newNode :=
  rfl

@[simp] theorem withNewNode_staleNodeIndexCache :
    (tc.withNewNode nodeKey newNode).staleNodeIndexCache = tc.staleNodeIndexCache := rfl

@[simp] theorem withNewNode_frozenCache : (tc.withNewNode nodeKey newNode).frozenCache = tc.frozenCache := rfl

@[simp] theorem withNewNode_rootNodeKey : (tc.withNewNode nodeKey newNode).rootNodeKey = tc.rootNodeKey := rfl

@[simp] theorem withNewNode_nextVersion : (tc.withNewNode nodeKey newNode).nextVersion = tc.nextVersion := rfl

@[simp] theorem withoutNewNode_nodeCache : (tc.withoutNewNode nodeKey isLeaf).nodeCache = tc.nodeCache.erase nodeKey :=
  rfl

@[simp] theorem withoutNewNode_staleNodeIndexCache :
    (tc.withoutNewNode nodeKey isLeaf).staleNodeIndexCache = tc.staleNodeIndexCache := rfl

@[simp] theorem withoutNewNode_frozenCache : (tc.withoutNewNode nodeKey isLeaf).frozenCache = tc.frozenCache := rfl

@[simp] theorem withoutNewNode_rootNodeKey : (tc.withoutNewNode nodeKey isLeaf).rootNodeKey = tc.rootNodeKey := rfl

@[simp] theorem withoutNewNode_nextVersion : (tc.withoutNewNode nodeKey isLeaf).nextVersion = tc.nextVersion := rfl

@[simp] theorem withStaleNode_nodeCache : (tc.withStaleNode nodeKey isLeaf).nodeCache = tc.nodeCache := rfl

@[simp] theorem withStaleNode_staleNodeIndexCache :
    (tc.withStaleNode nodeKey isLeaf).staleNodeIndexCache = insert nodeKey tc.staleNodeIndexCache := rfl

@[simp] theorem withStaleNode_frozenCache : (tc.withStaleNode nodeKey isLeaf).frozenCache = tc.frozenCache := rfl

@[simp] theorem withStaleNode_rootNodeKey : (tc.withStaleNode nodeKey isLeaf).rootNodeKey = tc.rootNodeKey := rfl

@[simp] theorem withStaleNode_nextVersion : (tc.withStaleNode nodeKey isLeaf).nextVersion = tc.nextVersion := rfl

/-- A new node is read first. -/
theorem view_withNewNode (k : NodeType.NodeKey) :
    (tc.withNewNode nodeKey newNode).view reader k = if k = nodeKey then some newNode else tc.view reader k := by
  unfold TreeCache.view
  split_ifs with hk
  · rw [withNewNode_nodeCache, hk, AList.lookup_insert]
    rfl
  · rw [withNewNode_nodeCache, AList.lookup_insert_ne hk, withNewNode_frozenCache]

/-- A dropped node is read from the frozen cache or the store again. -/
theorem view_withoutNewNode (k : NodeType.NodeKey) :
    (tc.withoutNewNode nodeKey isLeaf).view reader k =
      if k = nodeKey then (tc.frozenCache.nodeCache.lookup k).or (reader k) else tc.view reader k := by
  unfold TreeCache.view
  split_ifs with hk
  · rw [withoutNewNode_nodeCache, hk, AList.lookup_erase, Option.none_or, withoutNewNode_frozenCache]
  · rw [withoutNewNode_nodeCache, AList.lookup_erase_ne hk, withoutNewNode_frozenCache]

/-- Marking a node stale changes no node. -/
@[simp] theorem view_withStaleNode : (tc.withStaleNode nodeKey isLeaf).view reader = tc.view reader := rfl

end Effects

section Specs

variable {V : Type} (reader : TreeReader V) {tc : TreeCache V} {Q : Unit → TreeCache V → Prop}
  {R : Failure → TreeCache V → Prop}

theorem getNode_spec {Q : Node V → TreeCache V → Prop} (nodeKey : NodeType.NodeKey) :
    wp (TreeCache.getNode reader nodeKey) Q R tc ↔
      match tc.view reader nodeKey with
      | some node => Q node tc
      | none => R (.error (.message "Missing node at")) tc := by
  unfold TreeCache.getNode TreeCache.view
  simp only [wp_bind, wp_get]
  cases h₁ : tc.nodeCache.lookup nodeKey with
  | some node => rfl
  | none =>
    cases h₂ : tc.frozenCache.nodeCache.lookup nodeKey with
    | some node => rfl
    | none =>
      simp only [wp_liftExcept, TreeReader.getNode, Option.none_or]
      cases reader nodeKey <;> rfl

theorem putNode_spec (nodeKey : NodeType.NodeKey) (newNode : Node V) :
    wp (TreeCache.putNode nodeKey newNode) Q R tc ↔
      if tc.nodeCache.lookup nodeKey = none then Q () (tc.withNewNode nodeKey newNode)
      else R (.error (.message "Node with key already exists in NodeBatch")) tc := by
  unfold TreeCache.putNode
  simp only [wp_bind, wp_get]
  cases tc.nodeCache.lookup nodeKey with
  | none => simp only [wp_set, ↓reduceIte]; rfl
  | some _ => simp only [wp_throw, reduceCtorEq, ↓reduceIte]

theorem deleteNode_spec (oldNodeKey : NodeType.NodeKey) (isLeaf : Bool) :
    wp (TreeCache.deleteNode oldNodeKey isLeaf) Q R tc ↔
      if tc.nodeCache.lookup oldNodeKey = none then
        if oldNodeKey ∈ tc.staleNodeIndexCache then
          R (.panic "Node gets stale twice unexpectedly.")
            { tc with staleNodeIndexCache := insert oldNodeKey tc.staleNodeIndexCache }
        else Q () (tc.withStaleNode oldNodeKey isLeaf)
      else Q () (tc.withoutNewNode oldNodeKey isLeaf) := by
  unfold TreeCache.deleteNode
  simp only [wp_bind, wp_get]
  cases tc.nodeCache.lookup oldNodeKey with
  | some _ => simp only [wp_set, reduceCtorEq, ↓reduceIte]; rfl
  | none =>
    simp only [wp_set, ↓reduceIte, wp_ite, wp_bind]
    by_cases hstale : oldNodeKey ∈ tc.staleNodeIndexCache
    · simp only [hstale, not_true_eq_false, decide_false, Bool.not_false, ↓reduceIte, wp_throw]
    · cases isLeaf <;>
        simp only [hstale, not_false_eq_true, decide_true, Bool.not_true, Bool.false_eq_true, ↓reduceIte, wp_pure,
          wp_modify] <;> rfl

end Specs

end Diem.JellyfishMerkle.Tree
