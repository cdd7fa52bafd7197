import Mathlib
import Diem.Storage.JellyfishMerkle.Tree.Stored

/-!
# Insertion refines the trie

`insert_at` on a subtree that holds a trie `t` leaves a subtree that holds
`RadixTrie.insert key value t`, and never fails.
-/

namespace Diem.JellyfishMerkle.Tree

open EStateM NibblePath

/-! ## The path of a key -/

/-- Nibble `i` of a number is the high or the low half of byte `i / 2`. -/
theorem nibble_eq_byteNibble (n : ℕ) {i : ℕ} (hi : i < 64) :
    n / 16 ^ (63 - i) % 16 =
      if i % 2 = 1 then n / 256 ^ (31 - i / 2) % 256 % 16 else n / 256 ^ (31 - i / 2) % 256 / 16 := by
  have hbyte : (256 : ℕ) ^ (31 - i / 2) = 16 ^ (62 - 2 * (i / 2)) := by
    rw [show (256 : ℕ) = 16 ^ 2 by norm_num, ← pow_mul]
    congr 1
    omega
  rw [hbyte]
  split_ifs with hodd
  · rw [show 63 - i = 62 - 2 * (i / 2) by omega, Nat.mod_mod_of_dvd _ (by norm_num)]
  · -- the high half: one more nibble shifted out
    rw [show 63 - i = 62 - 2 * (i / 2) + 1 by omega, pow_succ, ← Nat.div_div_eq_div_mul,
      show (256 : ℕ) = 16 * 16 by norm_num, Nat.mod_mul_right_div_self]

/-- The path of a key reads the nibbles of the key. -/
theorem reads_nibblePath (key : HashValue) : (HashValue.nibblePath key).toRaw.Reads (HashValue.nibbles key) := by
  intro i
  simp only [HashValue.nibbles, List.getElem?_map]
  by_cases hi : i < 64
  · have hlen : (HashValue.nibblePath key).toRaw.numNibbles = 64 := by
      simp [HashValue.nibblePath, NibblePath.toRaw, HashValue.toVec, HashValue.LENGTH]
    rw [Raw.getNibble_of_lt (by omega), List.getElem?_range (by exact hi)]
    have hbyte := Bytes.getElem?_toBe (w := HashValue.LENGTH) (n := key.val) (j := i / 2)
      (by simp [HashValue.LENGTH]; omega)
    obtain ⟨b, hb, hbv⟩ := Option.map_eq_some_iff.1 hbyte
    change (HashValue.toVec key)[i / 2]?.map _ = _
    rw [HashValue.toVec, hb, Option.map_some, Option.map_some, Option.some_inj]
    ext
    simp only [val_byteNibble, hbv, HashValue.nibble, HashValue.LENGTH]
    rw [nibble_eq_byteNibble key.val hi]
  · rw [Raw.getNibble_of_le (by simp [HashValue.nibblePath, NibblePath.toRaw, HashValue.toVec, HashValue.LENGTH]; omega),
      List.getElem?_eq_none (by simp [Diem.JellyfishMerkle.ROOT_NIBBLE_HEIGHT]; omega), Option.map_none]

/-- The keys of 32 bytes are determined by their 64 nibbles. -/
theorem digitsDetermine_nibble :
    RadixTrie.DigitsDetermine HashValue.nibble 64 (fun key : HashValue => key.val < 2 ^ 256) := by
  intro k k' hk hk' h
  have hnibbles : HashValue.nibbles k = HashValue.nibbles k' :=
    List.map_congr_left fun j hj => h j (by simpa [Diem.JellyfishMerkle.ROOT_NIBBLE_HEIGHT] using hj)
  -- the two paths read the same nibbles, so they hold the same bytes
  have hraw := (reads_nibblePath k).eq (wellFormed_toRaw _) (wellFormed_toRaw _) (hnibbles ▸ reads_nibblePath k')
  have hbytes : HashValue.toVec k = HashValue.toVec k' := congrArg Raw.bytes hraw
  have hslice := fromSlice_toVec hk
  rw [hbytes, fromSlice_toVec hk', Except.ok.injEq] at hslice
  exact hslice.symm

/-- The iterator over the path of `key` at nibble `d`: what `insert_at` is
given at depth `d`. -/
def keyIter (key : HashValue) (d : ℕ) : NibbleIterator := ⟨(HashValue.nibblePath key).toRaw, d, 64, 0⟩

theorem nibbles_eq_keyIter (key : HashValue) : (HashValue.nibblePath key).toRaw.nibbles = keyIter key 0 := by
  simp [Raw.nibbles, NibbleIterator.new, keyIter, HashValue.nibblePath, NibblePath.toRaw, HashValue.toVec,
    HashValue.LENGTH]

theorem length_nibbles (key : HashValue) : (HashValue.nibbles key).length = 64 := by
  simp [HashValue.nibbles, Diem.JellyfishMerkle.ROOT_NIBBLE_HEIGHT]

theorem getElem?_nibbles (key : HashValue) {d : ℕ} (hd : d < 64) : (HashValue.nibbles key)[d]? = some (HashValue.nibble key d) := by
  simp [HashValue.nibbles, hd, Diem.JellyfishMerkle.ROOT_NIBBLE_HEIGHT]

theorem next_keyIter (key : HashValue) {d : ℕ} (hd : d < 64) :
    (keyIter key d).next = some (some (HashValue.nibble key d), keyIter key (d + 1)) := by
  rw [NibbleIterator.next_of_reads (reads_nibblePath key) (by rw [length_nibbles]; rfl)]
  simp only [keyIter, hd, ↓reduceIte, getElem?_nibbles key hd]
  rfl

theorem getNibblePath_keyIter (key : HashValue) {d : ℕ} (hd : d ≤ 64) :
    (keyIter key d).getNibblePath = some (HashValue.nibblePath key).toRaw :=
  NibbleIterator.getNibblePath_of_whole (wellFormed_toRaw _) rfl hd
    (by simp [keyIter, HashValue.nibblePath, NibblePath.toRaw, HashValue.toVec, HashValue.LENGTH])

/-- An iterator over the path of a key, up to its end, yields the key's
nibbles. -/
theorem next_of_key {k : HashValue} {it : NibbleIterator} (hpath : it.nibblePath = (HashValue.nibblePath k).toRaw)
    (hend : it.posEnd = 64) (hlt : it.posStart < 64) :
    it.next = some (some (HashValue.nibble k it.posStart), it.advance) := by
  rw [NibbleIterator.next_of_reads (hpath ▸ reads_nibblePath k) (by rw [length_nibbles, hend]), hend, if_pos hlt,
    getElem?_nibbles k hlt]

theorem isFinished_of_key {k : HashValue} {it : NibbleIterator} (hpath : it.nibblePath = (HashValue.nibblePath k).toRaw)
    (hend : it.posEnd = 64) : it.isFinished = some (decide (64 ≤ it.posStart)) := by
  rw [NibbleIterator.isFinished_of_reads (hpath ▸ reads_nibblePath k) (by rw [length_nibbles, hend]), hend]

theorem isFinished_keyIter (key : HashValue) (m : ℕ) : (keyIter key m).isFinished = some (decide (64 ≤ m)) :=
  isFinished_of_key rfl rfl

/-- The iterator over the rest of a leaf's key, from nibble `m`, started at `d`. -/
theorem isFinished_leafIter (k : HashValue) (m d : ℕ) :
    (⟨(HashValue.nibblePath k).toRaw, m, 64, d⟩ : NibbleIterator).isFinished = some (decide (64 ≤ m)) :=
  isFinished_of_key rfl rfl

theorem next_leafIter (k : HashValue) {m : ℕ} (hm : m < 64) (d : ℕ) :
    (⟨(HashValue.nibblePath k).toRaw, m, 64, d⟩ : NibbleIterator).next =
      some (some (HashValue.nibble k m), ⟨(HashValue.nibblePath k).toRaw, m + 1, 64, d⟩) :=
  next_of_key rfl rfl hm

/-- The nibbles of the key visited by `keyIter key m` make up the path of its
first `m` nibbles. -/
theorem collect_visited (key : HashValue) {m : ℕ} (hm : m ≤ 64) :
    ∃ q, (keyIter key m).visitedNibbles.collect = some q ∧ q.nibbleList = (HashValue.nibbles key).take m := by
  obtain ⟨q, hq, hlist⟩ := NibbleIterator.collect_of_reads
    (show (keyIter key m).visitedNibbles.nibblePath.Reads _ from reads_nibblePath key) (Nat.zero_le _) (by simp [NibbleIterator.visitedNibbles, NibbleIterator.new, keyIter,
      length_nibbles, hm]) (by simp [NibbleIterator.visitedNibbles, NibbleIterator.new, keyIter, hm, Diem.ROOT_NIBBLE_HEIGHT])
  refine ⟨q, hq, ?_⟩
  rw [hlist]
  simp [NibbleIterator.visitedNibbles, NibbleIterator.new, keyIter]

/-- Step 1 of `insert_at_leaf_node`: the nibbles the key has visited down to
depth `d` are all shared with a leaf key that agrees with it above `d`. -/
theorem skipCommonPrefix_visited {key k' : HashValue} {d : ℕ} (hd : d ≤ 64)
    (hagree : ∀ j < d, HashValue.nibble k' j = HashValue.nibble key j) :
    skipCommonPrefix (keyIter key d).visitedNibbles (HashValue.nibblePath k').toRaw.nibbles =
      some (d, ⟨(HashValue.nibblePath key).toRaw, d, d, 0⟩, ⟨(HashValue.nibblePath k').toRaw, d, 64, 0⟩) := by
  rw [nibbles_eq_keyIter]
  obtain ⟨c, hc, hcx, -, -, hpart⟩ := skipCommonPrefix_spec (keyIter key d).visitedNibbles (keyIter k' 0)
    (reads_nibblePath key) (reads_nibblePath k')
    (by simp [NibbleIterator.visitedNibbles, NibbleIterator.new, keyIter, length_nibbles, hd])
    (by simp [keyIter, length_nibbles])
  simp only [NibbleIterator.visitedNibbles, NibbleIterator.new, keyIter, Nat.zero_add, Nat.sub_zero] at hc hcx hpart
  -- the two keys agree on all the visited nibbles, so the skip reaches `d`
  have hcd : c = d := by
    by_contra hne
    have hlt : c < d := by omega
    refine hpart hlt (by omega) ?_
    rw [getElem?_nibbles _ (by omega), getElem?_nibbles _ (by omega), hagree c hlt]
  subst hcd
  exact hc

/-- Step 2 of `insert_at_leaf_node`: from depth `d` on, the key and the leaf
key share `agreeLen` nibbles. -/
theorem skipCommonPrefix_below (key k' : HashValue) {d : ℕ} (hd : d ≤ 64) :
    skipCommonPrefix (keyIter key d) (NibbleIterator.new (HashValue.nibblePath k').toRaw d 64) =
      some (RadixTrie.agreeLen HashValue.nibble key k' d (64 - d),
        keyIter key (d + RadixTrie.agreeLen HashValue.nibble key k' d (64 - d)),
        ⟨(HashValue.nibblePath k').toRaw, d + RadixTrie.agreeLen HashValue.nibble key k' d (64 - d), 64, d⟩) := by
  obtain ⟨c, hc, hcx, -, hshared, hpart⟩ := skipCommonPrefix_spec (keyIter key d)
    (NibbleIterator.new (HashValue.nibblePath k').toRaw d 64) (reads_nibblePath key) (reads_nibblePath k')
    (by simp [keyIter, length_nibbles]) (by simp [NibbleIterator.new, length_nibbles])
  simp only [NibbleIterator.new, keyIter] at hc hcx hshared hpart
  have hagree : c = RadixTrie.agreeLen HashValue.nibble key k' d (64 - d) := by
    refine RadixTrie.eq_agreeLen HashValue.nibble hcx (fun j hj => ?_) (fun hlt h => hpart hlt hlt ?_)
    · have := hshared j hj
      rwa [getElem?_nibbles _ (by omega), getElem?_nibbles _ (by omega), Option.some_inj] at this
    · rw [getElem?_nibbles _ (by omega), getElem?_nibbles _ (by omega), h]
  rw [← hagree]
  exact hc

/-! ## The cache while a version is written -/

section Cache

variable {V : Type} (reader : TreeReader V) (version : UInt64)

/-- The cache while `version` is written: `node_cache` holds nodes of
`version` only, the frozen cache and the store hold none, and the stale keys
are of other versions. -/
structure Fresh (tc : TreeCache V) : Prop where
  nodeCache : ∀ k, (tc.nodeCache.lookup k).isSome → k.version = version
  frozen : ∀ k, k.version = version → tc.frozenCache.nodeCache.lookup k = none
  reader : ∀ k, k.version = version → reader k = none
  stale : ∀ k ∈ tc.staleNodeIndexCache, k.version ≠ version

/-- What `delete_node` of a node the cache sees leaves: the node leaves
`node_cache` if it is there, and is marked stale otherwise, where it is of an
earlier version. -/
structure Deleted (tc : TreeCache V) (nodeKey : NodeType.NodeKey) (tc' : TreeCache V) : Prop where
  view : ∀ k, tc'.view reader k = if k = nodeKey ∧ nodeKey.version = version then none else tc.view reader k
  nodeCache : ∀ k, tc'.nodeCache.lookup k = if k = nodeKey then none else tc.nodeCache.lookup k
  stale : ∀ k, k ∈ tc'.staleNodeIndexCache ↔ k ∈ tc.staleNodeIndexCache ∨ (k = nodeKey ∧ k.version ≠ version)
  frozenCache : tc'.frozenCache = tc.frozenCache
  rootNodeKey : tc'.rootNodeKey = tc.rootNodeKey
  nextVersion : tc'.nextVersion = tc.nextVersion

variable {reader version} {tc tc' : TreeCache V} {nodeKey : NodeType.NodeKey}

/-- Outside `node_cache`, no node of `version` is seen. -/
theorem Fresh.view_eq_none (hf : Fresh reader version tc) {k : NodeType.NodeKey} (hk : k.version = version)
    (hnc : tc.nodeCache.lookup k = none) : tc.view reader k = none := by
  rw [TreeCache.view, hnc, hf.frozen k hk, hf.reader k hk]
  rfl

/-- A node seen outside `node_cache` is of another version. -/
theorem Fresh.version_ne (hf : Fresh reader version tc) {k : NodeType.NodeKey} (hnode : (tc.view reader k).isSome)
    (hnc : tc.nodeCache.lookup k = none) : k.version ≠ version := fun hk => by
  rw [hf.view_eq_none hk hnc] at hnode
  cases hnode

/-- A new node of `version` keeps the cache fresh. -/
theorem Fresh.withNewNode (hf : Fresh reader version tc) (hk : nodeKey.version = version) (newNode : Node V) :
    Fresh reader version (tc.withNewNode nodeKey newNode) where
  nodeCache k h := by
    rw [withNewNode_nodeCache] at h
    by_cases hkn : k = nodeKey
    · rw [hkn, hk]
    · rw [AList.lookup_insert_ne hkn] at h
      exact hf.nodeCache k h
  frozen := hf.frozen
  reader := hf.reader
  stale := hf.stale

theorem Deleted.fresh (hd : Deleted reader version tc nodeKey tc') (hf : Fresh reader version tc) :
    Fresh reader version tc' where
  nodeCache k h := by
    rw [hd.nodeCache] at h
    split_ifs at h
    · cases h
    · exact hf.nodeCache k h
  frozen k hk := by
    rw [hd.frozenCache]
    exact hf.frozen k hk
  reader := hf.reader
  stale k h := by
    rcases (hd.stale k).1 h with h | ⟨-, hne⟩
    · exact hf.stale k h
    · exact hne

theorem Deleted.view_of_ne (hd : Deleted reader version tc nodeKey tc') {k : NodeType.NodeKey} (hk : k ≠ nodeKey) :
    tc'.view reader k = tc.view reader k := by
  rw [hd.view, if_neg fun h => hk h.1]

theorem Deleted.view_of_version_ne (hd : Deleted reader version tc nodeKey tc') {k : NodeType.NodeKey}
    (hk : k.version ≠ version) : tc'.view reader k = tc.view reader k := by
  rw [hd.view, if_neg]
  rintro ⟨rfl, h⟩
  exact hk h

theorem Deleted.nodeCache_of_ne (hd : Deleted reader version tc nodeKey tc') {k : NodeType.NodeKey} (hk : k ≠ nodeKey) :
    tc'.nodeCache.lookup k = tc.nodeCache.lookup k := by
  rw [hd.nodeCache, if_neg hk]

/-- **`delete_node` of a node the cache sees**, and that is not stale, does
not panic. -/
theorem wp_deleteNode {Q : Unit → TreeCache V → Prop} {R : Failure → TreeCache V → Prop} (hf : Fresh reader version tc)
    (hnode : (tc.view reader nodeKey).isSome) (hstale : nodeKey ∉ tc.staleNodeIndexCache) (isLeaf : Bool)
    (hQ : ∀ tc', Deleted reader version tc nodeKey tc' → Q () tc') : wp (TreeCache.deleteNode nodeKey isLeaf) Q R tc := by
  rw [deleteNode_spec]
  cases hnc : tc.nodeCache.lookup nodeKey with
  | none =>
    -- a node of the store or of the frozen cache becomes stale
    rw [if_pos rfl, if_neg hstale]
    have hne := hf.version_ne hnode hnc
    refine hQ _ ⟨fun k => ?_, fun k => ?_, fun k => ?_, rfl, rfl, rfl⟩
    · rw [view_withStaleNode, if_neg fun h => hne h.2]
    · rw [withStaleNode_nodeCache]
      split_ifs with hk
      · rw [hk, hnc]
      · rfl
    · rw [withStaleNode_staleNodeIndexCache, Finset.mem_insert]
      constructor
      · rintro (hk | h)
        · exact .inr ⟨hk, by rw [hk]; exact hne⟩
        · exact .inl h
      · rintro (h | ⟨rfl, -⟩)
        · exact .inr h
        · exact .inl rfl
  | some n =>
    -- a node of this version leaves `node_cache`, and is seen nowhere else
    rw [if_neg (by simp)]
    have hver := hf.nodeCache nodeKey (by rw [hnc]; rfl)
    refine hQ _ ⟨fun k => ?_, fun k => ?_, fun k => ?_, rfl, rfl, rfl⟩
    · rw [view_withoutNewNode]
      by_cases hk : k = nodeKey
      · rw [if_pos hk, if_pos ⟨hk, hver⟩, hk, hf.frozen _ hver, hf.reader _ hver]
        rfl
      · rw [if_neg hk, if_neg fun h => hk h.1]
    · rw [withoutNewNode_nodeCache]
      split_ifs with hk
      · rw [hk, AList.lookup_erase]
      · rw [AList.lookup_erase_ne hk]
    · rw [withoutNewNode_staleNodeIndexCache]
      refine ⟨.inl, fun h => ?_⟩
      rcases h with h | ⟨rfl, hne⟩
      · exact h
      · exact absurd hver hne

/-- `put_node` at a free key. -/
theorem wp_putNode {Q : Unit → TreeCache V → Prop} {R : Failure → TreeCache V → Prop}
    (hfree : tc.nodeCache.lookup nodeKey = none) (newNode : Node V) (hQ : Q () (tc.withNewNode nodeKey newNode)) :
    wp (TreeCache.putNode nodeKey newNode) Q R tc := by
  rw [putNode_spec, if_pos hfree]
  exact hQ

end Cache

/-! ## Subtrees the cache keeps track of -/

section Subtrees

variable {V : Type} (reader : TreeReader V) (valueHash : V → HashValue)
  (leafHash node : HashValue → HashValue → HashValue) (placeholder : HashValue) (version : UInt64)

/-- The subtree under `nodeKey` holds `t` in the cache, and the cache keeps
track of it: every node of `node_cache` in its region is one of its nodes, and
none of its nodes is stale. -/
structure Holds (tc : TreeCache V) (t : Trie V) (nodeKey : NodeType.NodeKey) : Prop where
  stored : Stored valueHash leafHash node placeholder (tc.view reader) t nodeKey
  nodeCache : ∀ k, InRegion nodeKey k → (tc.nodeCache.lookup k).isSome → Reach (tc.view reader) t nodeKey k
  stale : ∀ k ∈ tc.staleNodeIndexCache, ¬ Reach (tc.view reader) t nodeKey k

/-- What an insertion into the subtree under `nodeKey`, which held `t`, leaves:
the cache `tc'` holds `t'` under the same path at `version`, where `result`
says; nothing changed outside the region; the new subtree has nodes of
`version` and nodes of the old one; and the nodes of earlier versions the old
subtree had and the new one lacks have become stale. -/
structure Inserted (tc : TreeCache V) (t : Trie V) (nodeKey : NodeType.NodeKey) (t' : Trie V)
    (result : NodeType.NodeKey × Node V) (tc' : TreeCache V) : Prop where
  key : result.1 = ⟨version, nodeKey.nibblePath⟩
  resultNode : tc'.view reader result.1 = some result.2
  holds : Holds reader valueHash leafHash node placeholder tc' t' result.1
  fresh : Fresh reader version tc'
  outside : ∀ k, ¬ InRegion nodeKey k →
    tc'.view reader k = tc.view reader k ∧ tc'.nodeCache.lookup k = tc.nodeCache.lookup k
  older : ∀ k, k.version ≠ version → tc'.view reader k = tc.view reader k
  reach : ∀ k, Reach (tc'.view reader) t' result.1 k → k.version = version ∨ Reach (tc.view reader) t nodeKey k
  stale : ∀ k, k ∈ tc'.staleNodeIndexCache ↔ k ∈ tc.staleNodeIndexCache ∨
    (t ≠ .empty ∧ k.version ≠ version ∧ Reach (tc.view reader) t nodeKey k ∧ ¬ Reach (tc'.view reader) t' result.1 k)
  frozenCache : tc'.frozenCache = tc.frozenCache
  rootNodeKey : tc'.rootNodeKey = tc.rootNodeKey
  nextVersion : tc'.nextVersion = tc.nextVersion

/-- The nodes a writer adds to `tc₀` to make `tc`: a subtree of nodes of
`version` that holds `t`, with `result.2` on top at `result.1`; off its nodes
the cache is `tc₀`. -/
structure Built (tc₀ tc : TreeCache V) (t : Trie V) (result : NodeType.NodeKey × Node V) : Prop where
  stored : Stored valueHash leafHash node placeholder (tc.view reader) t result.1
  resultNode : tc.view reader result.1 = some result.2
  version : ∀ k, Reach (tc.view reader) t result.1 k → k.version = version
  unchanged : ∀ k, ¬ Reach (tc.view reader) t result.1 k →
    tc.view reader k = tc₀.view reader k ∧ tc.nodeCache.lookup k = tc₀.nodeCache.lookup k
  staleNodeIndexCache : tc.staleNodeIndexCache = tc₀.staleNodeIndexCache
  frozenCache : tc.frozenCache = tc₀.frozenCache
  rootNodeKey : tc.rootNodeKey = tc₀.rootNodeKey
  nextVersion : tc.nextVersion = tc₀.nextVersion

variable {reader valueHash leafHash node placeholder version}

theorem inRegion_self_version (nodeKey : NodeType.NodeKey) (version : UInt64) :
    InRegion nodeKey ⟨version, nodeKey.nibblePath⟩ := InRegion.refl nodeKey

section Built

variable {tc₀ tc : TreeCache V} {t : Trie V} {result : NodeType.NodeKey × Node V}

theorem Built.fresh (hb : Built reader valueHash leafHash node placeholder version tc₀ tc t result)
    (hf : Fresh reader version tc₀) : Fresh reader version tc where
  nodeCache k h := by
    by_cases hr : Reach (tc.view reader) t result.1 k
    · exact hb.version k hr
    · rw [(hb.unchanged k hr).2] at h
      exact hf.nodeCache k h
  frozen k hk := by
    rw [hb.frozenCache]
    exact hf.frozen k hk
  reader := hf.reader
  stale k h := hf.stale k (hb.staleNodeIndexCache ▸ h)

theorem Built.nodeCache_eq_none (hb : Built reader valueHash leafHash node placeholder version tc₀ tc t result)
    {k : NodeType.NodeKey} (hr : ¬ Reach (tc.view reader) t result.1 k) (hfree : tc₀.nodeCache.lookup k = none) :
    tc.nodeCache.lookup k = none :=
  (hb.unchanged k hr).2.trans hfree

/-- A leaf put at a key of `version`. -/
theorem built_leaf {nodeKey : NodeType.NodeKey} (hk : nodeKey.version = version) (leaf : LeafNode V)
    (hvh : leaf.valueHash = valueHash leaf.value) :
    Built reader valueHash leafHash node placeholder version tc₀ (tc₀.withNewNode nodeKey (.Leaf leaf))
      (.leaf leaf.accountKey leaf.value) (nodeKey, .Leaf leaf) where
  stored := ⟨leaf, by rw [view_withNewNode, if_pos rfl], rfl, rfl, hvh⟩
  resultNode := by rw [view_withNewNode, if_pos rfl]
  version k hr := by
    change k = nodeKey at hr
    rw [hr, hk]
  unchanged k hr := by
    change ¬ k = nodeKey at hr
    rw [view_withNewNode, if_neg hr, withNewNode_nodeCache, AList.lookup_insert_ne hr]
    exact ⟨rfl, rfl⟩
  staleNodeIndexCache := rfl
  frozenCache := rfl
  rootNodeKey := rfl
  nextVersion := rfl

/-- The version of a child entry is read back as the version it was made at. -/
theorem toUInt64_toNat (version : UInt64) : version.toNat.toUInt64 = version := UInt64.ofNat_toNat

/-- **An internal node with one child put above a new subtree**, one nibble
up: what each round of the loop of `insert_at_leaf_node` adds. -/
theorem Built.single {childKey : NodeType.NodeKey} {nd : Node V}
    (hb : Built reader valueHash leafHash node placeholder version tc₀ tc t (childKey, nd)) (ht : t ≠ .empty)
    {nodeKey : NodeType.NodeKey} {a : Nibble} (hchild : nodeKey.genChildNodeKey version a = .ok childKey)
    (hk : nodeKey.version = version) {hash : HashValue} {nt : NodeType}
    (hhash : nd.hash leafHash node placeholder = .ok hash) (hnt : nd.nodeType = .ok nt) {n : InternalNode}
    (hn : n.children = (∅ : Children).insert a ⟨hash, version.toNat, nt⟩) :
    Built reader valueHash leafHash node placeholder version tc₀ (tc.withNewNode nodeKey (.Internal n))
      (RadixTrie.single a t) (nodeKey, .Internal n) := by
  have hview : ∀ k, k ≠ nodeKey → (tc.withNewNode nodeKey (.Internal n)).view reader k = tc.view reader k :=
    fun k hk => by rw [view_withNewNode, if_neg hk]
  have htop : (tc.withNewNode nodeKey (.Internal n)).view reader nodeKey = some (.Internal n) := by
    rw [view_withNewNode, if_pos rfl]
  have hchildOf := InternalNode.child_of_children_eq hn
  have hkey : nodeKey.genChildNodeKey (Child.mk hash version.toNat nt).version.toUInt64 a = .ok childKey := by
    rw [toUInt64_toNat]
    exact hchild
  obtain ⟨hnull, hleaf⟩ := Stored.node_of_ne_empty valueHash leafHash node placeholder hb.stored ht hb.resultNode
  obtain ⟨-, nt', hnt', hntLeaf⟩ := Node.hash_nodeType_of_ne_null leafHash node placeholder hnull
  rw [hnt, Except.ok.injEq] at hnt'
  subst hnt'
  have hsome : ∀ x child, n.child x = some child → x = a ∧ child = ⟨hash, version.toNat, nt⟩ := fun x child h => by
    rw [hchildOf] at h
    split_ifs at h with hx
    · exact ⟨hx, (Option.some_inj.1 h).symm⟩
    · rw [AList.lookup_empty] at h
      cases h
  have hreach : ∀ k, Reach ((tc.withNewNode nodeKey (.Internal n)).view reader) (RadixTrie.single a t) nodeKey k ↔
      k = nodeKey ∨ Reach (tc.view reader) t childKey k := fun k => by
    rw [RadixTrie.single, reach_update_branch hview htop]
    refine or_congr Iff.rfl ⟨?_, fun hr => ⟨a, _, childKey, by rw [hchildOf, if_pos rfl], hkey, by
      rw [Function.update_self]; exact hr⟩⟩
    rintro ⟨x, child, ck, hx, hck, hr⟩
    obtain ⟨rfl, rfl⟩ := hsome x child hx
    rw [hkey, Except.ok.injEq] at hck
    subst hck
    rwa [Function.update_self] at hr
  refine ⟨?_, htop, fun k hr => ?_, fun k hr => ?_, hb.staleNodeIndexCache, hb.frozenCache, hb.rootNodeKey,
    hb.nextVersion⟩
  · refine stored_update_branch hview htop (fun x hx => ?_) fun x child hx => ?_
    · have hxa : x ≠ a := fun h => by rw [hchildOf, if_pos h] at hx; cases hx
      exact Function.update_of_ne hxa _ _
    · obtain ⟨rfl, rfl⟩ := hsome x child hx
      rw [Function.update_self]
      exact ⟨ht, by rw [hntLeaf, hleaf], childKey, ⟨hkey, nd, hb.resultNode, hhash⟩, hb.stored⟩
  · rcases (hreach k).1 hr with rfl | hr
    · exact hk
    · exact hb.version k hr
  · have hne : k ≠ nodeKey := fun h => hr ((hreach k).2 (.inl h))
    have hrt : ¬ Reach (tc.view reader) t childKey k := fun h => hr ((hreach k).2 (.inr h))
    rw [hview k hne, withNewNode_nodeCache, AList.lookup_insert_ne hne]
    exact hb.unchanged k hrt

/-- **The node where two keys part**, put above the two leaves it names:
the leaf that was there, put again at `version`, and the new one. -/
theorem built_pair {nodeKey existingKey newKey : NodeType.NodeKey} {a' a : Nibble} (hne : a' ≠ a)
    (hk : nodeKey.version = version) (hexisting : nodeKey.genChildNodeKey version a' = .ok existingKey)
    (hnew : nodeKey.genChildNodeKey version a = .ok newKey) (existingLeaf newLeaf : LeafNode V)
    (hexistingHash : existingLeaf.valueHash = valueHash existingLeaf.value)
    (hnewHash : newLeaf.valueHash = valueHash newLeaf.value) {n : InternalNode}
    (hn : n.children = ((∅ : Children).insert a' ⟨existingLeaf.hash leafHash, version.toNat, .Leaf⟩).insert a
      ⟨newLeaf.hash leafHash, version.toNat, .Leaf⟩) :
    Built reader valueHash leafHash node placeholder version tc₀
      (((tc₀.withNewNode existingKey (.Leaf existingLeaf)).withNewNode newKey (.Leaf newLeaf)).withNewNode nodeKey
        (.Internal n))
      (RadixTrie.pair a' (.leaf existingLeaf.accountKey existingLeaf.value) a (.leaf newLeaf.accountKey newLeaf.value))
      (nodeKey, .Internal n) := by
  set tc₃ := (tc₀.withNewNode existingKey (.Leaf existingLeaf)).withNewNode newKey (.Leaf newLeaf)
  have hview : ∀ k, k ≠ nodeKey → (tc₃.withNewNode nodeKey (.Internal n)).view reader k = tc₃.view reader k :=
    fun k hk => by rw [view_withNewNode, if_neg hk]
  have htop : (tc₃.withNewNode nodeKey (.Internal n)).view reader nodeKey = some (.Internal n) := by
    rw [view_withNewNode, if_pos rfl]
  have hkeys : existingKey ≠ newKey := fun h =>
    InRegion.disjoint hexisting hnew hne (InRegion.refl _) (h ▸ InRegion.refl _)
  have hnewLeaf : tc₃.view reader newKey = some (.Leaf newLeaf) := by rw [view_withNewNode, if_pos rfl]
  have hexistingLeaf : tc₃.view reader existingKey = some (.Leaf existingLeaf) := by
    rw [view_withNewNode, if_neg hkeys, view_withNewNode, if_pos rfl]
  have hchildOf : ∀ x, n.child x = if x = a then some ⟨newLeaf.hash leafHash, version.toNat, .Leaf⟩
      else if x = a' then some ⟨existingLeaf.hash leafHash, version.toNat, .Leaf⟩ else none := fun x => by
    rw [InternalNode.child_of_children_eq hn]
    split_ifs with hxa hxa'
    · rfl
    · rw [hxa', AList.lookup_insert]
    · rw [AList.lookup_insert_ne hxa', AList.lookup_empty]
  have hversion : ∀ x child, n.child x = some child → child.version.toUInt64 = version := fun x child h => by
    rw [hchildOf] at h
    split_ifs at h <;> (cases h; exact toUInt64_toNat version)
  have hgenNew : nodeKey.genChildNodeKey (version.toNat).toUInt64 a = .ok newKey := by rw [toUInt64_toNat]; exact hnew
  have hgenExisting : nodeKey.genChildNodeKey (version.toNat).toUInt64 a' = .ok existingKey := by
    rw [toUInt64_toNat]; exact hexisting
  set c := Function.update (Function.update (fun _ => (.empty : Trie V)) a' (.leaf existingLeaf.accountKey
    existingLeaf.value)) a (.leaf newLeaf.accountKey newLeaf.value) with hcdef
  rw [show RadixTrie.pair a' (.leaf existingLeaf.accountKey existingLeaf.value) a
    (.leaf newLeaf.accountKey newLeaf.value) = .branch c from rfl]
  have hc : ∀ x, c x = if x = a then .leaf newLeaf.accountKey newLeaf.value
      else if x = a' then .leaf existingLeaf.accountKey existingLeaf.value else .empty := fun x => by
    simp only [hcdef, Function.update_apply]
  have hreach : ∀ k, Reach ((tc₃.withNewNode nodeKey (.Internal n)).view reader) (.branch c) nodeKey k ↔
      k = nodeKey ∨ ∃ x child childKey, n.child x = some child ∧
        nodeKey.genChildNodeKey child.version.toUInt64 x = .ok childKey ∧ k = childKey := fun k => by
    rw [reach_update_branch hview htop]
    refine or_congr Iff.rfl (exists_congr fun x => exists_congr fun child => exists_congr fun childKey =>
      and_congr_right fun _ => and_congr_right fun _ => reach_of_not_branch fun c' => ?_)
    rw [hc]
    split_ifs <;> intro h <;> cases h
  refine ⟨?_, htop, fun k hr => ?_, fun k hr => ?_, rfl, rfl, rfl, rfl⟩
  · refine stored_update_branch hview htop (fun x hx => ?_) fun x child hx => ?_
    · rw [hchildOf] at hx
      rw [hc]
      split_ifs at hx ⊢
      rfl
    · rw [hchildOf] at hx
      split_ifs at hx with hxa hxa'
      · cases hx
        rw [hc, if_pos hxa, hxa]
        exact ⟨(fun h => by cases h), rfl, newKey, ⟨hgenNew, _, hnewLeaf, rfl⟩, newLeaf, hnewLeaf, rfl, rfl, hnewHash⟩
      · cases hx
        rw [hc, if_neg hxa, if_pos hxa', hxa']
        exact ⟨(fun h => by cases h), rfl, existingKey, ⟨hgenExisting, _, hexistingLeaf, rfl⟩, existingLeaf, hexistingLeaf, rfl, rfl,
          hexistingHash⟩
  · rcases (hreach k).1 hr with rfl | ⟨x, child, childKey, hx, hck, rfl⟩
    · exact hk
    · rw [(NodeType.NodeKey.genChildNodeKey_spec hck).1, hversion x child hx]
  · -- off the three new nodes, the cache is as it was
    have htopNe : k ≠ nodeKey := fun h => hr ((hreach k).2 (.inl h))
    have hnewNe : k ≠ newKey := fun h => hr ((hreach k).2 (.inr ⟨a, _, newKey, by rw [hchildOf, if_pos rfl],
      hgenNew, h⟩))
    have hexistingNe : k ≠ existingKey := fun h => hr ((hreach k).2 (.inr ⟨a', _, existingKey,
      by rw [hchildOf, if_neg hne, if_pos rfl], hgenExisting, h⟩))
    simp only [tc₃, view_withNewNode, withNewNode_nodeCache, if_neg htopNe, if_neg hnewNe, if_neg hexistingNe,
      AList.lookup_insert_ne htopNe, AList.lookup_insert_ne hnewNe, AList.lookup_insert_ne hexistingNe, and_self]

/-- **A new subtree in place of one** whose nodes have left `node_cache`
(`tc₁`): the insertion leaves the new subtree at `version` under the same
path, and marks stale what `tc₁` does. -/
theorem Built.inserted {tc tc₁ tc' : TreeCache V} {t t' : Trie V} {nodeKey : NodeType.NodeKey} {nd : Node V}
    (hb : Built reader valueHash leafHash node placeholder version tc₁ tc' t' (⟨version, nodeKey.nibblePath⟩, nd))
    (hf : Fresh reader version tc₁)
    (houtside : ∀ k, ¬ InRegion nodeKey k →
      tc₁.view reader k = tc.view reader k ∧ tc₁.nodeCache.lookup k = tc.nodeCache.lookup k)
    (holder : ∀ k, k.version ≠ version → tc₁.view reader k = tc.view reader k)
    (hregion : ∀ k, InRegion nodeKey k → tc₁.nodeCache.lookup k = none)
    (hstale : ∀ k, k ∈ tc₁.staleNodeIndexCache ↔ k ∈ tc.staleNodeIndexCache ∨
      (t ≠ .empty ∧ k.version ≠ version ∧ Reach (tc.view reader) t nodeKey k))
    (hfrozen : tc₁.frozenCache = tc.frozenCache) (hroot : tc₁.rootNodeKey = tc.rootNodeKey)
    (hnext : tc₁.nextVersion = tc.nextVersion) :
    Inserted reader valueHash leafHash node placeholder version tc t nodeKey t' (⟨version, nodeKey.nibblePath⟩, nd) tc' where
  key := rfl
  resultNode := hb.resultNode
  holds := by
    refine ⟨hb.stored, fun k hk hnc => ?_, fun k hk hr => hf.stale k (hb.staleNodeIndexCache ▸ hk) (hb.version k hr)⟩
    by_contra hr
    rw [hb.nodeCache_eq_none hr (hregion k hk)] at hnc
    cases hnc
  fresh := hb.fresh hf
  outside k hk := by
    have hr : ¬ Reach (tc'.view reader) t' ⟨version, nodeKey.nibblePath⟩ k := fun hr => hk hr.inRegion
    rw [(hb.unchanged k hr).1, (hb.unchanged k hr).2]
    exact houtside k hk
  older k hk := (hb.unchanged k fun hr => hk (hb.version k hr)).1.trans (holder k hk)
  reach k hr := .inl (hb.version k hr)
  stale k := by
    rw [hb.staleNodeIndexCache, hstale]
    refine or_congr Iff.rfl ⟨?_, ?_⟩
    · rintro ⟨ht, hv, hr⟩
      exact ⟨ht, hv, hr, fun h => hv (hb.version k h)⟩
    · rintro ⟨ht, hv, hr, -⟩
      exact ⟨ht, hv, hr⟩
  frozenCache := hb.frozenCache.trans hfrozen
  rootNodeKey := hb.rootNodeKey.trans hroot
  nextVersion := hb.nextVersion.trans hnext

end Built

/-- **A new leaf in place of a subtree** whose nodes have left `node_cache`
(`tc₁`): the leaf of `key` under the path at `version`. -/
theorem inserted_newLeaf {tc tc₁ : TreeCache V} {t : Trie V} {nodeKey : NodeType.NodeKey} {key : HashValue} (value : V)
    (hf : Fresh reader version tc₁)
    (houtside : ∀ k, ¬ InRegion nodeKey k →
      tc₁.view reader k = tc.view reader k ∧ tc₁.nodeCache.lookup k = tc.nodeCache.lookup k)
    (holder : ∀ k, k.version ≠ version → tc₁.view reader k = tc.view reader k)
    (hregion : ∀ k, InRegion nodeKey k → tc₁.nodeCache.lookup k = none)
    (hstale : ∀ k, k ∈ tc₁.staleNodeIndexCache ↔ k ∈ tc.staleNodeIndexCache ∨
      (t ≠ .empty ∧ k.version ≠ version ∧ Reach (tc.view reader) t nodeKey k))
    (hfrozen : tc₁.frozenCache = tc.frozenCache) (hroot : tc₁.rootNodeKey = tc.rootNodeKey)
    (hnext : tc₁.nextVersion = tc.nextVersion) :
    Inserted reader valueHash leafHash node placeholder version tc t nodeKey (.leaf key value)
      (⟨version, nodeKey.nibblePath⟩, .Leaf (LeafNode.new valueHash key value))
      (tc₁.withNewNode ⟨version, nodeKey.nibblePath⟩ (.Leaf (LeafNode.new valueHash key value))) := by
  refine Built.inserted ?_ hf houtside holder hregion hstale hfrozen hroot hnext
  exact built_leaf (by rfl) (LeafNode.new valueHash key value) (by rfl)

/-! ## Inserting below an internal node -/

section Branch

variable {tc tc₁ tc₂ : TreeCache V} {c : Nibble → Trie V} {nodeKey ck : NodeType.NodeKey} {n n' : InternalNode}
  {a : Nibble} {t t' : Trie V} {r : NodeType.NodeKey × Node V}

/-- **The subtree of a child** of a branch the cache holds is held in the
cache `delete_node` of the branch's node leaves. -/
theorem holds_child (hh : Holds reader valueHash leafHash node placeholder tc (.branch c) nodeKey)
    (hv : tc.view reader nodeKey = some (.Internal n)) (hdel : Deleted reader version tc nodeKey tc₁)
    {child : Child} (hchild : n.child a = some child) (hck : nodeKey.genChildNodeKey child.version.toUInt64 a = .ok ck)
    (hst : Stored valueHash leafHash node placeholder (tc.view reader) (c a) ck) :
    Holds reader valueHash leafHash node placeholder tc₁ (c a) ck := by
  have hframe : ∀ k, InRegion ck k → tc₁.view reader k = tc.view reader k :=
    fun k hk => hdel.view_of_ne fun h => InRegion.not_child hck (h ▸ hk)
  have hreach := reach_congr (t := c a) hframe
  refine ⟨(stored_congr valueHash leafHash node placeholder hframe).2 hst, fun k hk hnc => ?_, fun k hk hr => ?_⟩
  · have hkn : k ≠ nodeKey := fun h => InRegion.not_child hck (h ▸ hk)
    rw [hdel.nodeCache_of_ne hkn] at hnc
    rcases (reach_branch_iff hv).1 (hh.nodeCache k (InRegion.of_child hck hk) hnc) with
      hkn' | ⟨x, child', childKey, hx, hkey, hr⟩
    · exact absurd hkn' hkn
    · -- the key is below the child at `a`, the only child whose region holds it
      by_cases hxa : x = a
      · subst hxa
        rw [hchild, Option.some_inj] at hx
        subst hx
        rw [hck, Except.ok.injEq] at hkey
        subst hkey
        exact (hreach k).2 hr
      · exact absurd hk (InRegion.disjoint hkey hck hxa hr.inRegion)
  · rcases (hdel.stale k).1 hk with hk | ⟨rfl, -⟩
    · exact hh.stale k hk ((reach_branch_iff hv).2 (.inr ⟨a, child, ck, hchild, hck, (hreach k).1 hr⟩))
    · exact InRegion.not_child hck hr.inRegion

/-- Below another nibble than the one inserted at, nothing changed. -/
theorem Inserted.frame_sibling (hdel : Deleted reader version tc nodeKey tc₁)
    (hins : Inserted reader valueHash leafHash node placeholder version tc₁ t ck t' r tc₂) {w w' : UInt64} {x : Nibble}
    {childKey : NodeType.NodeKey} (hgen : nodeKey.genChildNodeKey w a = .ok ck)
    (hkey : nodeKey.genChildNodeKey w' x = .ok childKey) (hxa : x ≠ a) {k : NodeType.NodeKey} (hk : InRegion childKey k) :
    tc₂.view reader k = tc.view reader k ∧ tc₂.nodeCache.lookup k = tc.nodeCache.lookup k := by
  have hkn : k ≠ nodeKey := fun h => InRegion.not_child hkey (h ▸ hk)
  obtain ⟨hview, hnc⟩ := hins.outside k (InRegion.disjoint hkey hgen hxa hk)
  exact ⟨hview.trans (hdel.view_of_ne hkn), hnc.trans (hdel.nodeCache_of_ne hkn)⟩

/-- The node of a branch goes back, at its path and `version`, to a key
`node_cache` does not hold. -/
theorem nodeCache_top_eq_none (hh : Holds reader valueHash leafHash node placeholder tc (.branch c) nodeKey)
    (hdel : Deleted reader version tc nodeKey tc₁) (hgen : nodeKey.genChildNodeKey ck.version a = .ok ck)
    (hins : Inserted reader valueHash leafHash node placeholder version tc₁ t ck t' r tc₂) :
    tc₂.nodeCache.lookup ⟨version, nodeKey.nibblePath⟩ = none := by
  rw [(hins.outside ⟨version, nodeKey.nibblePath⟩ fun h => InRegion.not_child hgen (h.of_nibblePath_eq rfl)).2]
  by_cases htop : (⟨version, nodeKey.nibblePath⟩ : NodeType.NodeKey) = nodeKey
  · rw [htop, hdel.nodeCache, if_pos rfl]
  · rw [hdel.nodeCache_of_ne htop]
    cases hnc : tc.nodeCache.lookup ⟨version, nodeKey.nibblePath⟩ with
    | none => rfl
    | some _ =>
      have hr := hh.nodeCache ⟨version, nodeKey.nibblePath⟩ (InRegion.refl nodeKey) (by rw [hnc]; rfl)
      exact absurd (Reach.eq_of_nibblePath hr (reach_self _ _) rfl) htop

/-- The keys of the branch put again above the new child: its own, those of
the new subtree, and those below the other children, as before. -/
theorem reach_inserted_branch (hdel : Deleted reader version tc nodeKey tc₁)
    (hins : Inserted reader valueHash leafHash node placeholder version tc₁ t ck t' r tc₂)
    (hgen : nodeKey.genChildNodeKey ck.version a = .ok ck) {ch : Child} (hn' : n'.children = n.children.insert a ch)
    (hch : ch.version = version.toNat) (k : NodeType.NodeKey) :
    Reach ((tc₂.withNewNode ⟨version, nodeKey.nibblePath⟩ (.Internal n')).view reader) (.branch (Function.update c a t'))
        ⟨version, nodeKey.nibblePath⟩ k ↔
      k = ⟨version, nodeKey.nibblePath⟩ ∨ Reach (tc₂.view reader) t' r.1 k ∨
        ∃ x child childKey, x ≠ a ∧ n.child x = some child ∧
          nodeKey.genChildNodeKey child.version.toUInt64 x = .ok childKey ∧ Reach (tc.view reader) (c x) childKey k := by
  have hview : ∀ k, k ≠ ⟨version, nodeKey.nibblePath⟩ →
      (tc₂.withNewNode ⟨version, nodeKey.nibblePath⟩ (.Internal n')).view reader k = tc₂.view reader k :=
    fun k hk => by rw [view_withNewNode, if_neg hk]
  have htop : (tc₂.withNewNode ⟨version, nodeKey.nibblePath⟩ (.Internal n')).view reader ⟨version, nodeKey.nibblePath⟩ =
      some (.Internal n') := by
    rw [view_withNewNode, if_pos rfl]
  have hgenA : (⟨version, nodeKey.nibblePath⟩ : NodeType.NodeKey).genChildNodeKey ch.version.toUInt64 a = .ok r.1 := by
    rw [hch, toUInt64_toNat, hins.key]
    exact NodeType.NodeKey.genChildNodeKey_of_nibblePath_eq hgen rfl version
  rw [reach_update_branch hview htop]
  refine or_congr Iff.rfl ⟨?_, ?_⟩
  · rintro ⟨x, child, childKey, hx, hkey, hr⟩
    rw [InternalNode.child_of_children_eq hn'] at hx
    split_ifs at hx with hxa
    · cases hx
      subst hxa
      rw [Function.update_self] at hr
      have hkeq : childKey = r.1 := by
        rw [hgenA, Except.ok.injEq] at hkey
        exact hkey.symm
      exact .inl (hkeq ▸ hr)
    · rw [Function.update_of_ne hxa] at hr
      exact .inr ⟨x, child, childKey, hxa, hx, hkey,
        (reach_congr (fun k hk => (hins.frame_sibling hdel hgen hkey hxa hk).1) k).1 hr⟩
  · rintro (hr | ⟨x, child, childKey, hxa, hx, hkey, hr⟩)
    · exact ⟨a, ch, r.1, by rw [InternalNode.child_of_children_eq hn', if_pos rfl], hgenA,
        by rw [Function.update_self]; exact hr⟩
    · refine ⟨x, child, childKey, by rw [InternalNode.child_of_children_eq hn', if_neg hxa]; exact hx, hkey, ?_⟩
      rw [Function.update_of_ne hxa]
      exact (reach_congr (fun k hk => (hins.frame_sibling hdel hgen hkey hxa hk).1) k).2 hr

/-- The branch put again above the new child stores the branch with the new
subtree at `a`. -/
theorem stored_inserted_branch (hs : Stored valueHash leafHash node placeholder (tc.view reader) (.branch c) nodeKey)
    (hv : tc.view reader nodeKey = some (.Internal n)) (hdel : Deleted reader version tc nodeKey tc₁)
    (hins : Inserted reader valueHash leafHash node placeholder version tc₁ (c a) ck t' r tc₂)
    (hgen : nodeKey.genChildNodeKey ck.version a = .ok ck) (ht' : t' ≠ .empty) {hash : HashValue} {nt : NodeType}
    (hhash : r.2.hash leafHash node placeholder = .ok hash) (hnt : r.2.nodeType = .ok nt)
    (hn' : n'.children = n.children.insert a ⟨hash, version.toNat, nt⟩) :
    Stored valueHash leafHash node placeholder ((tc₂.withNewNode ⟨version, nodeKey.nibblePath⟩ (.Internal n')).view reader)
      (.branch (Function.update c a t')) ⟨version, nodeKey.nibblePath⟩ := by
  have hview : ∀ k, k ≠ ⟨version, nodeKey.nibblePath⟩ →
      (tc₂.withNewNode ⟨version, nodeKey.nibblePath⟩ (.Internal n')).view reader k = tc₂.view reader k :=
    fun k hk => by rw [view_withNewNode, if_neg hk]
  have htop : (tc₂.withNewNode ⟨version, nodeKey.nibblePath⟩ (.Internal n')).view reader ⟨version, nodeKey.nibblePath⟩ =
      some (.Internal n') := by
    rw [view_withNewNode, if_pos rfl]
  obtain ⟨hnull, hleaf⟩ :=
    Stored.node_of_ne_empty valueHash leafHash node placeholder hins.holds.stored ht' hins.resultNode
  obtain ⟨-, nt', hnt', hntLeaf⟩ := Node.hash_nodeType_of_ne_null leafHash node placeholder hnull
  rw [hnt, Except.ok.injEq] at hnt'
  subst hnt'
  refine stored_update_branch hview htop (fun x hx => ?_) fun x child hx => ?_
  · rw [InternalNode.child_of_children_eq hn'] at hx
    split_ifs at hx with hxa
    rw [Function.update_of_ne hxa]
    exact hs.child_none hv hx
  · rw [InternalNode.child_of_children_eq hn'] at hx
    split_ifs at hx with hxa
    · cases hx
      subst hxa
      rw [Function.update_self]
      have hgenA : nodeKey.genChildNodeKey (version.toNat).toUInt64 x = .ok r.1 := by
        rw [toUInt64_toNat, hins.key]
        exact NodeType.NodeKey.genChildNodeKey_of_nibblePath_eq hgen rfl version
      exact ⟨ht', by rw [hntLeaf, hleaf], r.1, ⟨hgenA, r.2, hins.resultNode, hhash⟩, hins.holds.stored⟩
    · -- another child, below which nothing changed
      rw [Function.update_of_ne hxa]
      obtain ⟨hne, hisLeaf, childKey, ⟨hkey, childNode, hnode, hchash⟩, hst⟩ := hs.child_some hv hx
      have hframe : ∀ k, InRegion childKey k → tc₂.view reader k = tc.view reader k :=
        fun k hk => (hins.frame_sibling hdel hgen hkey hxa hk).1
      refine ⟨hne, hisLeaf, childKey, ⟨hkey, childNode, ?_, hchash⟩,
        (stored_congr valueHash leafHash node placeholder hframe).2 hst⟩
      rw [hframe _ (InRegion.refl _)]
      exact hnode

/-- **The branch put again above its new child**, after the insertion below
the child at `a` (`hins`) from the cache `delete_node` left (`hdel`): `ck` is
the key of the child's subtree (`hslot`), whose keys are of `version` or the
branch's (`hback`). -/
theorem inserted_branch (hh : Holds reader valueHash leafHash node placeholder tc (.branch c) nodeKey)
    (hv : tc.view reader nodeKey = some (.Internal n)) (hdel : Deleted reader version tc nodeKey tc₁)
    (hgen : nodeKey.genChildNodeKey ck.version a = .ok ck)
    (hslot : ∀ child childKey, n.child a = some child →
      nodeKey.genChildNodeKey child.version.toUInt64 a = .ok childKey → childKey = ck)
    (hback : ∀ k, Reach (tc₁.view reader) (c a) ck k → k.version = version ∨ Reach (tc.view reader) (.branch c) nodeKey k)
    (hins : Inserted reader valueHash leafHash node placeholder version tc₁ (c a) ck t' r tc₂) (ht' : t' ≠ .empty)
    {hash : HashValue} {nt : NodeType} (hhash : r.2.hash leafHash node placeholder = .ok hash) (hnt : r.2.nodeType = .ok nt)
    (hn' : n'.children = n.children.insert a ⟨hash, version.toNat, nt⟩) :
    Inserted reader valueHash leafHash node placeholder version tc (.branch c) nodeKey (.branch (Function.update c a t'))
      (⟨version, nodeKey.nibblePath⟩, .Internal n') (tc₂.withNewNode ⟨version, nodeKey.nibblePath⟩ (.Internal n')) := by
  have hreach := reach_inserted_branch (c := c) hdel hins hgen hn' rfl
  -- no stale key is in the new branch: it was stale before, or left the child's subtree
  have hstaleNot : ∀ k ∈ tc₂.staleNodeIndexCache, ¬ Reach ((tc₂.withNewNode ⟨version, nodeKey.nibblePath⟩
      (.Internal n')).view reader) (.branch (Function.update c a t')) ⟨version, nodeKey.nibblePath⟩ k := by
    intro k hk hr
    have hver : k.version ≠ version := hins.fresh.stale k hk
    rcases (hreach k).1 hr with rfl | hrNew | ⟨x, child, childKey, hxa, hx, hkey, hrOld⟩
    · exact hver rfl
    · rcases (hins.stale k).1 hk with hk₁ | ⟨-, -, -, hnr⟩
      · rcases hins.reach k hrNew with hv' | hr'
        · exact hver hv'
        · rcases (hdel.stale k).1 hk₁ with hk₀ | ⟨hkn, -⟩
          · exact hh.stale k hk₀ ((hback k hr').resolve_left hver)
          · exact InRegion.not_child hgen (hkn ▸ hr'.inRegion)
      · exact hnr hrNew
    · rcases (hins.stale k).1 hk with hk₁ | ⟨-, -, hr', -⟩
      · rcases (hdel.stale k).1 hk₁ with hk₀ | ⟨hkn, -⟩
        · exact hh.stale k hk₀ ((reach_branch_iff hv).2 (.inr ⟨x, child, childKey, hx, hkey, hrOld⟩))
        · exact InRegion.not_child hkey (hkn ▸ hrOld.inRegion)
      · exact InRegion.disjoint hkey hgen hxa hrOld.inRegion hr'.inRegion
  refine ⟨rfl, by rw [view_withNewNode, if_pos rfl], ⟨stored_inserted_branch hh.stored hv hdel hins hgen ht' hhash hnt hn',
    fun k hk hnc => ?_, hstaleNot⟩, hins.fresh.withNewNode rfl _, fun k hk => ?_, fun k hk => ?_, fun k hr => ?_,
    fun k => ?_,
    hins.frozenCache.trans hdel.frozenCache, hins.rootNodeKey.trans hdel.rootNodeKey,
    hins.nextVersion.trans hdel.nextVersion⟩
  · -- `node_cache` in the region: the new node, the new subtree's, or the other children's nodes
    by_cases hkt : k = ⟨version, nodeKey.nibblePath⟩
    · exact (hreach k).2 (.inl hkt)
    rw [withNewNode_nodeCache, AList.lookup_insert_ne hkt] at hnc
    by_cases hkc : InRegion ck k
    · exact (hreach k).2 (.inr (.inl (hins.holds.nodeCache k (by rw [hins.key]; exact hkc) hnc)))
    rw [(hins.outside k hkc).2] at hnc
    have hkn : k ≠ nodeKey := fun h => by rw [h, hdel.nodeCache, if_pos rfl] at hnc; cases hnc
    rw [hdel.nodeCache_of_ne hkn] at hnc
    rcases (reach_branch_iff hv).1 (hh.nodeCache k hk hnc) with hkn' | ⟨x, child, childKey, hx, hkey, hr⟩
    · exact absurd hkn' hkn
    · have hxa : x ≠ a := fun hxa => hkc (by subst hxa; rw [← hslot child childKey hx hkey]; exact hr.inRegion)
      exact (hreach k).2 (.inr (.inr ⟨x, child, childKey, hxa, hx, hkey, hr⟩))
  · -- outside the region, nothing changed
    have hkt : k ≠ ⟨version, nodeKey.nibblePath⟩ := fun h => hk (h ▸ InRegion.refl nodeKey)
    have hkn : k ≠ nodeKey := fun h => hk (h ▸ InRegion.refl _)
    obtain ⟨hv₂, hnc₂⟩ := hins.outside k fun h => hk (InRegion.of_child hgen h)
    rw [view_withNewNode, if_neg hkt, withNewNode_nodeCache, AList.lookup_insert_ne hkt, hv₂, hnc₂]
    exact ⟨hdel.view_of_ne hkn, hdel.nodeCache_of_ne hkn⟩
  · -- nodes of other versions are as they were
    have hkt : k ≠ ⟨version, nodeKey.nibblePath⟩ := fun h => hk (h ▸ rfl)
    rw [view_withNewNode, if_neg hkt, hins.older k hk]
    exact hdel.view_of_version_ne hk
  · rcases (hreach k).1 hr with rfl | hr | ⟨x, child, childKey, -, hx, hkey, hr⟩
    · exact .inl rfl
    · rcases hins.reach k hr with hv' | hr'
      · exact .inl hv'
      · exact hback k hr'
    · exact .inr ((reach_branch_iff hv).2 (.inr ⟨x, child, childKey, hx, hkey, hr⟩))
  · -- the stale keys: those of before, the branch's node, and what the child's subtree lost
    rw [withNewNode_staleNodeIndexCache]
    constructor
    · intro hk
      have hver := hins.fresh.stale k hk
      rcases (hins.stale k).1 hk with hk₁ | ⟨-, -, hr', -⟩
      · rcases (hdel.stale k).1 hk₁ with hk₀ | ⟨rfl, -⟩
        · exact .inl hk₀
        · exact .inr ⟨(fun h => by cases h), hver, reach_self _ _, hstaleNot _ hk⟩
      · exact .inr ⟨(fun h => by cases h), hver, (hback k hr').resolve_left hver, hstaleNot k hk⟩
    · rintro (hk₀ | ⟨-, hver, hr, hnr⟩)
      · exact (hins.stale k).2 (.inl ((hdel.stale k).2 (.inl hk₀)))
      rcases (reach_branch_iff hv).1 hr with rfl | ⟨x, child, childKey, hx, hkey, hr⟩
      · exact (hins.stale _).2 (.inl ((hdel.stale _).2 (.inr ⟨rfl, hver⟩)))
      by_cases hxa : x = a
      · -- below the child at `a`: a node the new subtree lost
        subst hxa
        have hck := hslot child childKey hx hkey
        subst hck
        have hr₁ : Reach (tc₁.view reader) (c x) childKey k :=
          (reach_congr (fun k hk => hdel.view_of_ne fun h => InRegion.not_child hkey (h ▸ hk)) k).2 hr
        exact (hins.stale k).2 (.inr ⟨(Stored.child_some hh.stored hv hx).1, hver, hr₁,
          fun h => hnr ((hreach k).2 (.inr (.inl h)))⟩)
      · exact absurd ((hreach k).2 (.inr (.inr ⟨x, child, childKey, hxa, hx, hkey, hr⟩))) hnr

/-- A node whose child at `a` is empty or a leaf has another child. -/
theorem exists_sibling (hs : Stored valueHash leafHash node placeholder (tc.view reader) (.branch c) nodeKey)
    (hv : tc.view reader nodeKey = some (.Internal n)) (hca : ∀ c', c a ≠ .branch c') : ∃ b, b ≠ a ∧ b ∈ n.children := by
  cases hx : n.child a with
  | none =>
    obtain ⟨e, he⟩ := List.exists_mem_of_ne_nil _ n.children_ne_nil
    have hmem : e.1 ∈ n.children := by
      rw [AList.mem_keys, AList.keys]
      exact List.mem_map_of_mem he
    refine ⟨e.1, fun h => ?_, hmem⟩
    rw [h, ← AList.lookup_isSome] at hmem
    change (n.child a).isSome = true at hmem
    rw [hx] at hmem
    cases hmem
  | some child =>
    obtain ⟨hne, hisLeaf, -⟩ := hs.child_some hv hx
    have hleaf : (c a).isLeaf = true := by
      cases h : c a with
      | empty => exact absurd h hne
      | leaf => rfl
      | branch c' => exact absurd h (hca c')
    exact InternalNode.exists_ne_of_child_isLeaf n hx (hisLeaf.trans hleaf)

end Branch

end Subtrees

section Writer

variable {V : Type} (reader : TreeReader V) (valueHash : V → HashValue) (leafHash node : HashValue → HashValue → HashValue)
  (placeholder : HashValue) (leafCountMigration : Bool)

variable {tc : TreeCache V} {Q : NodeType.NodeKey × Node V → TreeCache V → Prop} {R : Failure → TreeCache V → Prop}

/-- **`create_leaf_node` with the iterator of a key** puts the leaf of the key,
unless the key is taken. -/
theorem wp_createLeafNode {key : HashValue} (hkey : key.val < 2 ^ 256) {d : ℕ} (hd : d ≤ 64) {nodeKey : NodeType.NodeKey}
    (hfree : tc.nodeCache.lookup nodeKey = none) (value : V)
    (hQ : Q (nodeKey, .Leaf (LeafNode.new valueHash key value))
      (tc.withNewNode nodeKey (.Leaf (LeafNode.new valueHash key value)))) :
    wp (createLeafNode valueHash nodeKey (keyIter key d) value) Q R tc := by
  unfold createLeafNode
  simp only [wp_bind, wp_liftExcept, getNibblePath_keyIter key hd, expect_some]
  rw [show (HashValue.nibblePath key).toRaw.bytes = HashValue.toVec key from rfl, fromSlice_toVec hkey]
  simp only [expectOk_ok]
  rw [putNode_spec, if_pos hfree]
  exact hQ

/-- **The loop of `insert_at_leaf_node`**: from a new internal node under
the first `d + m` nibbles of the key, `m` rounds put a chain of nodes with one
child each above it, up to the path of the first `d`, where `root` is; none of
them is put at a key `node_cache` holds. -/
theorem wp_insertAtLeafNodeLoop {key : HashValue} {d : ℕ} {version : UInt64} {tc₀ : TreeCache V}
    {root : NodeType.NodeKey} (hroot : root.nibblePath.nibbleList = (HashValue.nibbles key).take d)
    (hfree : ∀ k, InRegion root k → tc₀.nodeCache.lookup k = none) :
    ∀ (m : ℕ) {p : NibblePath} {t : Trie V} {nd : Node V} {tc : TreeCache V}, d + m ≤ 64 →
      p.nibbleList = (HashValue.nibbles key).take (d + m) → t ≠ .empty → t.isLeaf = false →
      Built reader valueHash leafHash node placeholder version tc₀ tc t (⟨version, p⟩, nd) →
      wp (insertAtLeafNodeLoop leafHash node placeholder leafCountMigration version m p ⟨version, p⟩ nd)
        (fun r tc' => r.1 = ⟨version, root.nibblePath⟩ ∧
          Built reader valueHash leafHash node placeholder version tc₀ tc'
            (RadixTrie.chain ((List.range m).map fun j => HashValue.nibble key (d + j)) t) r) R tc
  | 0, p, t, nd, tc, _, hp, _, _, hb => by
    rw [insertAtLeafNodeLoop, wp_pure]
    have hpath : p = root.nibblePath := NibblePath.eq_of_nibbleList_eq (by rw [hp, hroot, Nat.add_zero])
    subst hpath
    exact ⟨rfl, hb⟩
  | m + 1, p, t, nd, tc, hdm, hp, ht, hleaf, hb => by
    have hsplit : p.nibbleList = (HashValue.nibbles key).take (d + m) ++ [HashValue.nibble key (d + m)] := by
      rw [hp, ← Nat.add_assoc, List.take_add_one, getElem?_nibbles key (by omega), Option.toList_some]
    obtain ⟨hpop₁, hpop₂⟩ := NibblePath.pop_of_nibbleList hsplit
    set parent : NodeType.NodeKey := ⟨version, p.pop.2⟩
    have hchild : parent.genChildNodeKey version (HashValue.nibble key (d + m)) = .ok ⟨version, p⟩ :=
      @genChildNodeKey_of_nibbleList parent ⟨version, p⟩ _ (by rw [hsplit, hpop₂])
    obtain ⟨hnull, hisLeaf⟩ := Stored.node_of_ne_empty valueHash leafHash node placeholder hb.stored ht hb.resultNode
    obtain ⟨⟨hash, hhash⟩, nt, hnt, hntLeaf⟩ := Node.hash_nodeType_of_ne_null leafHash node placeholder hnull
    obtain ⟨n, hn, hchildren⟩ := InternalNode.newMigration_eq_ok
      ((∅ : Children).insert (HashValue.nibble key (d + m)) ⟨hash, version.toNat, nt⟩)
      (by simp)
      (Children.isSingleLeaf_insert fun h => by rw [hntLeaf, hisLeaf, hleaf] at h; cases h) leafCountMigration
    -- at a key below `root` that the new subtree, further down, does not reach
    have hparentFree : tc.nodeCache.lookup parent = none := by
      refine hb.nodeCache_eq_none (fun hr => ?_) (hfree parent ?_)
      · have := hr.inRegion.length_le
        simp only [parent, hp, hpop₂, List.length_take, length_nibbles] at this
        omega
      · change root.nibblePath.nibbleList <+: p.pop.2.nibbleList
        rw [hroot, hpop₂, List.take_isPrefix_take]
        omega
    rw [insertAtLeafNodeLoop]
    simp only [wp_bind, wp_liftExcept, hpop₁, expect_some, hhash, hnt, hn]
    refine wp_putNode hparentFree _ ?_
    have hchain : RadixTrie.chain ((List.range (m + 1)).map fun j => HashValue.nibble key (d + j)) t =
        RadixTrie.chain ((List.range m).map fun j => HashValue.nibble key (d + j))
          (RadixTrie.single (HashValue.nibble key (d + m)) t) := by
      rw [List.range_succ, List.map_append, RadixTrie.chain_append]
      rfl
    rw [hchain]
    exact wp_insertAtLeafNodeLoop hroot hfree m (by omega) hpop₂ (fun h => by cases h) rfl (hb.single ht hchild rfl hhash hnt hchildren)

/-- **`insert_at` at the null root**: the root becomes the leaf of the key; a
null root of the version written goes from `node_cache`. -/
theorem wp_insertAt_empty {key : HashValue} (hkey : key.val < 2 ^ 256) (value : V) {version : UInt64}
    {nodeKey : NodeType.NodeKey} (hroot : nodeKey.nibblePath.numNibbles = 0) (hf : Fresh reader version tc)
    (hh : Holds reader valueHash leafHash node placeholder tc .empty nodeKey) :
    wp (insertAt reader valueHash leafHash node placeholder leafCountMigration nodeKey version (keyIter key 0) value)
      (fun r tc' => Inserted reader valueHash leafHash node placeholder version tc .empty nodeKey (.leaf key value) r tc')
      R tc := by
  have hnil : nodeKey.nibblePath.nibbleList = [] := List.eq_nil_of_length_eq_zero (by rw [length_nibbleList, hroot])
  have hpath : NodeType.NodeKey.newEmptyPath version = ⟨version, nodeKey.nibblePath⟩ := by
    refine NodeType.NodeKey.ext rfl (NibblePath.eq_of_nibbleList_eq ?_)
    rw [NodeType.NodeKey.newEmptyPath, nibbleList_new_nil, hnil]
  have hall : ∀ k, InRegion nodeKey k := fun k => by
    rw [InRegion, hnil]
    exact List.nil_prefix
  have hnc : ∀ k, (tc.nodeCache.lookup k).isSome → k = nodeKey := fun k hk => hh.nodeCache k (hall k) hk
  rw [insertAt]
  simp only [wp_bind]
  rw [getNode_spec, hh.stored]
  simp only [NibblePath.isEmpty, hroot, beq_self_eq_true, Bool.not_true, Bool.false_eq_true, ↓reduceIte, hpath]
  split_ifs with hv
  · -- the null root of this version is in `node_cache`, and leaves it
    simp only [wp_bind]
    refine wp_deleteNode hf (by rw [hh.stored]; rfl) (fun hs => hh.stale _ hs rfl) false fun tc₁ hdel => ?_
    refine wp_createLeafNode valueHash hkey (by norm_num)
      (by rw [hdel.nodeCache, if_pos (show (⟨version, nodeKey.nibblePath⟩ : NodeType.NodeKey) = nodeKey from
        NodeType.NodeKey.ext hv.symm rfl)]) value ?_
    refine inserted_newLeaf value (hdel.fresh hf) (fun k hk => absurd (hall k) hk) (fun k => hdel.view_of_version_ne)
      (fun k _ => ?_) (fun k => ?_) hdel.frozenCache hdel.rootNodeKey hdel.nextVersion
    · rw [hdel.nodeCache]
      split_ifs with hk
      · rfl
      · cases h : tc.nodeCache.lookup k with
        | none => rfl
        | some _ => exact absurd (hnc k (by rw [h]; rfl)) hk
    · rw [hdel.stale]
      simp only [ne_eq, not_true_eq_false, false_and, or_false]
      exact or_iff_left fun h => h.2 (h.1 ▸ hv)
  · -- a null root of an earlier version stays where it is
    refine wp_createLeafNode valueHash hkey (by norm_num) ?_ value ?_
    · cases h : tc.nodeCache.lookup ⟨version, nodeKey.nibblePath⟩ with
      | none => rfl
      | some _ =>
        have := hnc _ (by rw [h]; rfl)
        exact absurd (this ▸ rfl : nodeKey.version = version) hv
    refine inserted_newLeaf value hf (fun k hk => absurd (hall k) hk) (fun _ _ => rfl) (fun k _ => ?_) (fun k => ?_) rfl rfl
      rfl
    · cases h : tc.nodeCache.lookup k with
      | none => rfl
      | some _ =>
        have := hnc k (by rw [h]; rfl)
        subst this
        exact absurd (hf.nodeCache _ (by rw [h]; rfl)) hv
    · simp

/-- The nibbles a key has visited, down to depth `d`, are all there is. -/
theorem isFinished_visited (key : HashValue) {d : ℕ} (hd : d ≤ 64) :
    (⟨(HashValue.nibblePath key).toRaw, d, d, 0⟩ : NibbleIterator).isFinished = some true := by
  rw [NibbleIterator.isFinished_of_reads (reads_nibblePath key) (by rw [length_nibbles]; exact hd)]
  simp

/-- **`insert_at` at a leaf**: a leaf of the same key is replaced; a leaf of
another key goes one level below the node where the two keys part, with a
chain of nodes of one child each above that node. -/
theorem wp_insertAt_leaf {key k' : HashValue} (hkey : key.val < 2 ^ 256) (hk' : k'.val < 2 ^ 256) (value v' : V)
    {version : UInt64} {d : ℕ} (hd : d ≤ 64) {nodeKey : NodeType.NodeKey}
    (hpath : nodeKey.nibblePath.nibbleList = (HashValue.nibbles key).take d)
    (hagree : ∀ j < d, HashValue.nibble k' j = HashValue.nibble key j) (hf : Fresh reader version tc)
    (hh : Holds reader valueHash leafHash node placeholder tc (.leaf k' v') nodeKey) :
    wp (insertAt reader valueHash leafHash node placeholder leafCountMigration nodeKey version (keyIter key d) value)
      (fun r tc' => Inserted reader valueHash leafHash node placeholder version tc (.leaf k' v') nodeKey
        (RadixTrie.insert HashValue.nibble 64 key value (.leaf k' v') d) r tc') R tc := by
  obtain ⟨leaf, hv, rfl, rfl, hvh⟩ := hh.stored
  rw [insertAt]
  simp only [wp_bind]
  rw [getNode_spec, hv]
  unfold insertAtLeafNode
  simp only [wp_bind]
  refine wp_deleteNode hf (by rw [hv]; rfl) (fun hs => hh.stale _ hs rfl) true fun tc₁ hdel => ?_
  -- `delete_node` leaves no node of `node_cache` in the region, and the leaf stale if it is of an earlier version
  have hf₁ := hdel.fresh hf
  have hregion : ∀ k, InRegion nodeKey k → tc₁.nodeCache.lookup k = none := fun k hk => by
    rw [hdel.nodeCache]
    split_ifs with hkn
    · rfl
    · cases h : tc.nodeCache.lookup k with
      | none => rfl
      | some _ => exact absurd (hh.nodeCache k hk (by rw [h]; rfl)) hkn
  have houtside : ∀ k, ¬ InRegion nodeKey k →
      tc₁.view reader k = tc.view reader k ∧ tc₁.nodeCache.lookup k = tc.nodeCache.lookup k := fun k hk => by
    have hkn : k ≠ nodeKey := fun h => hk (h ▸ InRegion.refl _)
    rw [hdel.view, hdel.nodeCache, if_neg hkn, if_neg fun h => hkn h.1]
    exact ⟨rfl, rfl⟩
  have hstale : ∀ k, k ∈ tc₁.staleNodeIndexCache ↔ k ∈ tc.staleNodeIndexCache ∨
      ((.leaf leaf.accountKey leaf.value : Trie V) ≠ .empty ∧ k.version ≠ version ∧
        Reach (tc.view reader) (.leaf leaf.accountKey leaf.value) nodeKey k) := fun k => by
    rw [hdel.stale]
    refine or_congr Iff.rfl ⟨?_, ?_⟩
    · rintro ⟨hk, hv⟩
      exact ⟨(fun h => by cases h), hv, hk⟩
    · rintro ⟨-, hv, hk⟩
      exact ⟨hk, hv⟩
  set c := RadixTrie.agreeLen HashValue.nibble key leaf.accountKey d (64 - d) with hc
  obtain ⟨hcle, hshared, hpart⟩ : c ≤ 64 - d ∧
      (∀ j < c, HashValue.nibble key (d + j) = HashValue.nibble leaf.accountKey (d + j)) ∧
      (c < 64 - d → HashValue.nibble key (d + c) ≠ HashValue.nibble leaf.accountKey (d + c)) :=
    RadixTrie.agreeLen_spec HashValue.nibble (64 - d) d
  obtain ⟨q, hq, hqlist⟩ := collect_visited key (m := d + c) (by omega)
  simp only [wp_liftExcept, skipCommonPrefix_visited hd hagree, expect_some, isFinished_visited key hd, wp_assert,
    ↓reduceIte, NibbleIterator.remainingNibbles, skipCommonPrefix_below key leaf.accountKey hd,
    ← hc, hq, isFinished_keyIter, isFinished_leafIter]
  split_ifs with hfin
  · -- the same key: a new leaf in place of the old one
    simp only [decide_eq_true_eq] at hfin
    simp only [wp_bind, wp_liftExcept, wp_assert, decide_eq_true hfin, ↓reduceIte]
    have hkeq : leaf.accountKey = key := digitsDetermine_nibble _ _ hk' hkey fun j hj => by
      by_cases hjd : j < d
      · exact hagree j hjd
      · have := hshared (j - d) (by omega)
        rw [show d + (j - d) = j by omega] at this
        exact this.symm
    rw [RadixTrie.insert, if_pos hkeq]
    refine wp_createLeafNode valueHash hkey (by omega) (hregion _ (inRegion_self_version nodeKey version)) value ?_
    exact inserted_newLeaf value hf₁ houtside (fun k => hdel.view_of_version_ne) hregion hstale hdel.frozenCache
      hdel.rootNodeKey hdel.nextVersion
  · -- the keys part at nibble `d + c`: the two leaves below a new node there
    simp only [decide_eq_true_eq, not_le] at hfin
    have hne : HashValue.nibble leaf.accountKey (d + c) ≠ HashValue.nibble key (d + c) :=
      fun h => hpart (by omega) h.symm
    have hkne : leaf.accountKey ≠ key := fun h => hne (by rw [h])
    have hqlen : (⟨version, q⟩ : NodeType.NodeKey).nibblePath.nibbleList.length < Diem.ROOT_NIBBLE_HEIGHT := by
      change q.nibbleList.length < _
      rw [hqlist, List.length_take, length_nibbles]
      simp only [Diem.ROOT_NIBBLE_HEIGHT]
      omega
    obtain ⟨existingKey, hexisting, -, -⟩ :=
      NodeType.NodeKey.genChildNodeKey_of_lt hqlen version (HashValue.nibble leaf.accountKey (d + c))
    obtain ⟨newKey, hnew, -, -⟩ := NodeType.NodeKey.genChildNodeKey_of_lt hqlen version (HashValue.nibble key (d + c))
    have hqRegion : InRegion nodeKey ⟨version, q⟩ := by
      change nodeKey.nibblePath.nibbleList <+: q.nibbleList
      rw [hpath, hqlist, List.take_isPrefix_take]
      omega
    have hexistingRegion : InRegion nodeKey existingKey := hqRegion.trans (InRegion.of_child hexisting (InRegion.refl _))
    have hnewRegion : InRegion nodeKey newKey := hqRegion.trans (InRegion.of_child hnew (InRegion.refl _))
    have hkeys : existingKey ≠ newKey := fun h =>
      InRegion.disjoint hexisting hnew hne (InRegion.refl _) (h ▸ InRegion.refl _)
    simp only [wp_bind, wp_liftExcept, next_leafIter leaf.accountKey hfin, next_keyIter key hfin, expect_some,
      wp_assert, bne_iff_ne, ne_eq, hne, not_false_eq_true, ↓reduceIte, hexisting, hnew]
    refine wp_putNode (hregion existingKey hexistingRegion) _ ?_
    refine wp_createLeafNode valueHash hkey (by omega)
      (by rw [withNewNode_nodeCache, AList.lookup_insert_ne (Ne.symm hkeys)]; exact hregion newKey hnewRegion) value ?_
    obtain ⟨n, hn, hchildren⟩ := InternalNode.newMigration_eq_ok
      (((∅ : Children).insert (HashValue.nibble leaf.accountKey (d + c)) ⟨leaf.hash leafHash, version.toNat, .Leaf⟩).insert
        (HashValue.nibble key (d + c)) ⟨(LeafNode.new valueHash key value).hash leafHash, version.toNat, .Leaf⟩)
      (by simp [AList.entries_insert]) (Children.isSingleLeaf_insert fun _ => ⟨_, hne, (AList.mem_insert _).2 (.inl rfl)⟩) leafCountMigration
    simp only [Node.hash, hn]
    refine wp_putNode ?_ _ ?_
    · -- the node above the two leaves is neither of them
      have htopNew : (⟨version, q⟩ : NodeType.NodeKey) ≠ newKey := fun h => InRegion.not_child hnew (h ▸ InRegion.refl _)
      have htopExisting : (⟨version, q⟩ : NodeType.NodeKey) ≠ existingKey :=
        fun h => InRegion.not_child hexisting (h ▸ InRegion.refl _)
      rw [withNewNode_nodeCache, withNewNode_nodeCache, AList.lookup_insert_ne htopNew,
        AList.lookup_insert_ne htopExisting]
      exact hregion _ hqRegion
    refine wp_mono (wp_insertAtLeafNodeLoop reader valueHash leafHash node placeholder leafCountMigration hpath hregion c
      (by omega) hqlist (RadixTrie.chain_pair_ne_empty [] _ _ _ _) rfl
      (built_pair hne rfl hexisting hnew leaf (LeafNode.new valueHash key value) hvh rfl hchildren))
      (fun r tc' hr => ?_) fun _ _ h => h
    obtain ⟨r₁, r₂⟩ := r
    obtain ⟨hr₁, hb⟩ := hr
    change r₁ = _ at hr₁
    subst hr₁
    rw [RadixTrie.insert, if_neg hkne]
    exact hb.inserted hf₁ houtside (fun k => hdel.view_of_version_ne) hregion hstale hdel.frozenCache
      hdel.rootNodeKey hdel.nextVersion

/-- The path of a child of the node at depth `d` on the path of a key, at the
key's next nibble. -/
theorem nibbleList_child {key : HashValue} {d : ℕ} (hd : d < 64) {nodeKey childKey : NodeType.NodeKey} {w : UInt64}
    (hpath : nodeKey.nibblePath.nibbleList = (HashValue.nibbles key).take d)
    (hkey : nodeKey.genChildNodeKey w (HashValue.nibble key d) = .ok childKey) :
    childKey.nibblePath.nibbleList = (HashValue.nibbles key).take (d + 1) := by
  rw [(NodeType.NodeKey.genChildNodeKey_spec hkey).2, hpath, List.take_add_one, getElem?_nibbles key hd,
    Option.toList_some]

/-- **`insert_at` at an internal node**: the insertion goes on below the
child at the key's next nibble, or makes a new leaf there, and the node is put
again at `version` with that child's new entry; given what the insertion
below a child does (`ih`). -/
theorem wp_insertAt_branch {key : HashValue} (hkey : key.val < 2 ^ 256) (value : V) {version : UInt64} {d : ℕ}
    (hd : d < 64) {c : Nibble → Trie V} {nodeKey : NodeType.NodeKey}
    (hpath : nodeKey.nibblePath.nibbleList = (HashValue.nibbles key).take d) (hf : Fresh reader version tc)
    (hh : Holds reader valueHash leafHash node placeholder tc (.branch c) nodeKey)
    (ih : ∀ {childKey : NodeType.NodeKey} {tc₁ : TreeCache V}, c (HashValue.nibble key d) ≠ .empty →
      childKey.nibblePath.nibbleList = (HashValue.nibbles key).take (d + 1) → Fresh reader version tc₁ →
      Holds reader valueHash leafHash node placeholder tc₁ (c (HashValue.nibble key d)) childKey →
      wp (insertAt reader valueHash leafHash node placeholder leafCountMigration childKey version (keyIter key (d + 1))
          value)
        (fun r tc' => Inserted reader valueHash leafHash node placeholder version tc₁ (c (HashValue.nibble key d))
          childKey (RadixTrie.insert HashValue.nibble 64 key value (c (HashValue.nibble key d)) (d + 1)) r tc') R tc₁) :
    wp (insertAt reader valueHash leafHash node placeholder leafCountMigration nodeKey version (keyIter key d) value)
      (fun r tc' => Inserted reader valueHash leafHash node placeholder version tc (.branch c) nodeKey
        (RadixTrie.insert HashValue.nibble 64 key value (.branch c) d) r tc') R tc := by
  obtain ⟨n, hv, -⟩ := hh.stored
  rw [insertAt]
  simp only [wp_bind]
  rw [getNode_spec, hv]
  dsimp only
  rw [insertAtInternalNode]
  simp only [wp_bind]
  refine wp_deleteNode hf (by rw [hv]; rfl) (fun hs => hh.stale _ hs (reach_self _ _)) false fun tc₁ hdel => ?_
  have hf₁ := hdel.fresh hf
  split
  case h_2 hnext => rw [next_keyIter key hd] at hnext; cases hnext
  case h_3 hnext => rw [next_keyIter key hd] at hnext; cases hnext
  rename_i childIndex nibbleIter' hnext
  rw [next_keyIter key hd, Option.some_inj, Prod.mk.injEq, Option.some_inj] at hnext
  obtain ⟨rfl, rfl⟩ := hnext
  simp only [wp_bind]
  refine wp_mono (Q := fun r tc₂ => ∃ ck, nodeKey.genChildNodeKey ck.version (HashValue.nibble key d) = .ok ck ∧
      (∀ child childKey, n.child (HashValue.nibble key d) = some child →
        nodeKey.genChildNodeKey child.version.toUInt64 (HashValue.nibble key d) = .ok childKey → childKey = ck) ∧
      (∀ k, Reach (tc₁.view reader) (c (HashValue.nibble key d)) ck k →
        k.version = version ∨ Reach (tc.view reader) (.branch c) nodeKey k) ∧
      Inserted reader valueHash leafHash node placeholder version tc₁ (c (HashValue.nibble key d)) ck
        (RadixTrie.insert HashValue.nibble 64 key value (c (HashValue.nibble key d)) (d + 1)) r tc₂)
    ?_ (fun r tc₂ hr => ?_) fun _ _ h => h
  · cases hx : n.child (HashValue.nibble key d) with
    | some child =>
      obtain ⟨hne, -, childKey, ⟨hkey, -⟩, hst⟩ := Stored.child_some hh.stored hv hx
      simp only [wp_bind, wp_liftExcept, hkey]
      have hframe : ∀ k, InRegion childKey k → tc₁.view reader k = tc.view reader k :=
        fun k hk => hdel.view_of_ne fun h => InRegion.not_child hkey (h ▸ hk)
      refine wp_mono (ih hne (nibbleList_child hd hpath hkey) hf₁ (holds_child hh hv hdel hx hkey hst))
        (fun r tc₂ hins => ⟨childKey, ?_, fun child' childKey' hx' hkey' => ?_, fun k hr => .inr ?_, hins⟩)
        fun _ _ h => h
      · rw [(NodeType.NodeKey.genChildNodeKey_spec hkey).1]
        exact hkey
      · rw [Option.some_inj] at hx'
        subst hx'
        rw [hkey, Except.ok.injEq] at hkey'
        exact hkey'.symm
      · exact (reach_branch_iff hv).2 (.inr ⟨_, child, childKey, hx, hkey, (reach_congr hframe k).1 hr⟩)
    | none =>
      have hca : c (HashValue.nibble key d) = .empty := Stored.child_none hh.stored hv hx
      obtain ⟨ck, hgen, hckv, -⟩ := NodeType.NodeKey.genChildNodeKey_of_lt
        (by rw [hpath, List.length_take, length_nibbles]; simp only [Diem.ROOT_NIBBLE_HEIGHT]; omega) version
        (HashValue.nibble key d)
      simp only [wp_bind, wp_liftExcept, hgen]
      have hregion : ∀ k, InRegion ck k → tc₁.nodeCache.lookup k = none := fun k hk => by
        have hkn : k ≠ nodeKey := fun h => InRegion.not_child hgen (h ▸ hk)
        rw [hdel.nodeCache_of_ne hkn]
        cases hnc : tc.nodeCache.lookup k with
        | none => rfl
        | some _ =>
          rcases (reach_branch_iff hv).1 (hh.nodeCache k (InRegion.of_child hgen hk) (by rw [hnc]; rfl)) with
            hkn' | ⟨x, child, childKey, hx', hkey, hr⟩
          · exact absurd hkn' hkn
          · have hxa : x ≠ HashValue.nibble key d := fun h => by rw [h, hx] at hx'; cases hx'
            exact absurd hk (InRegion.disjoint hkey hgen hxa hr.inRegion)
      refine wp_createLeafNode valueHash hkey (by omega) (hregion ck (InRegion.refl _)) value ?_
      have hck : ck = ⟨version, ck.nibblePath⟩ := NodeType.NodeKey.ext hckv rfl
      refine ⟨ck, by rw [hckv]; exact hgen, (fun _ _ hx' _ => by cases hx'), fun k hr => .inl ?_, ?_⟩
      · rw [hca] at hr
        rw [show k = ck from hr, hckv]
      · rw [hca, RadixTrie.insert, hck]
        exact inserted_newLeaf value hf₁ (fun k _ => ⟨rfl, rfl⟩) (fun _ _ => rfl) hregion
          (fun k => (or_iff_left fun h => h.1 rfl).symm) rfl rfl rfl
  · obtain ⟨ck, hgen, hslot, hback, hins⟩ := hr
    have ht' := RadixTrie.insert_ne_empty HashValue.nibble 64 key value (c (HashValue.nibble key d)) (d + 1)
    obtain ⟨hnull, hleaf⟩ :=
      Stored.node_of_ne_empty valueHash leafHash node placeholder hins.holds.stored ht' hins.resultNode
    obtain ⟨⟨hash, hhash⟩, nt, hnt, hntLeaf⟩ := Node.hash_nodeType_of_ne_null leafHash node placeholder hnull
    -- the node stays internal: a leaf at the key's nibble has a sibling
    obtain ⟨n', hn', hchildren⟩ := InternalNode.newMigration_eq_ok
      (n.children.insert (HashValue.nibble key d) ⟨hash, version.toNat, nt⟩) (by simp)
      (Children.isSingleLeaf_insert fun h => exists_sibling hh.stored hv fun c' hca => by
        rw [hntLeaf, hleaf, hca, RadixTrie.insert] at h
        cases h) leafCountMigration
    simp only [wp_liftExcept, hhash, hnt, hn', wp_pure]
    refine wp_putNode (nodeCache_top_eq_none hh hdel hgen hins) _ ?_
    rw [RadixTrie.insert]
    exact inserted_branch hh hv hdel hgen hslot hback hins ht' hhash hnt hchildren

/-- **`insert_at` refines the trie's insertion.** On a subtree the cache holds
at depth `d` on the path of a key, `insert_at` never fails and leaves, under
the same path at `version`, the subtree of `RadixTrie.insert`; only the root
may be empty. The induction is on the subtree; each case is one of the
lemmas above. -/
theorem wp_insertAt {key : HashValue} (hkey : key.val < 2 ^ 256) (value : V) {version : UInt64} :
    ∀ (t : Trie V) {d : ℕ} {nodeKey : NodeType.NodeKey} {tc : TreeCache V},
      nodeKey.nibblePath.nibbleList = (HashValue.nibbles key).take d → d ≤ 64 →
      RadixTrie.WellFormed HashValue.nibble 64 t d → RadixTrie.AllLeaves (fun k : HashValue => k.val < 2 ^ 256) t →
      RadixTrie.Agrees HashValue.nibble key d t → (t = .empty → d = 0) → Fresh reader version tc →
      Holds reader valueHash leafHash node placeholder tc t nodeKey →
      wp (insertAt reader valueHash leafHash node placeholder leafCountMigration nodeKey version (keyIter key d) value)
        (fun r tc' => Inserted reader valueHash leafHash node placeholder version tc t nodeKey
          (RadixTrie.insert HashValue.nibble 64 key value t d) r tc') R tc
  | .empty, d, nodeKey, tc, hpath, _, _, _, _, hroot, hf, hh => by
    obtain rfl := hroot rfl
    refine wp_insertAt_empty reader valueHash leafHash node placeholder leafCountMigration hkey value ?_ hf hh
    rw [← length_nibbleList, hpath, List.take_zero, List.length_nil]
  | .leaf k' v', d, nodeKey, tc, hpath, hd, _, hk', hagree, _, hf, hh =>
    wp_insertAt_leaf reader valueHash leafHash node placeholder leafCountMigration hkey hk' value v' hd hpath hagree hf hh
  | .branch c, d, nodeKey, tc, hpath, _, hwf, hkeys, hagree, _, hf, hh => by
    obtain ⟨hdL, hchildren⟩ := hwf
    refine wp_insertAt_branch reader valueHash leafHash node placeholder leafCountMigration hkey value hdL hpath hf hh
      fun hne hpath' hf₁ hh₁ => ?_
    exact wp_insertAt hkey value (c _) hpath' (by omega) (hchildren _).2 (hkeys _)
      (RadixTrie.agrees_child HashValue.nibble hagree (hchildren _).1) (fun h => absurd h hne) hf₁ hh₁

end Writer

end Diem.JellyfishMerkle.Tree
