import Mathlib
import Diem.Storage.JellyfishMerkle.Tree.Insert

/-!
# Writing versions

`put` inserts one key from the root of the cache. `put_value_sets` writes each
value set at its own version, `first_version + idx`, one `put` after the other,
and freezes the version before the next one. The frozen cache becomes the
`TreeUpdateBatch`: the nodes of every version written, and the stale node index.
`insertAll` is the trie a value set leaves and `trieAt` the trie after the first
`j` value sets of a run; `runRoot` names the root of each.

The writes of one version insert into its trie and leave a cache that keeps
track of what the version wrote and made stale (`wp_putValueSet`), and `freeze`
changes no node the cache reads (`wp_freeze`). Over the whole run the cache keeps
the invariant `Run` (`wp_putValueSetsLoop`): the trie of each version stays at
its root, on nodes no later version touches, and the stale index holds, for each
version, exactly the nodes of older versions that the trie before it reached and
its own trie does not. Read off the batch `put_value_sets` returns, over the
store it is written to: each version's root holds its trie
(**`putValueSets_stores_versions`**), the stale index is exact
(**`putValueSets_staleNodeIndex`**), a stale node is reached by no later version
(**`putValueSets_stale_unreachable`**), and the batch writes only keys the store
does not have (`putValueSets_nodeBatch_new`).
-/

namespace Diem.JellyfishMerkle.Tree

open EStateM

/-! ## The tries of a run -/

section Tries

variable {V : Type}

/-- The trie once the keys of `valueSet` are inserted into `t` in order. -/
def insertAll (t : Trie V) (valueSet : List (HashValue × V)) : Trie V :=
  valueSet.foldl (fun t kv => RadixTrie.insert HashValue.nibble 64 kv.1 kv.2 t 0) t

/-- The trie after the first `j` value sets of a run from `t₀`. -/
def trieAt (t₀ : Trie V) (valueSets : List (List (HashValue × V))) (j : ℕ) : Trie V :=
  (valueSets.take j).foldl insertAll t₀

@[simp] theorem trieAt_zero (t₀ : Trie V) (valueSets : List (List (HashValue × V))) : trieAt t₀ valueSets 0 = t₀ := by
  rw [trieAt, List.take_zero, List.foldl_nil]

theorem trieAt_succ (t₀ : Trie V) {valueSets : List (List (HashValue × V))} {j : ℕ} (hj : j < valueSets.length) :
    trieAt t₀ valueSets (j + 1) = insertAll (trieAt t₀ valueSets j) valueSets[j] := by
  rw [trieAt, trieAt, List.take_add_one, List.getElem?_eq_getElem hj, Option.toList_some, List.foldl_append,
    List.foldl_cons, List.foldl_nil]

/-- `write_node_batch` of a tree store: the store once the nodes of a batch
are written over its own. -/
def writeNodeBatch (reader : TreeReader V) (nodeBatch : NodeBatch V) : TreeReader V :=
  fun k => (nodeBatch.lookup k).or (reader k)

/-- The root of the trie after `j` value sets: the root the run starts from,
then the empty path at the version of the last set. -/
def runRoot (root₀ : NodeType.NodeKey) (first : UInt64) : ℕ → NodeType.NodeKey
  | 0 => root₀
  | j + 1 => NodeType.NodeKey.newEmptyPath (first + j.toUInt64)

end Tries

/-! ## The versions of a run -/

section Versions

variable {first : UInt64} {n i j : ℕ}

theorem toNat_version (h : first.toNat + i < 2 ^ 64) : (first + i.toUInt64).toNat = first.toNat + i := by
  rw [UInt64.toNat_add, Nat.toUInt64_eq, UInt64.toNat_ofNat', Nat.mod_eq_of_lt (a := i) (by omega), Nat.mod_eq_of_lt h]

/-- The versions of a run that does not pass `u64::MAX` are distinct. -/
theorem version_injective (hn : first.toNat + n ≤ 2 ^ 64) (hi : i < n) (hj : j < n)
    (h : first + i.toUInt64 = first + j.toUInt64) : i = j := by
  have := congrArg UInt64.toNat h
  rw [toNat_version (by omega), toNat_version (by omega)] at this
  omega

theorem version_succ (first : UInt64) (i : ℕ) : first + i.toUInt64 + 1 = first + (i + 1).toUInt64 := by
  simp [Nat.toUInt64_eq, UInt64.ofNat_add, add_assoc]

/-- No version of the run from index `m` on, of the `n` it writes, is the
version of `k`: no later write of the run touches `k`. -/
def Settled (first : UInt64) (n m : ℕ) (k : NodeType.NodeKey) : Prop :=
  ∀ i, m ≤ i → i < n → k.version ≠ first + i.toUInt64

theorem Settled.mono {m m' : ℕ} {k : NodeType.NodeKey} (h : Settled first n m k) (hm : m ≤ m') : Settled first n m' k :=
  fun i hi hin => h i (hm.trans hi) hin

/-- A node of the version of index `m` is settled after it. -/
theorem settled_of_version (hn : first.toNat + n ≤ 2 ^ 64) {m : ℕ} (hm : m < n) {k : NodeType.NodeKey}
    (hk : k.version = first + m.toUInt64) : Settled first n (m + 1) k := fun i hi hin h =>
  absurd (version_injective hn hm hin (hk.symm.trans h)) (by omega)

end Versions

/-! ## One version -/

section Put

variable {V : Type} (reader : TreeReader V) (valueHash : V → HashValue) (leafHash node : HashValue → HashValue → HashValue)
  (placeholder : HashValue) (leafCountMigration : Bool) (version : UInt64)

/-- The cache ready to write `version` at its root, which holds `t`. -/
structure Writing (tc : TreeCache V) (t : Trie V) : Prop where
  root : tc.rootNodeKey.nibblePath.nibbleList = []
  holds : Holds reader valueHash leafHash node placeholder tc t tc.rootNodeKey
  fresh : Fresh reader version tc
  wellFormed : RadixTrie.WellFormed HashValue.nibble 64 t 0
  keys : RadixTrie.AllLeaves (fun k : HashValue => k.val < 2 ^ 256) t

/-- What the writes of `version` so far made of `tc₀`, whose root held `t₀`:
the root is at `version` and holds `t`; nodes of other versions are as they
were; the trie reaches nodes of `version` and nodes `t₀` reached; and the
nodes of other versions `t₀` reached and `t` does not are stale. -/
structure Writes (tc₀ : TreeCache V) (t₀ : Trie V) (tc : TreeCache V) (t : Trie V) : Prop where
  rootNodeKey : tc.rootNodeKey = ⟨version, tc₀.rootNodeKey.nibblePath⟩
  holds : Holds reader valueHash leafHash node placeholder tc t tc.rootNodeKey
  fresh : Fresh reader version tc
  wellFormed : RadixTrie.WellFormed HashValue.nibble 64 t 0
  keys : RadixTrie.AllLeaves (fun k : HashValue => k.val < 2 ^ 256) t
  ne_empty : t ≠ .empty
  older : ∀ k, k.version ≠ version → tc.view reader k = tc₀.view reader k
  reach : ∀ k, Reach (tc.view reader) t tc.rootNodeKey k →
    k.version = version ∨ (t₀ ≠ .empty ∧ Reach (tc₀.view reader) t₀ tc₀.rootNodeKey k)
  stale : ∀ k, k ∈ tc.staleNodeIndexCache ↔ k ∈ tc₀.staleNodeIndexCache ∨
    (t₀ ≠ .empty ∧ k.version ≠ version ∧ Reach (tc₀.view reader) t₀ tc₀.rootNodeKey k ∧
      ¬ Reach (tc.view reader) t tc.rootNodeKey k)
  frozenCache : tc.frozenCache = tc₀.frozenCache
  nextVersion : tc.nextVersion = tc₀.nextVersion

variable {reader valueHash leafHash node placeholder version}
variable {tc₀ tc tc' : TreeCache V} {t₀ t t' : Trie V} {R : Failure → TreeCache V → Prop}

/-- Setting the root key changes no node and no stale key. -/
theorem Holds.withRootNodeKey {nodeKey : NodeType.NodeKey} (h : Holds reader valueHash leafHash node placeholder tc t nodeKey)
    (rootNodeKey : NodeType.NodeKey) :
    Holds reader valueHash leafHash node placeholder { tc with rootNodeKey := rootNodeKey } t nodeKey :=
  ⟨h.stored, h.nodeCache, h.stale⟩

theorem Fresh.withRootNodeKey (h : Fresh reader version tc) (rootNodeKey : NodeType.NodeKey) :
    Fresh reader version { tc with rootNodeKey := rootNodeKey } :=
  ⟨h.nodeCache, h.frozen, h.reader, h.stale⟩

theorem Writes.writing (hw : Writes reader valueHash leafHash node placeholder version tc₀ t₀ tc t)
    (hroot : tc₀.rootNodeKey.nibblePath.nibbleList = []) : Writing reader valueHash leafHash node placeholder version tc t where
  root := by rw [hw.rootNodeKey]; exact hroot
  holds := hw.holds
  fresh := hw.fresh
  wellFormed := hw.wellFormed
  keys := hw.keys

/-- Writes of one version compose. -/
theorem Writes.trans (hw : Writes reader valueHash leafHash node placeholder version tc₀ t₀ tc t)
    (hw' : Writes reader valueHash leafHash node placeholder version tc t tc' t') :
    Writes reader valueHash leafHash node placeholder version tc₀ t₀ tc' t' where
  rootNodeKey := by rw [hw'.rootNodeKey, hw.rootNodeKey]
  holds := hw'.holds
  fresh := hw'.fresh
  wellFormed := hw'.wellFormed
  keys := hw'.keys
  ne_empty := hw'.ne_empty
  older k hk := (hw'.older k hk).trans (hw.older k hk)
  reach k hk := by
    rcases hw'.reach k hk with h | ⟨-, h⟩
    · exact .inl h
    · exact hw.reach k h
  stale k := by
    rw [hw'.stale, hw.stale]
    -- a node of another version `t'` reaches, `t` reached
    have hback : k.version ≠ version → Reach (tc'.view reader) t' tc'.rootNodeKey k →
        Reach (tc.view reader) t tc.rootNodeKey k := fun hv hr => by
      rcases hw'.reach k hr with h | ⟨-, h⟩
      · exact absurd h hv
      · exact h
    constructor
    · rintro ((h | ⟨ht₀, hv, hr₀, hr⟩) | ⟨-, hv, hr, hr'⟩)
      · exact .inl h
      · exact .inr ⟨ht₀, hv, hr₀, fun hr' => hr (hback hv hr')⟩
      · rcases hw.reach k hr with h | ⟨ht₀, hr₀⟩
        · exact absurd h hv
        · exact .inr ⟨ht₀, hv, hr₀, hr'⟩
    · rintro (h | ⟨ht₀, hv, hr₀, hr'⟩)
      · exact .inl (.inl h)
      · by_cases hr : Reach (tc.view reader) t tc.rootNodeKey k
        · exact .inr ⟨hw.ne_empty, hv, hr, hr'⟩
        · exact .inl (.inr ⟨ht₀, hv, hr₀, hr⟩)
  frozenCache := hw'.frozenCache.trans hw.frozenCache
  nextVersion := hw'.nextVersion.trans hw.nextVersion

/-- An insertion at the root, with the root key set to the new root, is a
write of the version. -/
theorem Writing.writes {key : HashValue} (hkey : key.val < 2 ^ 256) {value : V}
    (hw : Writing reader valueHash leafHash node placeholder version tc t) {r : NodeType.NodeKey × Node V}
    (hins : Inserted reader valueHash leafHash node placeholder version tc t tc.rootNodeKey
      (RadixTrie.insert HashValue.nibble 64 key value t 0) r tc') :
    Writes reader valueHash leafHash node placeholder version tc t { tc' with rootNodeKey := r.1 }
      (RadixTrie.insert HashValue.nibble 64 key value t 0) where
  rootNodeKey := hins.key
  holds := hins.holds.withRootNodeKey r.1
  fresh := hins.fresh.withRootNodeKey r.1
  wellFormed := RadixTrie.wellFormed_insert HashValue.nibble 64 digitsDetermine_nibble hkey hw.wellFormed hw.keys
    (hw.keys.mono fun _ _ j hj => absurd hj (Nat.not_lt_zero j)) (Nat.zero_le _)
  keys := RadixTrie.allLeaves_insert HashValue.nibble 64 hkey hw.keys
  ne_empty := RadixTrie.insert_ne_empty HashValue.nibble 64 key value t 0
  older := hins.older
  reach k hk := by
    rcases hins.reach k hk with h | h
    · exact .inl h
    by_cases ht : t = .empty
    · -- into the empty trie: the new trie is the new leaf alone, of `version`
      subst ht
      change k = r.1 at hk
      rw [hk, hins.key]
      exact .inl rfl
    · exact .inr ⟨ht, h⟩
  stale := hins.stale
  frozenCache := hins.frozenCache
  nextVersion := hins.nextVersion

/-- **`put` inserts into the trie of the version.** -/
theorem wp_put {key : HashValue} (hkey : key.val < 2 ^ 256) (value : V)
    (hw : Writing reader valueHash leafHash node placeholder version tc t) :
    wp (put reader valueHash leafHash node placeholder leafCountMigration key value version)
      (fun _ tc' => Writes reader valueHash leafHash node placeholder version tc t tc'
        (RadixTrie.insert HashValue.nibble 64 key value t 0)) R tc := by
  unfold put
  simp only [TreeCache.getRootNodeKey, wp_bind, wp_get, wp_pure]
  rw [nibbles_eq_keyIter]
  refine wp_mono (wp_insertAt reader valueHash leafHash node placeholder leafCountMigration hkey value t ?_ (Nat.zero_le _)
    hw.wellFormed hw.keys (hw.keys.mono fun _ _ j hj => absurd hj (Nat.not_lt_zero j)) (fun _ => rfl) hw.fresh hw.holds)
    (fun r tc' hins => ?_) (fun _ _ h => h)
  · rw [hw.root, List.take_zero]
  · obtain ⟨newRootNodeKey, newRootNode⟩ := r
    simp only [TreeCache.setRootNodeKey, wp_modify]
    exact hw.writes hkey hins

theorem Writes.put (hw : Writes reader valueHash leafHash node placeholder version tc₀ t₀ tc t)
    (hroot : tc₀.rootNodeKey.nibblePath.nibbleList = []) {key : HashValue} (hkey : key.val < 2 ^ 256) (value : V) :
    wp (put reader valueHash leafHash node placeholder leafCountMigration key value version)
      (fun _ tc' => Writes reader valueHash leafHash node placeholder version tc₀ t₀ tc'
        (RadixTrie.insert HashValue.nibble 64 key value t 0)) R tc :=
  wp_mono (wp_put leafCountMigration hkey value (hw.writing hroot))
    (fun _ _ h => hw.trans h) (fun _ _ h => h)

/-- **The writes of a value set**, one `put` after the other, insert its keys
in order. -/
theorem wp_putValueSet {valueSet : List (HashValue × V)} (hne : valueSet ≠ [])
    (hkeys : ∀ kv ∈ valueSet, kv.1.val < 2 ^ 256) (hw : Writing reader valueHash leafHash node placeholder version tc t) :
    wp (valueSet.forM fun (key, value) => put reader valueHash leafHash node placeholder leafCountMigration key value version)
      (fun _ tc' => Writes reader valueHash leafHash node placeholder version tc t tc' (insertAll t valueSet)) R tc := by
  obtain ⟨⟨key, value⟩, rest, rfl⟩ := List.exists_cons_of_ne_nil hne
  change wp (put reader valueHash leafHash node placeholder leafCountMigration key value version >>= fun _ =>
    rest.forM fun (key, value) => put reader valueHash leafHash node placeholder leafCountMigration key value version) _ R tc
  rw [wp_bind]
  refine wp_mono (wp_put leafCountMigration (hkeys _ List.mem_cons_self) value hw)
    (fun _ tc₁ h₁ => ?_) (fun _ _ h => h)
  refine wp_forM (fun t' tc' => Writes reader valueHash leafHash node placeholder version tc t tc' t')
    (fun t kv => RadixTrie.insert HashValue.nibble 64 kv.1 kv.2 t 0) rest (fun t' kv tc' hkv hw' => ?_) _ h₁
  obtain ⟨key', value'⟩ := kv
  exact hw'.put leafCountMigration hw.root (hkeys _ (List.mem_cons_of_mem _ hkv)) value'

end Put

/-! ## Freezing a version -/

section Freeze

variable {V : Type} (reader : TreeReader V) (leafHash node : HashValue → HashValue → HashValue) (placeholder : HashValue)

/-- The cache `freeze` leaves, the root of the version hashing to `rootHash`. -/
def TreeCache.frozenWith (tc : TreeCache V) (rootHash : HashValue) : TreeCache V :=
  { tc with
    frozenCache := {
      rootHashes := tc.frozenCache.rootHashes ++ [rootHash]
      nodeStats := tc.frozenCache.nodeStats ++
        [⟨tc.nodeCache.entries.length, tc.numNewLeaves, tc.staleNodeIndexCache.card, tc.numStaleLeaves⟩]
      nodeCache := tc.nodeCache ∪ tc.frozenCache.nodeCache
      staleNodeIndexCache := tc.frozenCache.staleNodeIndexCache ∪
        tc.staleNodeIndexCache.image fun nodeKey => ⟨tc.nextVersion, nodeKey⟩ }
    nodeCache := ∅
    staleNodeIndexCache := ∅
    numStaleLeaves := 0
    numNewLeaves := 0
    nextVersion := tc.nextVersion + 1 }

variable (tc : TreeCache V) (rootHash : HashValue)

@[simp] theorem frozenWith_nodeCache : (tc.frozenWith rootHash).nodeCache = ∅ := rfl

@[simp] theorem frozenWith_staleNodeIndexCache : (tc.frozenWith rootHash).staleNodeIndexCache = ∅ := rfl

@[simp] theorem frozenWith_rootNodeKey : (tc.frozenWith rootHash).rootNodeKey = tc.rootNodeKey := rfl

@[simp] theorem frozenWith_nextVersion : (tc.frozenWith rootHash).nextVersion = tc.nextVersion + 1 := rfl

@[simp] theorem frozenWith_frozen_nodeCache :
    (tc.frozenWith rootHash).frozenCache.nodeCache = tc.nodeCache ∪ tc.frozenCache.nodeCache := rfl

@[simp] theorem frozenWith_frozen_staleNodeIndexCache :
    (tc.frozenWith rootHash).frozenCache.staleNodeIndexCache =
      tc.frozenCache.staleNodeIndexCache ∪ tc.staleNodeIndexCache.image fun nodeKey => ⟨tc.nextVersion, nodeKey⟩ := rfl

@[simp] theorem frozenWith_rootHashes :
    (tc.frozenWith rootHash).frozenCache.rootHashes = tc.frozenCache.rootHashes ++ [rootHash] := rfl

/-- **Freezing changes no node the cache reads**: the nodes of `node_cache`
are read from the frozen cache instead. -/
@[simp] theorem view_frozenWith : (tc.frozenWith rootHash).view reader = tc.view reader := by
  funext k
  unfold TreeCache.view
  rw [frozenWith_nodeCache, AList.lookup_empty, Option.none_or, frozenWith_frozen_nodeCache]
  by_cases hk : k ∈ tc.nodeCache
  · obtain ⟨nd, hnd⟩ := Option.isSome_iff_exists.1 (AList.lookup_isSome.2 hk)
    rw [AList.lookup_union_left hk, hnd]
    rfl
  · rw [AList.lookup_union_right hk, AList.lookup_eq_none.2 hk, Option.none_or]

/-- Every node hashes. -/
theorem Node.hash_eq_ok (nd : Node V) : ∃ hash, nd.hash leafHash node placeholder = .ok hash := by
  cases nd with
  | Null => exact ⟨_, rfl⟩
  | Internal n => exact ⟨_, hash_eq_rangeHash node placeholder n⟩
  | Leaf l => exact ⟨_, rfl⟩

variable {tc} {Q : Unit → TreeCache V → Prop} {R : Failure → TreeCache V → Prop}

/-- **`freeze` of a cache whose root is there** closes the version. -/
theorem wp_freeze {nd : Node V} (hnode : tc.view reader tc.rootNodeKey = some nd)
    (hhash : nd.hash leafHash node placeholder = .ok rootHash) (hQ : Q () (tc.frozenWith rootHash)) :
    wp (TreeCache.freeze reader leafHash node placeholder) Q R tc := by
  unfold TreeCache.freeze
  simp only [TreeCache.getRootNodeKey, wp_bind, wp_get, wp_pure, wp_tryCatch]
  rw [getNode_spec, hnode]
  simp only [wp_liftExcept, hhash, wp_modify]
  exact hQ

end Freeze

/-! ## The cache a run starts from -/

section New

variable {V : Type} (reader : TreeReader V) (first : UInt64)

@[simp] theorem new_nextVersion : (TreeCache.new reader first).nextVersion = first := by
  unfold TreeCache.new
  split_ifs <;> (try split) <;> rfl

@[simp] theorem new_staleNodeIndexCache : (TreeCache.new reader first).staleNodeIndexCache = ∅ := by
  unfold TreeCache.new
  split_ifs <;> (try split) <;> rfl

@[simp] theorem new_frozenCache : (TreeCache.new reader first).frozenCache = FrozenTreeCache.new := by
  unfold TreeCache.new
  split_ifs <;> (try split) <;> rfl

theorem new_rootNodeKey_nibbleList : (TreeCache.new reader first).rootNodeKey.nibblePath.nibbleList = [] := by
  unfold TreeCache.new
  split_ifs <;> (try split) <;> exact NibblePath.nibbleList_new_nil (Nat.zero_le _)

/-- The one node `node_cache` starts with: the `Null` root of version `0` of
an empty store. -/
theorem new_nodeCache {k : NodeType.NodeKey} (hk : ((TreeCache.new reader first).nodeCache.lookup k).isSome) :
    first = 0 ∧ k = NodeType.NodeKey.newEmptyPath 0 ∧ (TreeCache.new reader first).rootNodeKey = k ∧
      (TreeCache.new reader first).view reader k = some .Null := by
  unfold TreeCache.new at hk ⊢
  split_ifs at hk ⊢ with hfirst
  · revert hk
    split
    · simp
    · -- the null root put in `node_cache`
      intro hk
      have hkr : k = NodeType.NodeKey.newEmptyPath 0 := by
        by_contra hne
        change (AList.lookup k ((∅ : NodeBatch V).insert _ Node.Null)).isSome at hk
        rw [AList.lookup_insert_ne hne, AList.lookup_empty] at hk
        cases hk
      subst hkr
      refine ⟨hfirst, rfl, rfl, ?_⟩
      change (AList.lookup _ ((∅ : NodeBatch V).insert (NodeType.NodeKey.newEmptyPath 0) Node.Null)).or _ = _
      rw [AList.lookup_insert]
      rfl
  · simp at hk

end New

/-! ## The run -/

section Run

variable {V : Type} (reader : TreeReader V) (valueHash : V → HashValue) (leafHash node : HashValue → HashValue → HashValue)
  (placeholder : HashValue) (leafCountMigration : Bool) (first : UInt64) (n : ℕ)

/-- The trie `t` of the version of index `m` is at `root`, on nodes no write
of the run from index `m` on touches. -/
structure Kept (view : View V) (t : Trie V) (root : NodeType.NodeKey) (m : ℕ) : Prop where
  stored : Stored valueHash leafHash node placeholder view t root
  settled : ∀ k, Reach view t root k → Settled first n m k

variable {valueHash leafHash node placeholder first n}

/-- A kept trie stays, and reaches the same nodes, whatever a later version
writes. -/
theorem Kept.congr {view view' : View V} {t : Trie V} {root : NodeType.NodeKey} {m i : ℕ}
    (hk : Kept valueHash leafHash node placeholder first n view t root m) (hmi : m ≤ i) (hi : i < n)
    (hview : ∀ k, k.version ≠ first + i.toUInt64 → view' k = view k) :
    Kept valueHash leafHash node placeholder first n view' t root m ∧ ∀ k, Reach view' t root k ↔ Reach view t root k := by
  have hr : ∀ k, Reach view t root k → view' k = view k := fun k hk' => hview k (hk.settled k hk' i hmi hi)
  have hiff := reach_congr_of_reach hr
  exact ⟨⟨stored_congr_of_reach valueHash leafHash node placeholder hr hk.stored,
    fun k hk' => hk.settled k ((hiff k).1 hk')⟩, hiff⟩

theorem runRoot_nibbleList {root₀ : NodeType.NodeKey} (hroot₀ : root₀.nibblePath.nibbleList = []) :
    ∀ j, (runRoot root₀ first j).nibblePath.nibbleList = []
  | 0 => hroot₀
  | _ + 1 => NibblePath.nibbleList_new_nil (Nat.zero_le _)

/-- The root a version's writes leave is the root of the version. -/
theorem runRoot_succ {root₀ : NodeType.NodeKey} (hroot₀ : root₀.nibblePath.nibbleList = []) (i j : ℕ) :
    (⟨first + j.toUInt64, (runRoot root₀ first i).nibblePath⟩ : NodeType.NodeKey) = runRoot root₀ first (j + 1) := by
  rw [runRoot, NodeType.NodeKey.newEmptyPath]
  congr 1
  exact NibblePath.eq_of_nibbleList_eq (by rw [runRoot_nibbleList hroot₀, NibblePath.nibbleList_new_nil])

variable (valueHash leafHash node placeholder first)
variable (valueSets : List (List (HashValue × V))) (root₀ : NodeType.NodeKey) (t₀ : Trie V)

/-- **The invariant of `put_value_sets`**, before the value set of index
`idx`, in a run from `t₀` at `root₀`:

* the cache is at the root of the last version, with its trie, and with
  nothing in `node_cache` but the `Null` root it may start with;
* the frozen nodes are of the versions written;
* the trie of each version written stays at its root, on nodes no later
  version touches (`Kept`), and reaches its own nodes and nodes the trie
  before it reached;
* the root hashes are those of the roots of the versions written;
* the stale index holds, for each version written, the nodes of older
  versions the trie before it reached and its trie does not. -/
structure Run (idx : ℕ) (tc : TreeCache V) : Prop where
  nextVersion : tc.nextVersion = first + idx.toUInt64
  rootNodeKey : tc.rootNodeKey = runRoot root₀ first idx
  holds : Holds reader valueHash leafHash node placeholder tc (trieAt t₀ valueSets idx) tc.rootNodeKey
  wellFormed : RadixTrie.WellFormed HashValue.nibble 64 (trieAt t₀ valueSets idx) 0
  keys : RadixTrie.AllLeaves (fun k : HashValue => k.val < 2 ^ 256) (trieAt t₀ valueSets idx)
  nodeCache : ∀ k, (tc.nodeCache.lookup k).isSome → idx = 0 ∧ k.version = first
  staleNodeIndexCache : tc.staleNodeIndexCache = ∅
  frozen : ∀ k, (tc.frozenCache.nodeCache.lookup k).isSome → ∃ j < idx, k.version = first + j.toUInt64
  kept : ∀ j ≤ idx, (0 < j ∨ t₀ ≠ .empty) → Kept valueHash leafHash node placeholder first valueSets.length
    (tc.view reader) (trieAt t₀ valueSets j) (runRoot root₀ first j) j
  grows : ∀ j < idx, ∀ k, Reach (tc.view reader) (trieAt t₀ valueSets (j + 1)) (runRoot root₀ first (j + 1)) k →
    k.version = first + j.toUInt64 ∨
      (trieAt t₀ valueSets j ≠ .empty ∧ Reach (tc.view reader) (trieAt t₀ valueSets j) (runRoot root₀ first j) k)
  rootHashes : tc.frozenCache.rootHashes.length = idx
  rootHash : ∀ j hash, tc.frozenCache.rootHashes[j]? = some hash →
    ∃ nd, tc.view reader (runRoot root₀ first (j + 1)) = some nd ∧ nd.hash leafHash node placeholder = .ok hash
  staleIndex : ∀ s, s ∈ tc.frozenCache.staleNodeIndexCache ↔ ∃ j < idx, s.staleSinceVersion = first + j.toUInt64 ∧
    trieAt t₀ valueSets j ≠ .empty ∧ s.nodeKey.version ≠ first + j.toUInt64 ∧
    Reach (tc.view reader) (trieAt t₀ valueSets j) (runRoot root₀ first j) s.nodeKey ∧
    ¬ Reach (tc.view reader) (trieAt t₀ valueSets (j + 1)) (runRoot root₀ first (j + 1)) s.nodeKey

variable {reader valueHash leafHash node placeholder first valueSets root₀ t₀}

/-- A trie of the run that is not empty is one after a value set, or the
trie it starts from. -/
theorem pos_or_ne_empty {j : ℕ} (ht : trieAt t₀ valueSets j ≠ .empty) : 0 < j ∨ t₀ ≠ .empty := by
  rcases Nat.eq_zero_or_pos j with rfl | h
  · exact .inr (by simpa using ht)
  · exact .inl h

/-- Before a version of the run, the cache is ready to write it. -/
theorem Run.writing {idx : ℕ} {tc : TreeCache V}
    (hrun : Run reader valueHash leafHash node placeholder first valueSets root₀ t₀ idx tc) (hidx : idx < valueSets.length)
    (hfirst : first.toNat + valueSets.length ≤ 2 ^ 64)
    (hpending : ∀ i < valueSets.length, ∀ k, k.version = first + i.toUInt64 → reader k = none)
    (hroot₀ : root₀.nibblePath.nibbleList = []) :
    Writing reader valueHash leafHash node placeholder (first + idx.toUInt64) tc (trieAt t₀ valueSets idx) where
  root := by rw [hrun.rootNodeKey]; exact runRoot_nibbleList hroot₀ idx
  holds := hrun.holds
  fresh := {
    nodeCache := fun k hk => by
      obtain ⟨rfl, hv⟩ := hrun.nodeCache k hk
      simpa using hv
    frozen := fun k hk => by
      by_contra hne
      obtain ⟨j, hj, hv⟩ := hrun.frozen k (Option.ne_none_iff_isSome.1 hne)
      exact absurd (version_injective hfirst (hj.trans hidx) hidx (hv.symm.trans hk)) (by omega)
    reader := fun k hk => hpending idx hidx k hk
    stale := fun k hk => by simp [hrun.staleNodeIndexCache] at hk }
  wellFormed := hrun.wellFormed
  keys := hrun.keys

/-- The run starts from the cache `TreeCache::new` makes over a store that
holds `t₀` at its root. -/
theorem run_new (hstored : Stored valueHash leafHash node placeholder ((TreeCache.new reader first).view reader) t₀
      (TreeCache.new reader first).rootNodeKey)
    (hwf : RadixTrie.WellFormed HashValue.nibble 64 t₀ 0) (hkeys₀ : RadixTrie.AllLeaves (fun k : HashValue => k.val < 2 ^ 256) t₀)
    (hpending : ∀ i < valueSets.length, ∀ k, k.version = first + i.toUInt64 → reader k = none) :
    Run reader valueHash leafHash node placeholder first valueSets (TreeCache.new reader first).rootNodeKey t₀ 0
      (TreeCache.new reader first) where
  nextVersion := by simp
  rootNodeKey := rfl
  holds := {
    stored := hstored
    nodeCache := fun k _ hk => by
      obtain ⟨-, -, hroot, -⟩ := new_nodeCache reader first hk
      rw [← hroot]
      exact reach_self _ _
    stale := fun k hk => by simp at hk }
  wellFormed := hwf
  keys := hkeys₀
  nodeCache k hk := by
    obtain ⟨hfirst, rfl, -, -⟩ := new_nodeCache reader first hk
    exact ⟨rfl, hfirst.symm⟩
  staleNodeIndexCache := new_staleNodeIndexCache reader first
  frozen k hk := by simp [FrozenTreeCache.new] at hk
  kept j hj hne := by
    obtain rfl : j = 0 := Nat.le_zero.1 hj
    have ht₀ : t₀ ≠ .empty := hne.resolve_left (lt_irrefl 0)
    refine ⟨hstored, fun k hk i _ hi hv => ?_⟩
    have hsome := hstored.view_isSome valueHash leafHash node placeholder hk
    by_cases hnc : ((TreeCache.new reader first).nodeCache.lookup k).isSome
    · -- the `Null` root of an empty store holds no trie but the empty one
      obtain ⟨-, -, hroot, hnull⟩ := new_nodeCache reader first hnc
      rw [← hroot] at hnull
      exact (hstored.node_of_ne_empty valueHash leafHash node placeholder ht₀ hnull).1 rfl
    · -- a node of the store, of no version the run writes
      rw [Bool.not_eq_true, Option.isSome_eq_false_iff, Option.isNone_iff_eq_none] at hnc
      rw [TreeCache.view, hnc, new_frozenCache, Option.none_or] at hsome
      simp only [FrozenTreeCache.new, AList.lookup_empty, Option.none_or] at hsome
      rw [hpending i hi k hv] at hsome
      cases hsome
  grows j hj := absurd hj (Nat.not_lt_zero j)
  rootHashes := by simp [FrozenTreeCache.new]
  rootHash j hash hj := by simp [FrozenTreeCache.new] at hj
  staleIndex s := by simp [FrozenTreeCache.new]

section Next

variable {idx : ℕ} {tc tc₁ : TreeCache V}
  (hrun : Run reader valueHash leafHash node placeholder first valueSets root₀ t₀ idx tc)
  (hw : Writes reader valueHash leafHash node placeholder (first + idx.toUInt64) tc (trieAt t₀ valueSets idx) tc₁
    (trieAt t₀ valueSets (idx + 1)))
include hrun hw

/-- The tries of the versions written reach the same nodes after the writes
of the next one. -/
theorem Run.reach_iff_of_writes (hidx : idx < valueSets.length) {j : ℕ} (hj : j ≤ idx) (k : NodeType.NodeKey) :
    Reach (tc₁.view reader) (trieAt t₀ valueSets j) (runRoot root₀ first j) k ↔
      Reach (tc.view reader) (trieAt t₀ valueSets j) (runRoot root₀ first j) k := by
  by_cases hne : 0 < j ∨ t₀ ≠ .empty
  · exact ((hrun.kept j hj hne).congr hj hidx hw.older).2 k
  · -- the empty trie the run may start from reaches its root alone
    rw [not_or, not_lt, not_not] at hne
    obtain ⟨hj0, ht₀⟩ := hne
    obtain rfl : j = 0 := by omega
    rw [trieAt_zero, ht₀]
    exact Iff.rfl

theorem Run.root_of_writes (hroot₀ : root₀.nibblePath.nibbleList = []) :
    tc₁.rootNodeKey = runRoot root₀ first (idx + 1) := by
  rw [hw.rootNodeKey, hrun.rootNodeKey]
  exact runRoot_succ hroot₀ idx idx

/-- The trie of the new version is kept: its nodes are of its version, or
nodes the trie before it reached. -/
theorem Run.kept_succ (hidx : idx < valueSets.length) (hfirst : first.toNat + valueSets.length ≤ 2 ^ 64)
    (hroot₀ : root₀.nibblePath.nibbleList = []) :
    Kept valueHash leafHash node placeholder first valueSets.length (tc₁.view reader) (trieAt t₀ valueSets (idx + 1))
      (runRoot root₀ first (idx + 1)) (idx + 1) := by
  have hroot := hrun.root_of_writes hw hroot₀
  refine ⟨by rw [← hroot]; exact hw.holds.stored, fun k hk => ?_⟩
  rw [← hroot] at hk
  rcases hw.reach k hk with hv | ⟨ht, hr⟩
  · exact settled_of_version hfirst hidx hv
  · rw [hrun.rootNodeKey] at hr
    exact ((hrun.kept idx le_rfl (pos_or_ne_empty ht)).settled k hr).mono (Nat.le_succ idx)

theorem Run.grows_succ (hidx : idx < valueSets.length) (hroot₀ : root₀.nibblePath.nibbleList = []) :
    ∀ j < idx + 1, ∀ k, Reach (tc₁.view reader) (trieAt t₀ valueSets (j + 1)) (runRoot root₀ first (j + 1)) k →
      k.version = first + j.toUInt64 ∨
        (trieAt t₀ valueSets j ≠ .empty ∧ Reach (tc₁.view reader) (trieAt t₀ valueSets j) (runRoot root₀ first j) k) := by
  have hreach {j : ℕ} (hj : j ≤ idx) (k : NodeType.NodeKey) := hrun.reach_iff_of_writes hw hidx hj k
  intro j hj k hk
  rcases Nat.lt_succ_iff_lt_or_eq.1 hj with hj | rfl
  · -- an earlier version: both its tries are kept
    rw [hreach (by omega : j + 1 ≤ idx)] at hk
    rw [hreach hj.le]
    exact hrun.grows j hj k hk
  · rw [← hrun.root_of_writes hw hroot₀] at hk
    rcases hw.reach k hk with hv | ⟨ht, hr⟩
    · exact .inl hv
    · rw [hrun.rootNodeKey] at hr
      exact .inr ⟨ht, (hreach le_rfl k).2 hr⟩

theorem Run.rootHash_succ (hidx : idx < valueSets.length) (hfirst : first.toNat + valueSets.length ≤ 2 ^ 64)
    (hroot₀ : root₀.nibblePath.nibbleList = []) {nd : Node V} {rootHash : HashValue}
    (hnode : tc₁.view reader tc₁.rootNodeKey = some nd) (hhash : nd.hash leafHash node placeholder = .ok rootHash) :
    ∀ j hash, (tc₁.frozenCache.rootHashes ++ [rootHash])[j]? = some hash →
      ∃ nd, tc₁.view reader (runRoot root₀ first (j + 1)) = some nd ∧ nd.hash leafHash node placeholder = .ok hash := by
  intro j hash hj
  have hlen : tc₁.frozenCache.rootHashes.length = idx := by rw [hw.frozenCache]; exact hrun.rootHashes
  rcases lt_trichotomy j idx with hlt | rfl | hgt
  · rw [List.getElem?_append_left (by omega), hw.frozenCache] at hj
    obtain ⟨nd', hnd', hhash'⟩ := hrun.rootHash j hash hj
    refine ⟨nd', ?_, hhash'⟩
    have hv : (runRoot root₀ first (j + 1)).version ≠ first + j.toUInt64 → False := fun h => h rfl
    rw [hw.older _ fun h => absurd (version_injective hfirst (hlt.trans hidx) hidx (by_contra fun h' => hv fun _ => h' h))
      (by omega), hnd']
  · rw [List.getElem?_append_right (by omega), hlen, Nat.sub_self] at hj
    obtain rfl : rootHash = hash := by simpa using hj
    exact ⟨nd, by rw [← hrun.root_of_writes hw hroot₀]; exact hnode, hhash⟩
  · rw [List.getElem?_eq_none (by simp; omega)] at hj
    cases hj

theorem Run.staleIndex_succ (hidx : idx < valueSets.length) (hroot₀ : root₀.nibblePath.nibbleList = [])
    (s : StaleNodeIndex) :
    s ∈ tc₁.frozenCache.staleNodeIndexCache ∪ tc₁.staleNodeIndexCache.image (fun nodeKey => ⟨tc₁.nextVersion, nodeKey⟩) ↔
      ∃ j < idx + 1, s.staleSinceVersion = first + j.toUInt64 ∧ trieAt t₀ valueSets j ≠ .empty ∧
        s.nodeKey.version ≠ first + j.toUInt64 ∧
        Reach (tc₁.view reader) (trieAt t₀ valueSets j) (runRoot root₀ first j) s.nodeKey ∧
        ¬ Reach (tc₁.view reader) (trieAt t₀ valueSets (j + 1)) (runRoot root₀ first (j + 1)) s.nodeKey := by
  have hreach {j : ℕ} (hj : j ≤ idx) (k : NodeType.NodeKey) := hrun.reach_iff_of_writes hw hidx hj k
  have hroot := hrun.root_of_writes hw hroot₀
  rw [Finset.mem_union, hw.frozenCache, hrun.staleIndex, Nat.exists_lt_succ_right]
  refine or_congr (exists_congr fun j => and_congr_right fun hj => ?_) ?_
  · -- the entries of earlier versions, read through kept tries
    rw [hreach hj.le, hreach (by omega : j + 1 ≤ idx)]
  · -- the entries of this version: the stale keys of its writes
    rw [Finset.mem_image, hw.nextVersion, hrun.nextVersion]
    constructor
    · rintro ⟨k, hk, rfl⟩
      rcases (hw.stale k).1 hk with hk | ⟨ht, hv, hr, hr'⟩
      · simp [hrun.staleNodeIndexCache] at hk
      · rw [hrun.rootNodeKey] at hr
        rw [hroot] at hr'
        exact ⟨rfl, ht, hv, (hreach le_rfl k).2 hr, hr'⟩
    · rintro ⟨hs, ht, hv, hr, hr'⟩
      refine ⟨s.nodeKey, (hw.stale _).2 (.inr ⟨ht, hv, ?_, ?_⟩), ?_⟩
      · rw [hrun.rootNodeKey]
        exact (hreach le_rfl _).1 hr
      · rw [hroot]
        exact hr'
      · rw [← hs]

/-- **One version of the run**: its writes and `freeze` keep the invariant. -/
theorem Run.next (hidx : idx < valueSets.length) (hfirst : first.toNat + valueSets.length ≤ 2 ^ 64)
    (hroot₀ : root₀.nibblePath.nibbleList = []) {nd : Node V} {rootHash : HashValue}
    (hnode : tc₁.view reader tc₁.rootNodeKey = some nd) (hhash : nd.hash leafHash node placeholder = .ok rootHash) :
    Run reader valueHash leafHash node placeholder first valueSets root₀ t₀ (idx + 1) (tc₁.frozenWith rootHash) where
  nextVersion := by rw [frozenWith_nextVersion, hw.nextVersion, hrun.nextVersion, version_succ]
  rootNodeKey := by rw [frozenWith_rootNodeKey]; exact hrun.root_of_writes hw hroot₀
  holds := {
    stored := by rw [view_frozenWith]; exact hw.holds.stored
    nodeCache := fun k _ h => by simp at h
    stale := fun k hk => by simp at hk }
  wellFormed := hw.wellFormed
  keys := hw.keys
  nodeCache k h := by simp at h
  staleNodeIndexCache := rfl
  frozen k hk := by
    rw [frozenWith_frozen_nodeCache] at hk
    by_cases hkn : k ∈ tc₁.nodeCache
    · exact ⟨idx, Nat.lt_succ_self idx, hw.fresh.nodeCache k (AList.lookup_isSome.2 hkn)⟩
    · rw [AList.lookup_union_right hkn, hw.frozenCache] at hk
      obtain ⟨j, hj, hv⟩ := hrun.frozen k hk
      exact ⟨j, Nat.lt_succ_of_lt hj, hv⟩
  kept j hj hne := by
    rw [view_frozenWith]
    rcases Nat.le_succ_iff.1 hj with hj | rfl
    · exact ((hrun.kept j hj hne).congr hj hidx hw.older).1
    · exact hrun.kept_succ hw hidx hfirst hroot₀
  grows := by
    rw [view_frozenWith]
    exact hrun.grows_succ hw hidx hroot₀
  rootHashes := by rw [frozenWith_rootHashes, List.length_append, hw.frozenCache, hrun.rootHashes, List.length_singleton]
  rootHash := by
    rw [view_frozenWith, frozenWith_rootHashes]
    exact hrun.rootHash_succ hw hidx hfirst hroot₀ hnode hhash
  staleIndex s := by
    rw [view_frozenWith, frozenWith_frozen_staleNodeIndexCache]
    exact hrun.staleIndex_succ hw hidx hroot₀ s

end Next

/-! ### What the invariant gives -/

section Consequences

variable {idx : ℕ} {tc : TreeCache V} (hrun : Run reader valueHash leafHash node placeholder first valueSets root₀ t₀ idx tc)
include hrun

/-- After a version, the cache reads the frozen nodes over the store. -/
theorem Run.view_eq (hidx : 0 < idx) : tc.view reader = writeNodeBatch reader tc.frozenCache.nodeCache := by
  funext k
  have hnc : tc.nodeCache.lookup k = none := by
    by_contra hne
    exact absurd (hrun.nodeCache k (Option.ne_none_iff_isSome.1 hne)).1 (by omega)
  rw [TreeCache.view, hnc, Option.none_or]
  rfl

/-- **A node stale since a version is reached by no later version**: each
trie after it reaches nodes of its own version and nodes the trie before it
reached. -/
theorem Run.not_reach_of_stale (hfirst : first.toNat + valueSets.length ≤ 2 ^ 64) (hidx : idx ≤ valueSets.length)
    {s : StaleNodeIndex} (hs : s ∈ tc.frozenCache.staleNodeIndexCache) {j : ℕ} (hj : j < idx)
    (hsj : s.staleSinceVersion = first + j.toUInt64) :
    ∀ i, j ≤ i → i < idx → ¬ Reach (tc.view reader) (trieAt t₀ valueSets (i + 1)) (runRoot root₀ first (i + 1)) s.nodeKey := by
  obtain ⟨j', hj', hsj', ht, -, hr, hr'⟩ := (hrun.staleIndex s).1 hs
  obtain rfl : j' = j := version_injective hfirst (by omega) (by omega) (hsj'.symm.trans hsj)
  -- the node is of no version from `j` on
  have hset := (hrun.kept j' hj'.le (pos_or_ne_empty ht)).settled _ hr
  intro i hi
  induction i, hi using Nat.le_induction with
  | base => exact fun _ => hr'
  | succ i _ ih =>
    intro hlt hreach
    rcases hrun.grows (i + 1) hlt _ hreach with hv | ⟨-, hr''⟩
    · exact hset (i + 1) (by omega) (by omega) hv
    · exact ih (by omega) hr''

/-- **No node is recorded stale twice.** -/
theorem Run.stale_unique (hfirst : first.toNat + valueSets.length ≤ 2 ^ 64) (hidx : idx ≤ valueSets.length)
    {s s' : StaleNodeIndex} (hs : s ∈ tc.frozenCache.staleNodeIndexCache) (hs' : s' ∈ tc.frozenCache.staleNodeIndexCache)
    (hk : s.nodeKey = s'.nodeKey) : s = s' := by
  obtain ⟨j, hj, hsj, -, -, hr, -⟩ := (hrun.staleIndex s).1 hs
  obtain ⟨j', hj', hsj', -, -, hr', -⟩ := (hrun.staleIndex s').1 hs'
  -- the later entry's node would be reached by a version after the earlier one
  have hjj : j = j' := by
    by_contra hne
    rcases Nat.lt_or_gt_of_ne hne with hlt | hlt
    · obtain ⟨i, rfl⟩ : ∃ i, j' = i + 1 := ⟨j' - 1, by omega⟩
      exact hrun.not_reach_of_stale hfirst hidx hs hj hsj i (by omega) (by omega) (by rw [hk]; exact hr')
    · obtain ⟨i, rfl⟩ : ∃ i, j = i + 1 := ⟨j - 1, by omega⟩
      exact hrun.not_reach_of_stale hfirst hidx hs' hj' hsj' i (by omega) (by omega) (by rw [← hk]; exact hr)
  subst hjj
  obtain ⟨v, k⟩ := s
  obtain ⟨v', k'⟩ := s'
  dsimp only at hsj hsj' hk
  rw [hsj, hsj', hk]

/-- The frozen nodes are at keys the store does not have. -/
theorem Run.reader_eq_none (hidx : idx ≤ valueSets.length)
    (hpending : ∀ i < valueSets.length, ∀ k, k.version = first + i.toUInt64 → reader k = none)
    {k : NodeType.NodeKey} (hk : k ∈ tc.frozenCache.nodeCache) : reader k = none := by
  obtain ⟨j, hj, hv⟩ := hrun.frozen k (AList.lookup_isSome.2 hk)
  exact hpending j (by omega) k hv

end Consequences

end Run

/-! ## `put_value_sets` -/

/-! ### A run of two versions -/

/-- The empty store. -/
def emptyStore : TreeReader ℕ := fun _ => none

/-- A hash for the runs below; the results about the writer assume nothing of
the hashes. -/
def sumHash (a b : HashValue) : HashValue := ⟨a.val + b.val⟩

/-- Two versions: the first writes key `1`, the second writes it again and adds
a key that parts from it at the first nibble, so the root of the first version
goes stale. -/
def overwriteSets : List (List (HashValue × ℕ)) := [[(⟨1⟩, 10)], [(⟨1⟩, 11), (⟨2 ^ 255⟩, 12)]]

/-- `TreeCache::new` over the empty store at version `0` starts from a `Null`
root: the empty trie. -/
theorem emptyStore_stored (valueHash : ℕ → HashValue) (leafHash node : HashValue → HashValue → HashValue)
    (placeholder : HashValue) :
    Stored valueHash leafHash node placeholder ((TreeCache.new emptyStore 0).view emptyStore) .empty
      (TreeCache.new emptyStore 0).rootNodeKey :=
  rfl

section PutValueSets

variable {V : Type} (reader : TreeReader V) (valueHash : V → HashValue) (leafHash node : HashValue → HashValue → HashValue)
  (placeholder : HashValue) (leafCountMigration : Bool) {first : UInt64} {valueSets : List (List (HashValue × V))}
  {root₀ : NodeType.NodeKey} {t₀ : Trie V}

/-- **The loop of `put_value_sets` keeps the invariant**, from any value set
on, and never fails: each value set is written at its version, and frozen.
The induction is on the value sets left; each step is `Run.next`. -/
theorem wp_putValueSetsLoop (hfirst : first.toNat + valueSets.length ≤ 2 ^ 64)
    (hpending : ∀ i < valueSets.length, ∀ k, k.version = first + i.toUInt64 → reader k = none)
    (hroot₀ : root₀.nibblePath.nibbleList = []) (hne : ∀ vs ∈ valueSets, vs ≠ [])
    (hkeys : ∀ vs ∈ valueSets, ∀ kv ∈ vs, kv.1.val < 2 ^ 256) {R : Failure → TreeCache V → Prop} :
    ∀ m {idx : ℕ} {tc : TreeCache V}, idx + m = valueSets.length →
      Run reader valueHash leafHash node placeholder first valueSets root₀ t₀ idx tc →
      wp (putValueSetsLoop reader valueHash leafHash node placeholder leafCountMigration first idx (valueSets.drop idx))
        (fun _ tc' => Run reader valueHash leafHash node placeholder first valueSets root₀ t₀ valueSets.length tc') R tc
  | 0, idx, tc, hm, hrun => by
    rw [Nat.add_zero] at hm
    subst hm
    rw [List.drop_length, putValueSetsLoop, wp_pure]
    exact hrun
  | m + 1, idx, tc, hm, hrun => by
    have hidx : idx < valueSets.length := by omega
    have hmem := List.getElem_mem hidx
    rw [List.drop_eq_getElem_cons hidx, putValueSetsLoop, if_neg (by rw [List.isEmpty_iff]; exact hne _ hmem)]
    simp only [wp_bind]
    refine wp_mono (wp_putValueSet leafCountMigration (hne _ hmem) (hkeys _ hmem)
      (hrun.writing hidx hfirst hpending hroot₀)) (fun _ tc₁ hw => ?_) (fun _ _ h => h)
    rw [← trieAt_succ t₀ hidx] at hw
    obtain ⟨nd, hnode⟩ := Option.isSome_iff_exists.1
      (hw.holds.stored.view_isSome valueHash leafHash node placeholder (reach_self _ _))
    obtain ⟨rootHash, hhash⟩ := Node.hash_eq_ok leafHash node placeholder nd
    refine wp_freeze reader leafHash node placeholder rootHash hnode hhash ?_
    exact wp_putValueSetsLoop hfirst hpending hroot₀ hne hkeys m (by omega) (hrun.next hw hidx hfirst hroot₀ hnode hhash)

variable {reader valueHash leafHash node placeholder}
variable (hstored : Stored valueHash leafHash node placeholder ((TreeCache.new reader first).view reader) t₀
      (TreeCache.new reader first).rootNodeKey)
    (hwf : RadixTrie.WellFormed HashValue.nibble 64 t₀ 0) (hkeys₀ : RadixTrie.AllLeaves (fun k : HashValue => k.val < 2 ^ 256) t₀)
    (hfirst : first.toNat + valueSets.length ≤ 2 ^ 64)
    (hpending : ∀ i < valueSets.length, ∀ k, k.version = first + i.toUInt64 → reader k = none)
    (hne : ∀ vs ∈ valueSets, vs ≠ []) (hkeys : ∀ vs ∈ valueSets, ∀ kv ∈ vs, kv.1.val < 2 ^ 256)
include hstored hwf hkeys₀ hfirst hpending hne hkeys

/-- `put_value_sets` succeeds, and the cache it ends with keeps the invariant
over all the value sets. -/
theorem putValueSets_run :
    ∃ tc, putValueSets reader valueHash leafHash node placeholder leafCountMigration valueSets first = .ok tc.into ∧
      Run reader valueHash leafHash node placeholder first valueSets (TreeCache.new reader first).rootNodeKey t₀
        valueSets.length tc := by
  have h := wp_putValueSetsLoop reader valueHash leafHash node placeholder leafCountMigration hfirst hpending
    (new_rootNodeKey_nibbleList reader first) hne hkeys (R := fun _ _ => False) valueSets.length (Nat.zero_add _)
    (run_new hstored hwf hkeys₀ hpending)
  rw [List.drop_zero] at h
  unfold wp at h
  unfold putValueSets
  revert h
  cases (putValueSetsLoop reader valueHash leafHash node placeholder leafCountMigration first 0 valueSets).run
    (TreeCache.new reader first) with
  | ok _ tc => exact fun h => ⟨tc, rfl, h⟩
  | error _ _ => exact False.elim

/-- **`put_value_sets` writes the trie of every version.** Over a store that
holds `t₀` at the root `TreeCache::new` starts from, and has no node at the
versions written, `put_value_sets` succeeds; once its batch is written, the
root of each version `first + j` holds the trie after the first `j + 1` value
sets, and hashes to the `j`-th root hash returned. -/
theorem putValueSets_stores_versions :
    ∃ rootHashes batch, putValueSets reader valueHash leafHash node placeholder leafCountMigration valueSets first =
        .ok (rootHashes, batch) ∧ rootHashes.length = valueSets.length ∧
      ∀ j < valueSets.length,
        Stored valueHash leafHash node placeholder (writeNodeBatch reader batch.nodeBatch) (trieAt t₀ valueSets (j + 1))
          (NodeType.NodeKey.newEmptyPath (first + j.toUInt64)) ∧
        ∃ nd hash, writeNodeBatch reader batch.nodeBatch (NodeType.NodeKey.newEmptyPath (first + j.toUInt64)) = some nd ∧
          nd.hash leafHash node placeholder = .ok hash ∧ rootHashes[j]? = some hash := by
  obtain ⟨tc, hput, hrun⟩ := putValueSets_run leafCountMigration hstored hwf hkeys₀ hfirst hpending hne hkeys
  refine ⟨_, _, hput, hrun.rootHashes, fun j hj => ?_⟩
  have hview := hrun.view_eq (by omega)
  have hkept := hrun.kept (j + 1) hj (.inl (Nat.succ_pos j))
  have hlt : j < tc.frozenCache.rootHashes.length := by rw [hrun.rootHashes]; exact hj
  obtain ⟨hash, hhash⟩ : ∃ hash, tc.frozenCache.rootHashes[j]? = some hash := ⟨_, List.getElem?_eq_getElem hlt⟩
  obtain ⟨nd, hnd, hndh⟩ := hrun.rootHash j hash hhash
  rw [hview] at hkept hnd
  exact ⟨hkept.stored, nd, hash, hnd, hndh, hhash⟩

omit hstored hwf hkeys₀ hfirst hpending hne hkeys in
theorem putValueSets_stores_versions_overwrite :
    ∃ rootHashes batch, putValueSets emptyStore (fun v => ⟨v⟩) sumHash sumHash ⟨0⟩ false overwriteSets 0 =
        .ok (rootHashes, batch) ∧ rootHashes.length = overwriteSets.length ∧
      ∀ j < overwriteSets.length,
        Stored (fun v => ⟨v⟩) sumHash sumHash ⟨0⟩ (writeNodeBatch emptyStore batch.nodeBatch)
          (trieAt .empty overwriteSets (j + 1)) (NodeType.NodeKey.newEmptyPath (0 + j.toUInt64)) ∧
        ∃ nd hash, writeNodeBatch emptyStore batch.nodeBatch (NodeType.NodeKey.newEmptyPath (0 + j.toUInt64)) = some nd ∧
          nd.hash sumHash sumHash ⟨0⟩ = .ok hash ∧ rootHashes[j]? = some hash :=
  putValueSets_stores_versions false (emptyStore_stored _ _ _ _) trivial RadixTrie.allLeaves_empty (by decide)
    (fun _ _ _ _ => rfl) (by decide) (by decide)

/-- **The stale node index is exact.** An entry of the batch's stale index
is stamped with a version `first + j` of the run, and names a node of an
older version that the trie before that version reached and the version's
own trie does not; and every such node has its entry. -/
theorem putValueSets_staleNodeIndex :
    ∃ rootHashes batch, putValueSets reader valueHash leafHash node placeholder leafCountMigration valueSets first =
        .ok (rootHashes, batch) ∧
      ∀ s, s ∈ batch.staleNodeIndexBatch ↔ ∃ j < valueSets.length, s.staleSinceVersion = first + j.toUInt64 ∧
        trieAt t₀ valueSets j ≠ .empty ∧ s.nodeKey.version ≠ first + j.toUInt64 ∧
        Reach (writeNodeBatch reader batch.nodeBatch) (trieAt t₀ valueSets j)
          (runRoot (TreeCache.new reader first).rootNodeKey first j) s.nodeKey ∧
        ¬ Reach (writeNodeBatch reader batch.nodeBatch) (trieAt t₀ valueSets (j + 1))
          (NodeType.NodeKey.newEmptyPath (first + j.toUInt64)) s.nodeKey := by
  obtain ⟨tc, hput, hrun⟩ := putValueSets_run leafCountMigration hstored hwf hkeys₀ hfirst hpending hne hkeys
  refine ⟨_, _, hput, fun s => (hrun.staleIndex s).trans (exists_congr fun j => and_congr_right fun hj => ?_)⟩
  rw [hrun.view_eq (by omega)]
  rfl

omit hstored hwf hkeys₀ hfirst hpending hne hkeys in
theorem putValueSets_staleNodeIndex_overwrite :
    ∃ rootHashes batch, putValueSets emptyStore (fun v => ⟨v⟩) sumHash sumHash ⟨0⟩ false overwriteSets 0 =
        .ok (rootHashes, batch) ∧
      ∀ s, s ∈ batch.staleNodeIndexBatch ↔ ∃ j < overwriteSets.length, s.staleSinceVersion = 0 + j.toUInt64 ∧
        trieAt .empty overwriteSets j ≠ .empty ∧ s.nodeKey.version ≠ 0 + j.toUInt64 ∧
        Reach (writeNodeBatch emptyStore batch.nodeBatch) (trieAt .empty overwriteSets j)
          (runRoot (TreeCache.new emptyStore 0).rootNodeKey 0 j) s.nodeKey ∧
        ¬ Reach (writeNodeBatch emptyStore batch.nodeBatch) (trieAt .empty overwriteSets (j + 1))
          (NodeType.NodeKey.newEmptyPath (0 + j.toUInt64)) s.nodeKey :=
  putValueSets_staleNodeIndex false (emptyStore_stored _ _ _ _) trivial RadixTrie.allLeaves_empty (by decide)
    (fun _ _ _ _ => rfl) (by decide) (by decide)

/-- **Pruning the stale nodes is safe.** A node stale since a version is
reached from the root of no version of the run from that one on, and no node
is recorded stale twice. -/
theorem putValueSets_stale_unreachable :
    ∃ rootHashes batch, putValueSets reader valueHash leafHash node placeholder leafCountMigration valueSets first =
        .ok (rootHashes, batch) ∧
      (∀ s ∈ batch.staleNodeIndexBatch, ∀ i < valueSets.length, s.staleSinceVersion ≤ first + i.toUInt64 →
        ¬ Reach (writeNodeBatch reader batch.nodeBatch) (trieAt t₀ valueSets (i + 1))
          (NodeType.NodeKey.newEmptyPath (first + i.toUInt64)) s.nodeKey) ∧
      ∀ s ∈ batch.staleNodeIndexBatch, ∀ s' ∈ batch.staleNodeIndexBatch, s.nodeKey = s'.nodeKey → s = s' := by
  obtain ⟨tc, hput, hrun⟩ := putValueSets_run leafCountMigration hstored hwf hkeys₀ hfirst hpending hne hkeys
  refine ⟨_, _, hput, fun s hs i hi hle => ?_, fun s hs s' hs' hk => hrun.stale_unique hfirst le_rfl hs hs' hk⟩
  obtain ⟨j, hj, hsj, -⟩ := (hrun.staleIndex s).1 hs
  -- the versions of the run are ordered as their indices
  have hji : j ≤ i := by
    rw [hsj, UInt64.le_iff_toNat_le, toNat_version (by omega), toNat_version (by omega)] at hle
    omega
  rw [← hrun.view_eq (by omega)]
  exact hrun.not_reach_of_stale hfirst le_rfl hs hj hsj i hji hi

omit hstored hwf hkeys₀ hfirst hpending hne hkeys in
theorem putValueSets_stale_unreachable_overwrite :
    ∃ rootHashes batch, putValueSets emptyStore (fun v => ⟨v⟩) sumHash sumHash ⟨0⟩ false overwriteSets 0 =
        .ok (rootHashes, batch) ∧
      (∀ s ∈ batch.staleNodeIndexBatch, ∀ i < overwriteSets.length, s.staleSinceVersion ≤ 0 + i.toUInt64 →
        ¬ Reach (writeNodeBatch emptyStore batch.nodeBatch) (trieAt .empty overwriteSets (i + 1))
          (NodeType.NodeKey.newEmptyPath (0 + i.toUInt64)) s.nodeKey) ∧
      ∀ s ∈ batch.staleNodeIndexBatch, ∀ s' ∈ batch.staleNodeIndexBatch, s.nodeKey = s'.nodeKey → s = s' :=
  putValueSets_stale_unreachable false (emptyStore_stored _ _ _ _) trivial RadixTrie.allLeaves_empty (by decide)
    (fun _ _ _ _ => rfl) (by decide) (by decide)

/-- **The batch only adds nodes**: each is of a version of the run, at a key
the store does not have, so writing it overwrites nothing. -/
theorem putValueSets_nodeBatch_new :
    ∃ rootHashes batch, putValueSets reader valueHash leafHash node placeholder leafCountMigration valueSets first =
        .ok (rootHashes, batch) ∧
      ∀ k ∈ batch.nodeBatch, reader k = none ∧ ∃ j < valueSets.length, k.version = first + j.toUInt64 := by
  obtain ⟨tc, hput, hrun⟩ := putValueSets_run leafCountMigration hstored hwf hkeys₀ hfirst hpending hne hkeys
  refine ⟨_, _, hput, fun k hk => ⟨hrun.reader_eq_none le_rfl hpending hk, ?_⟩⟩
  exact hrun.frozen k (AList.lookup_isSome.2 hk)

omit hstored hwf hkeys₀ hfirst hpending hne hkeys in
theorem putValueSets_nodeBatch_new_overwrite :
    ∃ rootHashes batch, putValueSets emptyStore (fun v => ⟨v⟩) sumHash sumHash ⟨0⟩ false overwriteSets 0 =
        .ok (rootHashes, batch) ∧
      ∀ k ∈ batch.nodeBatch, emptyStore k = none ∧ ∃ j < overwriteSets.length, k.version = 0 + j.toUInt64 :=
  putValueSets_nodeBatch_new false (emptyStore_stored _ _ _ _) trivial RadixTrie.allLeaves_empty (by decide)
    (fun _ _ _ _ => rfl) (by decide) (by decide)
end PutValueSets

end Diem.JellyfishMerkle.Tree
