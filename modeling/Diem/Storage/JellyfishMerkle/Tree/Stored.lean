import Mathlib
import Diem.Theory.RadixTrie
import Diem.Storage.JellyfishMerkle.Restore
import Diem.Storage.JellyfishMerkle.Tree

/-!
# The map a Jellyfish Merkle tree stores

The nodes of a Jellyfish Merkle tree make up a trie over the nibbles of the keys
(`Diem.Theory.RadixTrie`, with `HashValue.nibble` for the digit and 64 digits):
an internal node branches on the nibble of its depth, and a subtree with a
single key is a leaf. `Stored` relates what a store or a cache holds to such a
trie: the node under a node key, and the nodes under the keys its children name,
one nibble further down each, make up the trie. `Reach` is the set of keys of
the nodes of a subtree, all in the region of its root key.

A subtree depends only on the nodes in its region (`stored_congr`,
`reach_congr`), has at most one node on each path (`Reach.eq_of_nibblePath`), and
every key it reaches holds a node (`Stored.view_isSome`).
-/

namespace Diem.JellyfishMerkle.Tree

/-- The map a Jellyfish Merkle tree stores, read nibble by nibble. -/
abbrev Trie (V : Type) := RadixTrie Nibble HashValue V

/-- The nodes a store or a cache holds, by key. -/
abbrev View (V : Type) := NodeType.NodeKey → Option (Node V)

/-! ## Regions -/

/-- The path of `k` extends the path of `nodeKey`: `k` lies in the region
below `nodeKey`. -/
def InRegion (nodeKey k : NodeType.NodeKey) : Prop := nodeKey.nibblePath.nibbleList <+: k.nibblePath.nibbleList

namespace InRegion

variable {k k' k'' child : NodeType.NodeKey} {version : UInt64} {a : Nibble}

@[refl] theorem refl (k : NodeType.NodeKey) : InRegion k k := List.prefix_refl _

theorem trans (h : InRegion k k') (h' : InRegion k' k'') : InRegion k k'' := List.IsPrefix.trans h h'

theorem length_le (h : InRegion k k') : k.nibblePath.nibbleList.length ≤ k'.nibblePath.nibbleList.length :=
  List.IsPrefix.length_le h

/-- The region of a child lies in the region of its parent. -/
theorem of_child (hchild : k.genChildNodeKey version a = .ok child) (h : InRegion child k') : InRegion k k' :=
  trans ⟨[a], (NodeType.NodeKey.genChildNodeKey_spec hchild).2.symm⟩ h

/-- A node is not below its child. -/
theorem not_child (hchild : k.genChildNodeKey version a = .ok child) : ¬ InRegion child k := by
  intro h
  have := h.length_le
  rw [(NodeType.NodeKey.genChildNodeKey_spec hchild).2, List.length_append, List.length_singleton] at this
  omega

/-- The regions of two children at different nibbles are apart. -/
theorem disjoint {w : UInt64} {b : Nibble} {child' : NodeType.NodeKey} (hchild : k.genChildNodeKey version a = .ok child)
    (hchild' : k.genChildNodeKey w b = .ok child') (hab : a ≠ b) (h : InRegion child k'') : ¬ InRegion child' k'' := by
  intro h'
  rw [InRegion, (NodeType.NodeKey.genChildNodeKey_spec hchild).2] at h
  rw [InRegion, (NodeType.NodeKey.genChildNodeKey_spec hchild').2] at h'
  -- both paths are prefixes of the path of `k''`, of the same length
  have heq := (List.prefix_of_prefix_length_le h h' (by simp)).eq_of_length (by simp)
  exact hab (by simpa using heq)

end InRegion

/-! ## Stored subtrees -/

section Stored

variable {V : Type} (valueHash : V → HashValue) (leafHash node : HashValue → HashValue → HashValue)
  (placeholder : HashValue)

/-- The entry `child` of the internal node under `nodeKey`, at nibble `a`,
names `childKey`, where a node with the hash the entry records is. -/
def ChildAt (view : View V) (nodeKey : NodeType.NodeKey) (a : Nibble) (child : Child) (childKey : NodeType.NodeKey) :
    Prop :=
  nodeKey.genChildNodeKey child.version.toUInt64 a = .ok childKey ∧
    ∃ childNode, view childKey = some childNode ∧ childNode.hash leafHash node placeholder = .ok child.hash

/-- The nodes of `view` under `nodeKey` make up the trie `t`: a null node the
empty trie, a leaf node a leaf with its key, value and value hash, and an
internal node a branch whose children it names exactly at the nibbles where
the branch has a subtree, marked a leaf where that subtree is one. -/
def Stored (view : View V) : Trie V → NodeType.NodeKey → Prop
  | .empty, nodeKey => view nodeKey = some .Null
  | .leaf key value, nodeKey => ∃ leaf : LeafNode V, view nodeKey = some (.Leaf leaf) ∧
      leaf.accountKey = key ∧ leaf.value = value ∧ leaf.valueHash = valueHash value
  | .branch c, nodeKey => ∃ n : InternalNode, view nodeKey = some (.Internal n) ∧ ∀ a : Nibble,
      match n.child a with
      | none => c a = .empty
      | some child => c a ≠ .empty ∧ child.isLeaf = (c a).isLeaf ∧
          ∃ childKey, ChildAt leafHash node placeholder view nodeKey a child childKey ∧ Stored view (c a) childKey

end Stored

/-- The keys of the nodes of the subtree under `nodeKey` that makes up `t`. -/
def Reach {V : Type} (view : View V) : Trie V → NodeType.NodeKey → NodeType.NodeKey → Prop
  | .branch c, nodeKey, k => k = nodeKey ∨ ∃ n : InternalNode, view nodeKey = some (.Internal n) ∧
      ∃ a child childKey, n.child a = some child ∧ nodeKey.genChildNodeKey child.version.toUInt64 a = .ok childKey ∧
        Reach view (c a) childKey k
  | _, nodeKey, k => k = nodeKey

section Reach

variable {V : Type} {view view' : View V}

theorem reach_self : ∀ (t : Trie V) (nodeKey : NodeType.NodeKey), Reach view t nodeKey nodeKey
  | .empty, _ => rfl
  | .leaf _ _, _ => rfl
  | .branch _, _ => .inl rfl

theorem reach_of_not_branch {t : Trie V} (ht : ∀ c, t ≠ .branch c) {nodeKey k : NodeType.NodeKey} :
    Reach view t nodeKey k ↔ k = nodeKey := by
  cases t with
  | empty => rfl
  | leaf => rfl
  | branch c => exact absurd rfl (ht c)

/-- The nodes of a subtree lie in its region. -/
theorem Reach.inRegion : ∀ {t : Trie V} {nodeKey k : NodeType.NodeKey}, Reach view t nodeKey k → InRegion nodeKey k
  | .empty, _, _, rfl => InRegion.refl _
  | .leaf _ _, _, _, rfl => InRegion.refl _
  | .branch _, _, _, .inl rfl => InRegion.refl _
  | .branch _, _, _, .inr ⟨_, _, _, _, _, _, hkey, hreach⟩ => InRegion.of_child hkey hreach.inRegion

/-- **Frame for reaching**: the keys of a subtree depend only on the nodes in
its region. -/
theorem reach_congr : ∀ {t : Trie V} {nodeKey : NodeType.NodeKey}, (∀ k, InRegion nodeKey k → view' k = view k) →
    ∀ k, Reach view' t nodeKey k ↔ Reach view t nodeKey k
  | .empty, _, _, _ => Iff.rfl
  | .leaf _ _, _, _, _ => Iff.rfl
  | .branch c, nodeKey, hview, k => by
    simp only [Reach]
    rw [hview nodeKey (InRegion.refl _)]
    refine or_congr Iff.rfl (exists_congr fun n => and_congr Iff.rfl ?_)
    refine exists_congr fun a => exists_congr fun child => exists_congr fun childKey => ?_
    refine and_congr Iff.rfl (and_congr_right fun hkey => ?_)
    exact reach_congr (fun k' hk' => hview k' (InRegion.of_child hkey hk')) k

/-- **Frame for reaching, by the nodes reached**: the keys of a subtree depend
only on the nodes at those keys. -/
theorem reach_congr_of_reach : ∀ {t : Trie V} {nodeKey : NodeType.NodeKey},
    (∀ k, Reach view t nodeKey k → view' k = view k) → ∀ k, Reach view' t nodeKey k ↔ Reach view t nodeKey k
  | .empty, _, _, _ => Iff.rfl
  | .leaf _ _, _, _, _ => Iff.rfl
  | .branch c, nodeKey, hview, k => by
    simp only [Reach]
    rw [hview nodeKey (.inl rfl)]
    refine or_congr Iff.rfl (exists_congr fun n => and_congr_right fun hn => ?_)
    refine exists_congr fun a => exists_congr fun child => exists_congr fun childKey => ?_
    refine and_congr_right fun hchild => and_congr_right fun hkey => ?_
    exact reach_congr_of_reach (fun k' hk' => hview k' (.inr ⟨n, hn, a, child, childKey, hchild, hkey, hk'⟩)) k

/-- A node below a child is further down than the parent. -/
theorem InRegion.length_lt_of_child {k child k' : NodeType.NodeKey} {version : UInt64} {a : Nibble}
    (hchild : k.genChildNodeKey version a = .ok child) (h : InRegion child k') :
    k.nibblePath.nibbleList.length < k'.nibblePath.nibbleList.length := by
  have := h.length_le
  rw [(NodeType.NodeKey.genChildNodeKey_spec hchild).2, List.length_append, List.length_singleton] at this
  omega

/-- Region membership reads only the path. -/
theorem InRegion.of_nibblePath_eq {k k₁ k₂ : NodeType.NodeKey} (h : InRegion k k₁)
    (hpath : k₁.nibblePath = k₂.nibblePath) : InRegion k k₂ := by
  rw [InRegion, ← hpath]
  exact h

/-- **A subtree has one node per path.** -/
theorem Reach.eq_of_nibblePath : ∀ {t : Trie V} {nodeKey k₁ k₂ : NodeType.NodeKey}, Reach view t nodeKey k₁ →
    Reach view t nodeKey k₂ → k₁.nibblePath = k₂.nibblePath → k₁ = k₂
  | .empty, _, _, _, h₁, h₂, _ => h₁.trans h₂.symm
  | .leaf _ _, _, _, _, h₁, h₂, _ => h₁.trans h₂.symm
  | .branch c, nodeKey, k₁, k₂, h₁, h₂, hpath => by
    rcases h₁ with rfl | ⟨n, hn, a, child, childKey, hchild, hkey, hr₁⟩ <;>
      rcases h₂ with rfl | ⟨n', hn', b, child', childKey', hchild', hkey', hr₂⟩
    · rfl
    · -- a node below the root is longer than the root
      have := InRegion.length_lt_of_child hkey' hr₂.inRegion
      rw [← hpath] at this
      exact absurd this (lt_irrefl _)
    · have := InRegion.length_lt_of_child hkey hr₁.inRegion
      rw [hpath] at this
      exact absurd this (lt_irrefl _)
    · -- the same node, so the same nibble, the same child and the same child key
      rw [hn, Option.some_inj, Node.Internal.injEq] at hn'
      subst hn'
      have hab : a = b := by
        by_contra hab
        exact InRegion.disjoint hkey hkey' hab hr₁.inRegion (hr₂.inRegion.of_nibblePath_eq hpath.symm)
      subst hab
      rw [hchild, Option.some_inj] at hchild'
      subst hchild'
      rw [hkey, Except.ok.injEq] at hkey'
      subst hkey'
      exact Reach.eq_of_nibblePath hr₁ hr₂ hpath

end Reach

section Stored

variable {V : Type} (valueHash : V → HashValue) (leafHash node : HashValue → HashValue → HashValue)
  (placeholder : HashValue) {view view' : View V}

/-- **Frame for stored subtrees**: a subtree depends only on the nodes in its
region. -/
theorem stored_congr : ∀ {t : Trie V} {nodeKey : NodeType.NodeKey}, (∀ k, InRegion nodeKey k → view' k = view k) →
    (Stored valueHash leafHash node placeholder view' t nodeKey ↔ Stored valueHash leafHash node placeholder view t nodeKey)
  | .empty, nodeKey, hview => by rw [Stored, Stored, hview nodeKey (InRegion.refl _)]
  | .leaf _ _, nodeKey, hview => by simp only [Stored, hview nodeKey (InRegion.refl _)]
  | .branch c, nodeKey, hview => by
    simp only [Stored]
    rw [hview nodeKey (InRegion.refl _)]
    refine exists_congr fun n => and_congr Iff.rfl (forall_congr' fun a => ?_)
    cases n.child a with
    | none => rfl
    | some child =>
      simp only [ChildAt, and_assoc]
      refine and_congr Iff.rfl (and_congr Iff.rfl (exists_congr fun childKey => and_congr_right fun hkey => ?_))
      have hsub : ∀ k, InRegion childKey k → view' k = view k := fun k hk => hview k (InRegion.of_child hkey hk)
      rw [hsub childKey (InRegion.refl _)]
      exact and_congr Iff.rfl (stored_congr hsub)

/-- **Frame for stored subtrees, by the nodes reached**: a subtree stays as it
is under any change of the nodes it does not reach. -/
theorem stored_congr_of_reach : ∀ {t : Trie V} {nodeKey : NodeType.NodeKey},
    (∀ k, Reach view t nodeKey k → view' k = view k) →
    Stored valueHash leafHash node placeholder view t nodeKey → Stored valueHash leafHash node placeholder view' t nodeKey
  | .empty, nodeKey, hview, hs => (hview nodeKey rfl).trans hs
  | .leaf _ _, nodeKey, hview, ⟨leaf, hl, hrest⟩ => ⟨leaf, (hview nodeKey rfl).trans hl, hrest⟩
  | .branch c, nodeKey, hview, ⟨n, hn, hchildren⟩ => by
    refine ⟨n, (hview nodeKey (.inl rfl)).trans hn, fun a => ?_⟩
    have hc := hchildren a
    cases hchild : n.child a with
    | none => simpa only [hchild] using hc
    | some child =>
      simp only [hchild] at hc ⊢
      obtain ⟨hne, hleaf, childKey, ⟨hkey, childNode, hcn, hhash⟩, hst⟩ := hc
      have hsub : ∀ k, Reach view (c a) childKey k → view' k = view k :=
        fun k hk => hview k (.inr ⟨n, hn, a, child, childKey, hchild, hkey, hk⟩)
      exact ⟨hne, hleaf, childKey, ⟨hkey, childNode, (hsub childKey (reach_self _ _)).trans hcn, hhash⟩,
        stored_congr_of_reach hsub hst⟩

/-- Every key a stored subtree reaches holds a node. -/
theorem Stored.view_isSome : ∀ {t : Trie V} {nodeKey k : NodeType.NodeKey},
    Stored valueHash leafHash node placeholder view t nodeKey → Reach view t nodeKey k → (view k).isSome
  | .empty, _, _, h, rfl => by rw [h]; rfl
  | .leaf _ _, _, _, ⟨_, h, _⟩, rfl => by rw [h]; rfl
  | .branch _, _, _, ⟨_, hn, _⟩, .inl rfl => by rw [hn]; rfl
  | .branch c, _, _, ⟨n, hn, hchildren⟩, .inr ⟨n', hn', a, child, childKey, hchild, hkey, hr⟩ => by
    rw [hn, Option.some_inj, Node.Internal.injEq] at hn'
    subst hn'
    have hc := hchildren a
    simp only [hchild] at hc
    obtain ⟨-, -, childKey', ⟨hkey', -⟩, hst⟩ := hc
    rw [hkey, Except.ok.injEq] at hkey'
    subst hkey'
    exact Stored.view_isSome hst hr

end Stored

/-! ## Branches -/

section Branch

variable {V : Type} {valueHash : V → HashValue} {leafHash node : HashValue → HashValue → HashValue}
  {placeholder : HashValue} {view : View V} {c : Nibble → Trie V} {nodeKey k : NodeType.NodeKey} {n : InternalNode}

/-- The keys of a branch: its own, and those of the subtrees its children name. -/
theorem reach_branch_iff (hn : view nodeKey = some (.Internal n)) :
    Reach view (.branch c) nodeKey k ↔ k = nodeKey ∨ ∃ a child childKey, n.child a = some child ∧
      nodeKey.genChildNodeKey child.version.toUInt64 a = .ok childKey ∧ Reach view (c a) childKey k := by
  simp only [Reach, hn, Option.some_inj, Node.Internal.injEq, exists_eq_left']

/-- A child the node of a stored branch names holds its subtree. -/
theorem Stored.child_some (hs : Stored valueHash leafHash node placeholder view (.branch c) nodeKey)
    (hn : view nodeKey = some (.Internal n)) {a : Nibble} {child : Child} (hchild : n.child a = some child) :
    c a ≠ .empty ∧ child.isLeaf = (c a).isLeaf ∧ ∃ childKey, ChildAt leafHash node placeholder view nodeKey a child childKey ∧
      Stored valueHash leafHash node placeholder view (c a) childKey := by
  obtain ⟨n', hn', hchildren⟩ := hs
  rw [hn, Option.some_inj, Node.Internal.injEq] at hn'
  subst hn'
  have h := hchildren a
  simp only [hchild] at h
  exact h

/-- A nibble the node of a stored branch has no child at is empty. -/
theorem Stored.child_none (hs : Stored valueHash leafHash node placeholder view (.branch c) nodeKey)
    (hn : view nodeKey = some (.Internal n)) {a : Nibble} (hchild : n.child a = none) : c a = .empty := by
  obtain ⟨n', hn', hchildren⟩ := hs
  rw [hn, Option.some_inj, Node.Internal.injEq] at hn'
  subst hn'
  have h := hchildren a
  simp only [hchild] at h
  exact h

end Branch

/-! ## Nodes -/

section Nodes

variable {V : Type} (valueHash : V → HashValue) (leafHash node : HashValue → HashValue → HashValue)
  (placeholder : HashValue)

/-- A node that is not `Null` hashes, and has a node type that says whether it
is a leaf. -/
theorem Node.hash_nodeType_of_ne_null {nd : Node V} (h : nd ≠ .Null) :
    (∃ hash, nd.hash leafHash node placeholder = .ok hash) ∧
      ∃ nt, nd.nodeType = .ok nt ∧ ∀ hash version, (Child.mk hash version nt).isLeaf = nd.isLeaf := by
  cases nd with
  | Null => exact absurd rfl h
  | Internal n =>
    refine ⟨⟨_, hash_eq_rangeHash node placeholder n⟩, n.nodeType, rfl, fun hash version => ?_⟩
    unfold InternalNode.nodeType
    split <;> rfl
  | Leaf l => exact ⟨⟨_, rfl⟩, .Leaf, rfl, fun _ _ => rfl⟩

/-- `new_migration` accepts children that are not empty and not a single leaf. -/
theorem InternalNode.newMigration_eq_ok (children : Children) (h₀ : children.entries ≠ [])
    (h₁ : children.isSingleLeaf = false) (leafCountMigration : Bool) :
    ∃ n : InternalNode, InternalNode.newMigration children leafCountMigration = .ok n ∧ n.children = children := by
  unfold InternalNode.newMigration
  rw [dif_neg h₀, dif_neg (by rw [h₁]; decide)]
  exact ⟨_, rfl, rfl⟩

/-- The child of a node whose children are `s` with `ch` put at `a`. -/
theorem InternalNode.child_of_children_eq {n : InternalNode} {s : Children} {a : Nibble} {ch : Child}
    (hn : n.children = s.insert a ch) (x : Nibble) : n.child x = if x = a then some ch else s.lookup x := by
  rw [InternalNode.child, hn]
  split_ifs with hx
  · rw [hx, AList.lookup_insert]
  · exact AList.lookup_insert_ne hx

/-- Children with an entry besides `a`, or whose entry at `a` is not a leaf,
are not a single leaf. -/
theorem Children.isSingleLeaf_insert {s : Children} {a : Nibble} {ch : Child}
    (h : ch.isLeaf = true → ∃ b, b ≠ a ∧ b ∈ s) : Children.isSingleLeaf (s.insert a ch) = false := by
  rw [Bool.eq_false_iff]
  intro hsingle
  obtain ⟨x, child, hentries, hleaf⟩ := Children.isSingleLeaf_iff.1 hsingle
  rw [AList.entries_insert, List.cons.injEq] at hentries
  obtain ⟨hhead, hrest⟩ := hentries
  cases hhead
  obtain ⟨b, hba, hb⟩ := h hleaf
  -- the only key left is `a`
  have hmem : b ∈ s.insert a ch := (AList.mem_insert s).2 (.inr hb)
  rw [AList.mem_keys, AList.keys, AList.entries_insert, hrest] at hmem
  exact hba (by simpa using hmem)

/-- A node whose child at `a` is a leaf has another child: a single child is
never a leaf. -/
theorem InternalNode.exists_ne_of_child_isLeaf (n : InternalNode) {a : Nibble} {child : Child}
    (ha : n.child a = some child) (hleaf : child.isLeaf = true) : ∃ b, b ≠ a ∧ b ∈ n.children := by
  have hsingle := n.not_isSingleLeaf
  have hmem : ∀ e ∈ n.children.entries, e.1 ∈ n.children := fun e he => by
    rw [AList.mem_keys, AList.keys]
    exact List.mem_map_of_mem he
  cases hE : n.children.entries with
  | nil => exact absurd hE n.children_ne_nil
  | cons e rest =>
    cases rest with
    | nil =>
      have hlookup : n.children.lookup a = some child := ha
      rw [AList.lookup, hE] at hlookup
      obtain ⟨ea, ec⟩ := e
      by_cases hea : ea = a
      · subst hea
        rw [List.dlookup_cons_eq, Option.some_inj] at hlookup
        subst hlookup
        rw [Children.isSingleLeaf, hE] at hsingle
        change ec.isLeaf = false at hsingle
        rw [hleaf] at hsingle
        cases hsingle
      · rw [List.dlookup_cons_ne _ _ (Ne.symm hea), List.dlookup_nil] at hlookup
        cases hlookup
    | cons e' rest' =>
      have hne : e.1 ≠ e'.1 := by
        have hnodup := n.children.nodupKeys
        rw [hE, List.NodupKeys, List.keys_cons, List.keys_cons, List.nodup_cons] at hnodup
        exact fun h => hnodup.1 (h ▸ List.mem_cons_self)
      by_cases hea : e.1 = a
      · exact ⟨e'.1, fun h => hne (hea.trans h.symm), hmem e' (by rw [hE]; simp)⟩
      · exact ⟨e.1, hea, hmem e (by rw [hE]; simp)⟩

variable {view : View V} {t : Trie V} {nodeKey : NodeType.NodeKey} {nd : Node V}

/-- The node on top of a stored subtree that is not empty is not `Null`, and
is a leaf exactly when the subtree is. -/
theorem Stored.node_of_ne_empty (hs : Stored valueHash leafHash node placeholder view t nodeKey) (ht : t ≠ .empty)
    (hnd : view nodeKey = some nd) : nd ≠ .Null ∧ nd.isLeaf = t.isLeaf := by
  cases t with
  | empty => exact absurd rfl ht
  | leaf key value =>
    obtain ⟨leaf, hv, -⟩ := hs
    rw [hnd, Option.some_inj] at hv
    subst hv
    exact ⟨(fun h => by cases h), rfl⟩
  | branch c =>
    obtain ⟨n, hv, -⟩ := hs
    rw [hnd, Option.some_inj] at hv
    subst hv
    exact ⟨(fun h => by cases h), rfl⟩

end Nodes

/-! ## A branch written on top -/

section Update

variable {V : Type} {valueHash : V → HashValue} {leafHash node : HashValue → HashValue → HashValue}
  {placeholder : HashValue} {view view' : View V} {c : Nibble → Trie V} {nodeKey : NodeType.NodeKey}
  {n : InternalNode}

/-- The key one nibble below, by its path. -/
theorem genChildNodeKey_of_nibbleList {k child : NodeType.NodeKey} {a : Nibble}
    (h : child.nibblePath.nibbleList = k.nibblePath.nibbleList ++ [a]) : k.genChildNodeKey child.version a = .ok child := by
  have hlen : k.nibblePath.nibbleList.length < Diem.ROOT_NIBBLE_HEIGHT := by
    have := child.nibblePath.numNibbles_le
    rw [← NibblePath.length_nibbleList, h, List.length_append, List.length_singleton] at this
    exact this
  obtain ⟨q, hpush, hq⟩ := NibblePath.exists_push hlen a
  rw [← h] at hq
  exact NodeType.NodeKey.genChildNodeKey_eq_ok_iff.2 ⟨rfl, by rw [hpush, NibblePath.eq_of_nibbleList_eq hq]⟩

/-- A write at a node leaves the regions of its children. -/
theorem frame_of_child (hview : ∀ k, k ≠ nodeKey → view' k = view k) {w : UInt64} {a : Nibble}
    {childKey : NodeType.NodeKey} (hchild : nodeKey.genChildNodeKey w a = .ok childKey) :
    ∀ k, InRegion childKey k → view' k = view k :=
  fun k hk => hview k fun h => InRegion.not_child hchild (h ▸ hk)

/-- **An internal node written over the children of a branch** stores the
branch: each child it names holds its subtree below, where the write is not. -/
theorem stored_update_branch (hview : ∀ k, k ≠ nodeKey → view' k = view k) (hn : view' nodeKey = some (.Internal n))
    (hnone : ∀ a, n.child a = none → c a = .empty)
    (hsome : ∀ a child, n.child a = some child → c a ≠ .empty ∧ child.isLeaf = (c a).isLeaf ∧
      ∃ childKey, ChildAt leafHash node placeholder view nodeKey a child childKey ∧
        Stored valueHash leafHash node placeholder view (c a) childKey) :
    Stored valueHash leafHash node placeholder view' (.branch c) nodeKey := by
  refine ⟨n, hn, fun a => ?_⟩
  cases hc : n.child a with
  | none => exact hnone a hc
  | some child =>
    obtain ⟨hne, hleaf, childKey, ⟨hkey, childNode, hnode, hhash⟩, hst⟩ := hsome a child hc
    have hframe := frame_of_child hview hkey
    refine ⟨hne, hleaf, childKey, ⟨hkey, childNode, ?_, hhash⟩, (stored_congr valueHash leafHash node placeholder hframe).2 hst⟩
    rw [hframe childKey (InRegion.refl _)]
    exact hnode

/-- The keys of a branch written on top: its own, and those its children
reach below, where the write is not. -/
theorem reach_update_branch (hview : ∀ k, k ≠ nodeKey → view' k = view k) (hn : view' nodeKey = some (.Internal n))
    {k : NodeType.NodeKey} :
    Reach view' (.branch c) nodeKey k ↔ k = nodeKey ∨ ∃ a child childKey, n.child a = some child ∧
      nodeKey.genChildNodeKey child.version.toUInt64 a = .ok childKey ∧ Reach view (c a) childKey k := by
  rw [reach_branch_iff hn]
  refine or_congr Iff.rfl (exists_congr fun a => exists_congr fun child => exists_congr fun childKey => ?_)
  exact and_congr_right fun _ => and_congr_right fun hkey => reach_congr (frame_of_child hview hkey) k

end Update

end Diem.JellyfishMerkle.Tree
