import Diem.Theory.Monads
import Diem.Theory.SparseMerkleTree
import Diem.Types.Basic

/-!
# Sparse Merkle proofs

`SparseMerkleProof::verify` and `SparseMerkleRangeProof::verify` of
`types/src/proof/definition.rs`, with the leaf node of `types/src/proof/mod.rs`
and the bits of a key (`iter_bits`, `common_prefix_bits_len`): the proofs that a
key has a value, or has none, in the sparse Merkle tree of the state, and that a
leaf is the rightmost one of a run.

A `HashValue` is its 32 bytes read as a big-endian number, so bit `i` of
`iter_bits` is bit `255 - i` of the number. The hashes of leaves, of internal
nodes and of values are parameters `leafHash`, `node` and `valueHash`. With
more than 256 siblings, `LENGTH_IN_BITS - num_siblings` in the range proof
wraps in a release build, and its loop then reads no bit. The reference tree
of a map (`referenceRootHash`) is the tree of `SparseMerkleTree` over the 256
bits of the keys.

With the hashes injective and leaves, nodes and the placeholder kept apart,
**`sparseMerkleProofs_sound`** says: an accepted inclusion proof gives the
value at its key, an accepted non-inclusion proof shows its key is not in the
map (when keys are 32 bytes), and an accepted range proof shows its rightmost
leaf is in the map. The common-prefix check of a non-inclusion proof with a
leaf is not needed for this: the climb itself puts the leaf under the key's
prefix.
-/

namespace Diem

/-- `HashValue::LENGTH_IN_BITS`. -/
def HashValue.LENGTH_IN_BITS : ℕ := 256

namespace HashValue

/-- `HashValueBitIterator::get_bit`: bit `7 - index % 8` of byte `index / 8`. -/
def getBit (h : HashValue) (index : ℕ) : Bool := h.val.testBit (LENGTH_IN_BITS - 1 - index)

/-- `iter_bits`: from the most significant bit of the first byte on. -/
def iterBits (h : HashValue) : List Bool := (List.range LENGTH_IN_BITS).map h.getBit

/-- `common_prefix_bits_len`. -/
def commonPrefixBitsLen (h other : HashValue) : ℕ :=
  ((h.iterBits.zip other.iterBits).takeWhile fun (x, y) => x == y).length

/-- Hash values of 32 bytes with the same bits are equal. -/
theorem eq_of_getBit_eq {a b : HashValue} (ha : a.val < 2 ^ 256) (hb : b.val < 2 ^ 256)
    (h : ∀ i < LENGTH_IN_BITS, a.getBit i = b.getBit i) : a = b := by
  have hval : a.val = b.val := Nat.eq_of_testBit_eq fun j => by
    by_cases hj : j < 256
    · have hbit := h (255 - j) (by rw [LENGTH_IN_BITS]; omega)
      rw [getBit, getBit, LENGTH_IN_BITS, show 256 - 1 - (255 - j) = j by omega] at hbit
      exact hbit
    · have hpow : 2 ^ 256 ≤ 2 ^ j := Nat.pow_le_pow_right (by decide) (by omega)
      rw [Nat.testBit_lt_two_pow (lt_of_lt_of_le ha hpow), Nat.testBit_lt_two_pow (lt_of_lt_of_le hb hpow)]
  cases a
  cases b
  exact congrArg HashValue.mk hval

/-- The last `n` bits of a key, read from the bottom up, are the path of a climb from depth `n`. -/
theorem iterBits_reverse_drop (key : HashValue) {n : ℕ} (hn : n ≤ LENGTH_IN_BITS) :
    key.iterBits.reverse.drop (LENGTH_IN_BITS - n) = SparseMerkleTree.pathBits getBit key n :=
  SparseMerkleTree.reverse_drop_eq_pathBits getBit key hn

end HashValue

/-- `SparseMerkleLeafNode`. -/
structure SparseMerkleLeafNode where
  /-- `key`. -/
  key : HashValue
  /-- `value_hash`. -/
  valueHash : HashValue
  deriving DecidableEq, Repr

variable (leafHash node : HashValue → HashValue → HashValue) (placeholder : HashValue)

/-- `SparseMerkleLeafNode::hash`: the `SparseMerkleLeafNodeHasher` over the key and the value hash. -/
def SparseMerkleLeafNode.hash (leaf : SparseMerkleLeafNode) : HashValue := leafHash leaf.key leaf.valueHash

/-- `SparseMerkleProof`: the leaf the path ends at, if any, and the siblings
from the bottom up. -/
structure SparseMerkleProof where
  /-- `leaf`. -/
  leaf : Option SparseMerkleLeafNode
  /-- `siblings`. -/
  siblings : List HashValue

namespace SparseMerkleProof

variable {V : Type} (valueHash : V → HashValue)

/-- The `match` of `verify` on the value looked for and the leaf of the proof. -/
def checkLeaf (proof : SparseMerkleProof) (elementKey : HashValue) (elementValue : Option V) :
    Except String Unit :=
  match elementValue, proof.leaf with
  | some value, some leaf =>
    if elementKey ≠ leaf.key then .error "Keys do not match."
    else if valueHash value ≠ leaf.valueHash then .error "Value hashes do not match."
    else .ok ()
  | some _, none => .error "Expected inclusion proof. Found non-inclusion proof."
  | none, some leaf =>
    if elementKey = leaf.key then .error "Expected non-inclusion proof, but key exists in proof."
    else if elementKey.commonPrefixBitsLen leaf.key < proof.siblings.length then
      .error ("Key would not have ended up in the subtree where the provided key in proof is the only " ++
        "existing key, if it existed. So this is not a valid non-inclusion proof.")
    else .ok ()
  | none, none => .ok ()

/-- `verify`. -/
def verify (proof : SparseMerkleProof) (expectedRootHash elementKey : HashValue) (elementValue : Option V) :
    Except String Unit :=
  if proof.siblings.length > HashValue.LENGTH_IN_BITS then
    .error ("Sparse Merkle Tree proof has more than " ++ Nat.repr HashValue.LENGTH_IN_BITS ++ " (" ++
      Nat.repr proof.siblings.length ++ ") siblings.")
  else do
    proof.checkLeaf valueHash elementKey elementValue
    let currentHash := proof.leaf.elim placeholder (·.hash leafHash)
    let actualRootHash :=
      (proof.siblings.zip (elementKey.iterBits.reverse.drop (HashValue.LENGTH_IN_BITS - proof.siblings.length))).foldl
        (fun hash (siblingHash, bit) => if bit then node siblingHash hash else node hash siblingHash) currentHash
    if actualRootHash ≠ expectedRootHash then .error "Root hashes do not match." else .ok ()

theorem checkLeaf_some_eq_ok {proof : SparseMerkleProof} {elementKey : HashValue} {value : V}
    (h : proof.checkLeaf valueHash elementKey (some value) = .ok ()) :
    ∃ leaf, proof.leaf = some leaf ∧ leaf.key = elementKey ∧ leaf.valueHash = valueHash value := by
  rcases hleaf : proof.leaf with _ | leaf
  · simp [checkLeaf, hleaf] at h
  · simp only [checkLeaf, hleaf] at h
    split at h
    · cases h
    · next hkey =>
      split at h
      · cases h
      · next hvalue => exact ⟨leaf, rfl, (not_not.mp hkey).symm, (not_not.mp hvalue).symm⟩

theorem checkLeaf_none_eq_ok {proof : SparseMerkleProof} {elementKey : HashValue}
    (h : proof.checkLeaf valueHash elementKey none = .ok ()) :
    proof.leaf = none ∨ ∃ leaf, proof.leaf = some leaf ∧ elementKey ≠ leaf.key ∧
      proof.siblings.length ≤ elementKey.commonPrefixBitsLen leaf.key := by
  rcases hleaf : proof.leaf with _ | leaf
  · exact .inl rfl
  · simp only [checkLeaf, hleaf] at h
    split at h
    · cases h
    · next hkey =>
      split at h
      · cases h
      · next hprefix => exact .inr ⟨leaf, rfl, hkey, Nat.le_of_not_lt hprefix⟩

theorem verify_eq_ok {proof : SparseMerkleProof} {expectedRootHash elementKey : HashValue}
    {elementValue : Option V} :
    proof.verify leafHash node placeholder valueHash expectedRootHash elementKey elementValue = .ok () ↔
      proof.siblings.length ≤ HashValue.LENGTH_IN_BITS ∧ proof.checkLeaf valueHash elementKey elementValue = .ok () ∧
        SparseMerkleTree.climb node
          (proof.siblings.zip (SparseMerkleTree.pathBits HashValue.getBit elementKey proof.siblings.length))
          (proof.leaf.elim placeholder (·.hash leafHash)) = expectedRootHash := by
  unfold verify
  by_cases hlen : proof.siblings.length > HashValue.LENGTH_IN_BITS
  · rw [if_pos hlen]
    simp only [reduceCtorEq, false_iff, not_and]
    omega
  · rw [if_neg hlen, HashValue.iterBits_reverse_drop elementKey (Nat.le_of_not_lt hlen)]
    have hfold : ∀ x : HashValue, (proof.siblings.zip (SparseMerkleTree.pathBits HashValue.getBit elementKey
        proof.siblings.length)).foldl (fun hash (siblingHash, bit) => if bit then node siblingHash hash
          else node hash siblingHash) x =
        SparseMerkleTree.climb node (proof.siblings.zip (SparseMerkleTree.pathBits HashValue.getBit elementKey
          proof.siblings.length)) x := fun _ => rfl
    dsimp only
    rw [hfold]
    cases proof.checkLeaf valueHash elementKey elementValue with
    | error e => simp
    | ok u =>
      by_cases hroot : SparseMerkleTree.climb node
          (proof.siblings.zip (SparseMerkleTree.pathBits HashValue.getBit elementKey proof.siblings.length))
          (proof.leaf.elim placeholder (·.hash leafHash)) = expectedRootHash
      · simp [hroot]
        omega
      · simp [hroot]

end SparseMerkleProof

/-- `SparseMerkleRangeProof`: the siblings right of the path to the rightmost
known leaf, from the bottom up. -/
structure SparseMerkleRangeProof where
  /-- `right_siblings`. -/
  rightSiblings : List HashValue

namespace SparseMerkleRangeProof

/-- The `for` loop of `verify` over the bits of the leaf's key, from the
bottom up: a set bit takes the next left sibling, a clear one the next right
sibling. -/
def verifyLoop : List HashValue → List HashValue → List Bool → HashValue → Except String HashValue
  | _, _, [], currentHash => .ok currentHash
  | leftSiblings, rightSiblings, bit :: bits, currentHash =>
    if bit then
      match leftSiblings with
      | [] => .error "Missing left sibling."
      | leftHash :: leftSiblings => verifyLoop leftSiblings rightSiblings bits (node leftHash currentHash)
    else
      match rightSiblings with
      | [] => .error "Missing right sibling."
      | rightHash :: rightSiblings => verifyLoop leftSiblings rightSiblings bits (node currentHash rightHash)

/-- `verify`. -/
def verify (proof : SparseMerkleRangeProof) (expectedRootHash : HashValue) (rightmostKnownLeaf : SparseMerkleLeafNode)
    (leftSiblings : List HashValue) : Except String Unit := do
  let numSiblings := leftSiblings.length + proof.rightSiblings.length
  let bits := if numSiblings ≤ HashValue.LENGTH_IN_BITS then
      rightmostKnownLeaf.key.iterBits.reverse.drop (HashValue.LENGTH_IN_BITS - numSiblings)
    else []
  let currentHash ← verifyLoop node leftSiblings proof.rightSiblings bits (rightmostKnownLeaf.hash leafHash)
  if currentHash ≠ expectedRootHash then .error "Root hashes do not match." else .ok ()

/-- The loop climbs with one sibling per bit, taken from either side. -/
theorem verifyLoop_eq_ok : ∀ {leftSiblings rightSiblings : List HashValue} {bits : List Bool} {x y : HashValue},
    verifyLoop node leftSiblings rightSiblings bits x = .ok y →
      ∃ siblings : List HashValue, siblings.length = bits.length ∧ y = SparseMerkleTree.climb node (siblings.zip bits) x
  | _, _, [], x, y, h => by
    rw [verifyLoop] at h
    cases h
    exact ⟨[], rfl, rfl⟩
  | leftSiblings, rightSiblings, true :: bits, x, y, h => by
    rcases leftSiblings with _ | ⟨leftHash, leftSiblings⟩
    · cases h
    · have hrest : verifyLoop node leftSiblings rightSiblings bits (node leftHash x) = .ok y := h
      obtain ⟨siblings, hlen, hy⟩ := verifyLoop_eq_ok hrest
      refine ⟨leftHash :: siblings, by rw [List.length_cons, List.length_cons, hlen], ?_⟩
      rw [hy, List.zip_cons_cons, SparseMerkleTree.climb_cons]
      rfl
  | leftSiblings, rightSiblings, false :: bits, x, y, h => by
    rcases rightSiblings with _ | ⟨rightHash, rightSiblings⟩
    · cases h
    · have hrest : verifyLoop node leftSiblings rightSiblings bits (node x rightHash) = .ok y := h
      obtain ⟨siblings, hlen, hy⟩ := verifyLoop_eq_ok hrest
      refine ⟨rightHash :: siblings, by rw [List.length_cons, List.length_cons, hlen], ?_⟩
      rw [hy, List.zip_cons_cons, SparseMerkleTree.climb_cons]
      rfl

/-- The bits `verify` reads are the path of a climb from some depth of the tree. -/
theorem bits_eq_pathBits (key : HashValue) (numSiblings : ℕ) :
    ∃ n ≤ HashValue.LENGTH_IN_BITS, (if numSiblings ≤ HashValue.LENGTH_IN_BITS then
      key.iterBits.reverse.drop (HashValue.LENGTH_IN_BITS - numSiblings) else []) =
        SparseMerkleTree.pathBits HashValue.getBit key n := by
  by_cases hn : numSiblings ≤ HashValue.LENGTH_IN_BITS
  · rw [if_pos hn]
    exact ⟨numSiblings, hn, HashValue.iterBits_reverse_drop key hn⟩
  · rw [if_neg hn]
    exact ⟨0, Nat.zero_le _, rfl⟩

theorem verify_eq_ok {proof : SparseMerkleRangeProof} {expectedRootHash : HashValue}
    {rightmostKnownLeaf : SparseMerkleLeafNode} {leftSiblings : List HashValue} :
    proof.verify leafHash node expectedRootHash rightmostKnownLeaf leftSiblings = .ok () ↔
      verifyLoop node leftSiblings proof.rightSiblings
        (if leftSiblings.length + proof.rightSiblings.length ≤ HashValue.LENGTH_IN_BITS then
          rightmostKnownLeaf.key.iterBits.reverse.drop
            (HashValue.LENGTH_IN_BITS - (leftSiblings.length + proof.rightSiblings.length))
        else []) (rightmostKnownLeaf.hash leafHash) = .ok expectedRootHash := by
  simp only [verify]
  cases verifyLoop node leftSiblings proof.rightSiblings _ (rightmostKnownLeaf.hash leafHash) with
  | error e => simp
  | ok y =>
    by_cases hroot : y = expectedRootHash
    · simp [hroot]
    · simp [hroot]

end SparseMerkleRangeProof

section Reference

variable {V : Type} (valueHash : V → HashValue)

/-- The entries of the tree of a map: each key with the hash of its value. -/
def treeEntries (M : AList fun _ : HashValue => V) : List (HashValue × HashValue) :=
  M.entries.map fun e => (e.1, valueHash e.2)

/-- The root of the sparse Merkle tree of a map, over the 256 bits of its keys. -/
def referenceRootHash (M : AList fun _ : HashValue => V) : HashValue :=
  SparseMerkleTree.rootHash HashValue.getBit leafHash node placeholder HashValue.LENGTH_IN_BITS (treeEntries valueHash M)

theorem mem_treeEntries_iff {M : AList fun _ : HashValue => V} {k h : HashValue} :
    (k, h) ∈ treeEntries valueHash M ↔ ∃ x, M.lookup k = some x ∧ valueHash x = h := by
  simp only [treeEntries, List.mem_map, Prod.mk.injEq]
  constructor
  · rintro ⟨⟨k', x⟩, hmem, rfl, rfl⟩
    exact ⟨x, AList.mem_lookup_iff.mpr hmem, rfl⟩
  · rintro ⟨x, hlookup, rfl⟩
    exact ⟨⟨k, x⟩, AList.mem_lookup_iff.mp hlookup, rfl, rfl⟩

/-- Keys of 32 bytes differ in one of their bits. -/
theorem distinct_treeEntries {M : AList fun _ : HashValue => V} (hkeys : ∀ k ∈ M.keys, k.val < 2 ^ 256) :
    SparseMerkleTree.Distinct HashValue.getBit HashValue.LENGTH_IN_BITS (treeEntries valueHash M) := by
  rw [SparseMerkleTree.Distinct, treeEntries, List.pairwise_map]
  refine (List.nodupKeys_iff_pairwise.mp M.nodupKeys).imp_of_mem fun ha hb hne => ?_
  by_contra hsame
  push Not at hsame
  exact hne (HashValue.eq_of_getBit_eq (hkeys _ (List.mem_keys_of_mem ha)) (hkeys _ (List.mem_keys_of_mem hb)) hsame)

end Reference

section Sound

variable {leafHash node placeholder} {V : Type} {valueHash : V → HashValue}
  (hsep : SparseMerkleTree.Separated leafHash node placeholder)
include hsep

/-- **An accepted inclusion proof gives the value at its key.** -/
theorem SparseMerkleProof.lookup_of_verify_some (hvalue : Function.Injective valueHash)
    {M : AList fun _ : HashValue => V} {proof : SparseMerkleProof} {elementKey : HashValue} {value : V}
    (h : proof.verify leafHash node placeholder valueHash (referenceRootHash leafHash node placeholder valueHash M)
      elementKey (some value) = .ok ()) :
    M.lookup elementKey = some value := by
  obtain ⟨hlen, hcheck, hroot⟩ := (verify_eq_ok leafHash node placeholder valueHash).mp h
  obtain ⟨leaf, hleaf, hkey, hvalueHash⟩ := checkLeaf_some_eq_ok valueHash hcheck
  rw [hleaf, Option.elim_some, SparseMerkleLeafNode.hash, hkey, hvalueHash] at hroot
  have hmem := SparseMerkleTree.mem_of_climb_leaf hsep hlen hroot
  obtain ⟨x, hlookup, hx⟩ := (mem_treeEntries_iff valueHash).mp hmem
  rw [hlookup, hvalue hx]

/-- **An accepted non-inclusion proof shows that its key is not in the map**,
when the keys are 32 bytes. -/
theorem SparseMerkleProof.not_mem_of_verify_none {M : AList fun _ : HashValue => V}
    (hkeys : ∀ k ∈ M.keys, k.val < 2 ^ 256) {proof : SparseMerkleProof} {elementKey : HashValue}
    (h : proof.verify leafHash node placeholder valueHash (referenceRootHash leafHash node placeholder valueHash M)
      elementKey none = .ok ()) :
    elementKey ∉ M := by
  obtain ⟨hlen, hcheck, hroot⟩ := (verify_eq_ok leafHash node placeholder valueHash).mp h
  have habsent : ∀ w, (elementKey, w) ∉ treeEntries valueHash M := by
    rcases checkLeaf_none_eq_ok valueHash hcheck with hnone | ⟨leaf, hleaf, hne, -⟩
    · rw [hnone, Option.elim_none] at hroot
      exact SparseMerkleTree.not_mem_of_climb_placeholder hsep (distinct_treeEntries valueHash hkeys) hlen hroot
    · rw [hleaf, Option.elim_some, SparseMerkleLeafNode.hash] at hroot
      exact SparseMerkleTree.not_mem_of_climb_leaf hsep hne hlen hroot
  intro hmem
  obtain ⟨x, hx⟩ := Option.isSome_iff_exists.mp (AList.lookup_isSome.mpr hmem)
  exact habsent (valueHash x) ((mem_treeEntries_iff valueHash).mpr ⟨x, hx, rfl⟩)

/-- **An accepted range proof shows that its rightmost leaf is in the map.** -/
theorem SparseMerkleRangeProof.lookup_of_verify {M : AList fun _ : HashValue => V}
    {proof : SparseMerkleRangeProof} {key valueHash' : HashValue} {leftSiblings : List HashValue}
    (h : proof.verify leafHash node (referenceRootHash leafHash node placeholder valueHash M) ⟨key, valueHash'⟩
      leftSiblings = .ok ()) :
    ∃ x, M.lookup key = some x ∧ valueHash x = valueHash' := by
  have hloop := (verify_eq_ok leafHash node).mp h
  obtain ⟨n, hn, hbits⟩ := bits_eq_pathBits key (leftSiblings.length + proof.rightSiblings.length)
  rw [hbits] at hloop
  obtain ⟨siblings, hlen, hroot⟩ := verifyLoop_eq_ok node hloop
  rw [SparseMerkleTree.length_pathBits] at hlen
  rw [← hlen] at hroot hn
  exact (mem_treeEntries_iff valueHash).mp (SparseMerkleTree.mem_of_climb_leaf hsep hn hroot.symm)

end Sound

/-- **Sparse Merkle proofs are sound** against the reference tree of a map
whose keys are 32 bytes: an accepted inclusion proof gives the value at its
key, an accepted non-inclusion proof a key outside the map, and an accepted
range proof a rightmost leaf of the map. -/
theorem sparseMerkleProofs_sound {leafHash node : HashValue → HashValue → HashValue} {placeholder : HashValue}
    (hsep : SparseMerkleTree.Separated leafHash node placeholder) {V : Type} {valueHash : V → HashValue}
    (hvalue : Function.Injective valueHash) (M : AList fun _ : HashValue => V)
    (hkeys : ∀ k ∈ M.keys, k.val < 2 ^ 256) :
    (∀ (proof : SparseMerkleProof) (elementKey : HashValue) (value : V),
      proof.verify leafHash node placeholder valueHash (referenceRootHash leafHash node placeholder valueHash M)
        elementKey (some value) = .ok () → M.lookup elementKey = some value) ∧
    (∀ (proof : SparseMerkleProof) (elementKey : HashValue),
      proof.verify leafHash node placeholder valueHash (referenceRootHash leafHash node placeholder valueHash M)
        elementKey none = .ok () → elementKey ∉ M) ∧
    (∀ (proof : SparseMerkleRangeProof) (key valueHash' : HashValue) (leftSiblings : List HashValue),
      proof.verify leafHash node (referenceRootHash leafHash node placeholder valueHash M) ⟨key, valueHash'⟩
        leftSiblings = .ok () → ∃ x, M.lookup key = some x ∧ valueHash x = valueHash') :=
  ⟨fun _ _ _ h => SparseMerkleProof.lookup_of_verify_some hsep hvalue h,
    fun _ _ h => SparseMerkleProof.not_mem_of_verify_none hsep hkeys h,
    fun _ _ _ _ h => SparseMerkleRangeProof.lookup_of_verify hsep h⟩

/-- A leaf hash for which `Separated` holds: the pair of key and value hash,
numbered by `Nat.pair`, at residue one modulo three. -/
def exampleLeafNodeHash (key valueHash : HashValue) : HashValue := ⟨3 * Nat.pair key.val valueHash.val + 1⟩

/-- An internal node hash for which `Separated` holds, at residue two modulo three. -/
def exampleInternalNodeHash (left right : HashValue) : HashValue := ⟨3 * Nat.pair left.val right.val + 2⟩

theorem example_separated : SparseMerkleTree.Separated exampleLeafNodeHash exampleInternalNodeHash HashValue.zero where
  leaf_injective {k k' v v'} h := by
    have hval : 3 * Nat.pair k.val v.val + 1 = 3 * Nat.pair k'.val v'.val + 1 := congrArg HashValue.val h
    obtain ⟨hk, hv⟩ := Nat.pair_eq_pair.mp (by omega : Nat.pair k.val v.val = Nat.pair k'.val v'.val)
    cases k
    cases k'
    cases v
    cases v'
    exact ⟨congrArg HashValue.mk hk, congrArg HashValue.mk hv⟩
  node_injective {a b c d} h := by
    have hval : 3 * Nat.pair a.val b.val + 2 = 3 * Nat.pair c.val d.val + 2 := congrArg HashValue.val h
    obtain ⟨hac, hbd⟩ := Nat.pair_eq_pair.mp (by omega : Nat.pair a.val b.val = Nat.pair c.val d.val)
    cases a
    cases b
    cases c
    cases d
    exact ⟨congrArg HashValue.mk hac, congrArg HashValue.mk hbd⟩
  leaf_ne_node k v a b h := by
    have hval : 3 * Nat.pair k.val v.val + 1 = 3 * Nat.pair a.val b.val + 2 := congrArg HashValue.val h
    omega
  leaf_ne_placeholder k v h := by
    have hval : 3 * Nat.pair k.val v.val + 1 = 0 := congrArg HashValue.val h
    omega
  node_ne_placeholder a b h := by
    have hval : 3 * Nat.pair a.val b.val + 2 = 0 := congrArg HashValue.val h
    omega

/-- A map of two keys that part at their first bit. -/
def exampleStateMap : AList fun _ : HashValue => ℕ := (AList.insert ⟨2 ^ 255⟩ 7 ∅).insert ⟨0⟩ 3

theorem sparseMerkleProofs_sound_exampleStateMap :
    (∀ (proof : SparseMerkleProof) (elementKey : HashValue) (value : ℕ),
      proof.verify exampleLeafNodeHash exampleInternalNodeHash HashValue.zero HashValue.mk
        (referenceRootHash exampleLeafNodeHash exampleInternalNodeHash HashValue.zero HashValue.mk exampleStateMap)
        elementKey (some value) = .ok () → exampleStateMap.lookup elementKey = some value) ∧
    (∀ (proof : SparseMerkleProof) (elementKey : HashValue),
      proof.verify exampleLeafNodeHash exampleInternalNodeHash HashValue.zero HashValue.mk
        (referenceRootHash exampleLeafNodeHash exampleInternalNodeHash HashValue.zero HashValue.mk exampleStateMap)
        elementKey none = .ok () → elementKey ∉ exampleStateMap) ∧
    (∀ (proof : SparseMerkleRangeProof) (key valueHash' : HashValue) (leftSiblings : List HashValue),
      proof.verify exampleLeafNodeHash exampleInternalNodeHash
        (referenceRootHash exampleLeafNodeHash exampleInternalNodeHash HashValue.zero HashValue.mk exampleStateMap)
        ⟨key, valueHash'⟩ leftSiblings = .ok () → ∃ x, exampleStateMap.lookup key = some x ∧ HashValue.mk x = valueHash') :=
  sparseMerkleProofs_sound example_separated (fun _ _ h => congrArg HashValue.val h) exampleStateMap (by decide)

/-- The second key is proved in the map, with the first key's leaf as its one
sibling, and the key one is proved absent by the first key's leaf. -/
example :
    (⟨some ⟨⟨2 ^ 255⟩, ⟨7⟩⟩, [exampleLeafNodeHash ⟨0⟩ ⟨3⟩]⟩ : SparseMerkleProof).verify exampleLeafNodeHash
        exampleInternalNodeHash HashValue.zero HashValue.mk
        (referenceRootHash exampleLeafNodeHash exampleInternalNodeHash HashValue.zero HashValue.mk exampleStateMap)
        ⟨2 ^ 255⟩ (some 7) = .ok () ∧
      (⟨some ⟨⟨0⟩, ⟨3⟩⟩, [exampleLeafNodeHash ⟨2 ^ 255⟩ ⟨7⟩]⟩ : SparseMerkleProof).verify exampleLeafNodeHash
        exampleInternalNodeHash HashValue.zero HashValue.mk
        (referenceRootHash exampleLeafNodeHash exampleInternalNodeHash HashValue.zero HashValue.mk exampleStateMap)
        ⟨1⟩ none = .ok () := by
  decide +kernel

end Diem
