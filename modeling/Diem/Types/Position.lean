import Diem.Theory.InorderTree
import Diem.Types.AccumulatorProof
import Diem.Types.Accumulator

/-!
# Positions in a Merkle accumulator

`types/src/proof/position/mod.rs`: a `Position` is the in-order index of a node
of the accumulator's tree, and moving to the parent, the sibling or a child is
bit manipulation on it. `to_postorder_index` is the key a node is stored under.

The index is a natural number. The `u64` arithmetic is exact for the positions
of an accumulator of at most `MAX_ACCUMULATOR_LEAVES = 2 ^ 63` leaves, so lemmas
about roots assume that bound. A `!x` of the code occurs only as `y & !x`, which
is `y ^ (y & x)`, and an `assert!` that fails makes a function return `none`.

`Position.ofCoords l j`, the node of level `l` with `j` nodes of its level to
its left, is every position (`eq_ofCoords`), and each operation is read off in
those coordinates: the parent is `ofCoords (l + 1) (j / 2)`, the sibling flips
the low bit of `j`, a position is frozen for `i + 1` leaves when
`(j + 1) * 2 ^ l ≤ i + 1`, and its post-order index is
`InorderTree.postorder l j`.
-/

namespace Diem

open InorderTree Nat

/-- `Position`: the in-order index of a node. -/
structure Position where
  toInorderIndex : ℕ
  deriving DecidableEq, Repr

/-- `NodeDirection`. -/
inductive NodeDirection where
  | Left
  | Right
  deriving DecidableEq

namespace Position

/-- `smear_ones_for_u64`: every bit below the highest one set. -/
def smearOnesForU64 (v : ℕ) : ℕ :=
  let n := v ||| v >>> 1
  let n := n ||| n >>> 2
  let n := n ||| n >>> 4
  let n := n ||| n >>> 8
  let n := n ||| n >>> 16
  n ||| n >>> 32

/-- `turn_off_right_most_n_bits`. -/
def turnOffRightMostNBits (v n : ℕ) : ℕ := (v >>> n) <<< n

/-- `isolate_rightmost_zero_bit`: `!v & v.overflowing_add(1).0`. -/
def isolateRightmostZeroBit (v : ℕ) : ℕ := (v + 1) ^^^ ((v + 1) &&& v)

/-- `u64::leading_zeros`. -/
def leadingZeros64 (v : ℕ) : ℕ := 64 - v.size

/-- `level`: `(!self.0).trailing_zeros()`. -/
def level (p : Position) : ℕ := trailingOnes p.toInorderIndex

/-- `is_leaf`. -/
def isLeaf (p : Position) : Bool := p.toInorderIndex &&& 1 == 0

/-- `from_level_and_pos`; a shift by `64` is avoided at level `63`. -/
def fromLevelAndPos (level pos : ℕ) : Position :=
  let levelOneBits := (1 <<< level) - 1
  let shiftedPos := if level = 63 then 0 else pos <<< (level + 1)
  ⟨shiftedPos ||| levelOneBits⟩

/-- `from_inorder_index`. -/
def fromInorderIndex (index : ℕ) : Position := ⟨index⟩

/-- `children_of_node`. -/
def childrenOfNode (node : ℕ) : ℕ := (isolateRightmostZeroBit node <<< 1) - 2

/-- `nodes_to_left_of`. -/
def nodesToLeftOf (node : ℕ) : ℕ :=
  let onesUpToLevel := isolateRightmostZeroBit node - 1
  let unsetLevelZeros := node ^^^ onesUpToLevel
  unsetLevelZeros - countOnes unsetLevelZeros

/-- `inorder_to_postorder`. -/
def inorderToPostorder (node : ℕ) : ℕ := childrenOfNode node + nodesToLeftOf node

/-- `to_postorder_index`. -/
def toPostorderIndex (p : Position) : ℕ := inorderToPostorder p.toInorderIndex

/-- `parent`. -/
def parent (p : Position) : Position :=
  let iso := isolateRightmostZeroBit p.toInorderIndex
  let x := p.toInorderIndex ||| iso
  ⟨x ^^^ (x &&& (iso <<< 1))⟩

/-- `child`. -/
def child (p : Position) (dir : NodeDirection) : Position :=
  let iso := isolateRightmostZeroBit p.toInorderIndex
  let directionBit := match dir with
    | .Left => 0
    | .Right => iso
  let x := p.toInorderIndex ||| directionBit
  ⟨x ^^^ (x &&& (iso >>> 1))⟩

/-- `left_child`. -/
def leftChild (p : Position) : Position := p.child .Left

/-- `right_child`. -/
def rightChild (p : Position) : Position := p.child .Right

/-- `is_left_child`. -/
def isLeftChild (p : Position) : Bool :=
  p.toInorderIndex &&& (isolateRightmostZeroBit p.toInorderIndex <<< 1) == 0

/-- `is_right_child`. -/
def isRightChild (p : Position) : Bool := !p.isLeftChild

/-- `from_leaf_index`. -/
def fromLeafIndex (leafIndex : ℕ) : Position := fromLevelAndPos 0 leafIndex

/-- `sibling`. -/
def sibling (p : Position) : Position :=
  ⟨p.toInorderIndex ^^^ (isolateRightmostZeroBit p.toInorderIndex <<< 1)⟩

/-- `root_from_leaf_index`. -/
def rootFromLeafIndex (leafIndex : ℕ) : Position :=
  let leaf := fromLeafIndex leafIndex
  ⟨smearOnesForU64 leaf.toInorderIndex >>> 1⟩

/-- `root_from_leaf_count`; `none` where `assert!(leaf_count > 0)` fails. -/
def rootFromLeafCount (leafCount : ℕ) : Option Position :=
  if leafCount > 0 then some (rootFromLeafIndex (leafCount - 1)) else none

/-- `root_level_from_leaf_count`; `none` where `assert!(leaf_count > 0)` fails. -/
def rootLevelFromLeafCount (leafCount : ℕ) : Option ℕ :=
  if leafCount > 0 then
    let index := leafCount - 1
    some (MAX_ACCUMULATOR_PROOF_DEPTH + 1 - leadingZeros64 index)
  else none

/-- `right_most_child`. -/
def rightMostChild (p : Position) : Position := ⟨p.toInorderIndex + (1 <<< p.level) - 1⟩

/-- `left_most_child`. -/
def leftMostChild (p : Position) : Position := ⟨turnOffRightMostNBits p.toInorderIndex p.level⟩

/-- `is_freezable`: the subtree's rightmost leaf is there. -/
def isFreezable (p : Position) (leafIndex : ℕ) : Bool :=
  let leaf := fromLeafIndex leafIndex
  p.rightMostChild.toInorderIndex ≤ leaf.toInorderIndex

/-- `is_placeholder`: none of the subtree's leaves is there. -/
def isPlaceholder (p : Position) (leafIndex : ℕ) : Bool :=
  let leaf := fromLeafIndex leafIndex
  if p.toInorderIndex ≤ leaf.toInorderIndex then false
  else if p.leftMostChild.toInorderIndex ≤ leaf.toInorderIndex then false
  else true

/-! ### Coordinates -/

/-- The node of level `l` with `j` nodes of its level to its left. -/
def ofCoords (l j : ℕ) : Position := ⟨inorder l j⟩

theorem ofCoords_injective {l j l' j' : ℕ} (h : ofCoords l j = ofCoords l' j') : l = l' ∧ j = j' :=
  inorder_injective (Position.mk.inj h)

theorem eq_ofCoords (p : Position) : p = ofCoords p.level (p.toInorderIndex >>> (p.level + 1)) := by
  rw [ofCoords, level, inorder_trailingOnes]

@[simp] theorem level_ofCoords (l j : ℕ) : (ofCoords l j).level = l := trailingOnes_inorder l j

@[simp] theorem isolateRightmostZeroBit_ofCoords (l j : ℕ) :
    isolateRightmostZeroBit (ofCoords l j).toInorderIndex = 2 ^ l :=
  isolate_inorder l j

theorem two_pow_shiftLeft_one (l : ℕ) : 2 ^ l <<< 1 = 2 ^ (l + 1) := by
  rw [Nat.shiftLeft_eq, ← Nat.pow_add]

@[simp] theorem isLeftChild_ofCoords (l j : ℕ) : (ofCoords l j).isLeftChild = decide (j % 2 = 0) := by
  rw [isLeftChild, isolateRightmostZeroBit_ofCoords, two_pow_shiftLeft_one]
  show (inorder l j &&& 2 ^ (l + 1) == 0) = _
  rw [inorder_and_two_pow_succ]
  rcases Nat.mod_two_eq_zero_or_one j with h | h <;> simp [h]

@[simp] theorem isRightChild_ofCoords (l j : ℕ) : (ofCoords l j).isRightChild = decide (j % 2 = 1) := by
  rw [isRightChild, isLeftChild_ofCoords]
  rcases Nat.mod_two_eq_zero_or_one j with h | h <;> simp [h]

@[simp] theorem sibling_ofCoords (l j : ℕ) : (ofCoords l j).sibling = ofCoords l (j ^^^ 1) := by
  rw [sibling, isolateRightmostZeroBit_ofCoords, two_pow_shiftLeft_one]
  exact congrArg Position.mk (inorder_xor_two_pow_succ l j)

@[simp] theorem parent_ofCoords (l j : ℕ) : (ofCoords l j).parent = ofCoords (l + 1) (j / 2) := by
  simp only [parent, isolateRightmostZeroBit_ofCoords, two_pow_shiftLeft_one]
  exact congrArg Position.mk (inorder_parent l j)

@[simp] theorem leftChild_ofCoords (k j : ℕ) : (ofCoords (k + 1) j).leftChild = ofCoords k (2 * j) := by
  simp only [leftChild, child, isolateRightmostZeroBit_ofCoords, Nat.or_zero]
  rw [Nat.pow_succ, Nat.shiftRight_eq_div_pow, Nat.pow_one, Nat.mul_div_cancel _ (by omega)]
  exact congrArg Position.mk (inorder_leftChild k j)

@[simp] theorem rightChild_ofCoords (k j : ℕ) : (ofCoords (k + 1) j).rightChild = ofCoords k (2 * j + 1) := by
  simp only [rightChild, child, isolateRightmostZeroBit_ofCoords]
  rw [show 2 ^ (k + 1) >>> 1 = 2 ^ k by
    rw [Nat.pow_succ, Nat.shiftRight_eq_div_pow, Nat.pow_one, Nat.mul_div_cancel _ (by omega)]]
  exact congrArg Position.mk (inorder_rightChild k j)

@[simp] theorem isLeaf_ofCoords (l j : ℕ) : (ofCoords l j).isLeaf = decide (l = 0) := by
  rcases l with _ | l
  · simp [isLeaf, ofCoords]
  · simp [isLeaf, ofCoords, inorder_succ]

theorem fromLevelAndPos_eq {l j : ℕ} (h : l ≠ 63) : fromLevelAndPos l j = ofCoords l j := by
  simp only [fromLevelAndPos, if_neg h, ofCoords, inorder, Nat.shiftLeft_eq, Nat.one_mul]
  rw [Nat.mul_comm, two_pow_add_eq_or_of_lt (two_pow_sub_one_lt l)]

@[simp] theorem fromLeafIndex_eq (i : ℕ) : fromLeafIndex i = ofCoords 0 i := fromLevelAndPos_eq (by omega)

theorem rightMostChild_ofCoords (l j : ℕ) : (ofCoords l j).rightMostChild = ofCoords 0 ((j + 1) * 2 ^ l - 1) := by
  rw [rightMostChild, level_ofCoords, Nat.shiftLeft_eq, Nat.one_mul]
  simp only [ofCoords, inorder_zero_left]
  congr 1
  have := Nat.one_le_two_pow (n := l)
  have : 1 ≤ (j + 1) * 2 ^ l := Nat.one_le_iff_ne_zero.mpr (Nat.mul_ne_zero (by omega) (by omega))
  simp only [inorder, Nat.pow_succ]
  rw [Nat.mul_sub, Nat.mul_one, Nat.add_mul, Nat.one_mul]
  have : 2 ^ l * 2 * j = 2 * (j * 2 ^ l) := by ring
  omega

theorem leftMostChild_ofCoords (l j : ℕ) : (ofCoords l j).leftMostChild = ofCoords 0 (j * 2 ^ l) := by
  rw [leftMostChild, level_ofCoords, turnOffRightMostNBits]
  simp only [ofCoords, inorder_zero_left]
  rw [shiftLeft_shiftRight_inorder, Nat.pow_succ]
  congr 1
  ring

/-- A node is frozen for the leaves up to `i` when its rightmost leaf is
among them. -/
@[simp] theorem isFreezable_ofCoords (l j i : ℕ) :
    (ofCoords l j).isFreezable i = decide ((j + 1) * 2 ^ l ≤ i + 1) := by
  rw [isFreezable, rightMostChild_ofCoords, fromLeafIndex_eq]
  simp only [ofCoords, inorder_zero_left]
  have : 1 ≤ (j + 1) * 2 ^ l := Nat.one_le_iff_ne_zero.mpr (Nat.mul_ne_zero (by omega) (by positivity))
  simp only [decide_eq_decide]
  omega

/-- A node is a placeholder for the leaves up to `i` when its leftmost leaf is
past them. -/
@[simp] theorem isPlaceholder_ofCoords (l j i : ℕ) :
    (ofCoords l j).isPlaceholder i = decide (i < j * 2 ^ l) := by
  rw [isPlaceholder, leftMostChild_ofCoords, fromLeafIndex_eq]
  have hle : inorder 0 (j * 2 ^ l) ≤ inorder l j := by
    rw [inorder_zero_left, inorder]
    rw [Nat.pow_succ]
    have : 2 * (j * 2 ^ l) = 2 ^ l * 2 * j := by ring
    omega
  simp only [ofCoords, inorder_zero_left] at hle ⊢
  split_ifs with h1 h2 <;> simp <;> omega

@[simp] theorem toPostorderIndex_ofCoords (l j : ℕ) : (ofCoords l j).toPostorderIndex = postorder l j := by
  simp only [toPostorderIndex, inorderToPostorder, childrenOfNode, nodesToLeftOf]
  rw [isolateRightmostZeroBit_ofCoords, two_pow_shiftLeft_one]
  simp only [ofCoords]
  rw [inorder_xor_two_pow_sub_one, countOnes_two_pow_mul, postorder]
  have h1 := countOnes_le j
  have h2 : 2 ≤ 2 ^ (l + 1) := Nat.le_self_pow (by omega) _
  have h3 : j ≤ 2 ^ (l + 1) * j := Nat.le_mul_of_pos_left _ (by positivity)
  rw [Nat.mul_add, Nat.mul_one]
  omega

/-! ### The root -/

theorem smearOnesForU64_eq {v : ℕ} (hv : v < 2 ^ 64) : smearOnesForU64 v = 2 ^ v.size - 1 := by
  have h := (((((smeared_one v).or_shiftRight).or_shiftRight).or_shiftRight).or_shiftRight).or_shiftRight
  exact h.or_shiftRight.eq_two_pow_size_sub_one (Nat.size_le.mpr hv)

/-- The highest one bit of a positive `u64`, less one. -/
theorem smearOnesForU64_shiftRight_one {v : ℕ} (hv0 : 0 < v) (hv : v < 2 ^ 64) :
    smearOnesForU64 v >>> 1 = 2 ^ (v.size - 1) - 1 := by
  have hsize := Nat.size_pos.2 hv0
  have htwice : 2 ^ v.size = 2 * 2 ^ (v.size - 1) := by
    rw [← Nat.pow_succ', Nat.succ_eq_add_one, Nat.sub_add_cancel hsize]
  have := Nat.one_le_two_pow (n := v.size - 1)
  rw [smearOnesForU64_eq hv, Nat.shiftRight_one]
  omega

theorem rootFromLeafIndex_eq {i : ℕ} (hi : i < 2 ^ 63) : rootFromLeafIndex i = ofCoords i.size 0 := by
  simp only [rootFromLeafIndex, fromLeafIndex_eq, ofCoords, inorder_zero_left, inorder_left_zero]
  rw [smearOnesForU64_eq (by omega)]
  congr 1
  rcases Nat.eq_zero_or_pos i with rfl | hpos
  · rfl
  · rw [show 2 * i = i <<< 1 by rw [Nat.shiftLeft_eq, Nat.pow_one, Nat.mul_comm],
      Nat.size_shiftLeft (by omega), Nat.shiftRight_one, Nat.pow_succ]
    have := Nat.one_le_two_pow (n := i.size)
    omega

/-- The root of `n` leaves, for a positive count within `MAX_ACCUMULATOR_LEAVES`. -/
theorem rootFromLeafCount_eq {n : ℕ} (hn : 0 < n) (hmax : n ≤ 2 ^ 63) :
    rootFromLeafCount n = some (ofCoords (Nat.clog 2 n) 0) := by
  rw [rootFromLeafCount, if_pos hn, rootFromLeafIndex_eq (by omega), size_pred_eq_clog n hn]

theorem rootLevelFromLeafCount_eq {n : ℕ} (hn : 0 < n) (hmax : n ≤ 2 ^ 63) :
    rootLevelFromLeafCount n = some (Nat.clog 2 n) := by
  have hsize : (n - 1).size ≤ 64 := Nat.size_le.mpr (by omega)
  simp only [rootLevelFromLeafCount, if_pos hn, leadingZeros64, MAX_ACCUMULATOR_PROOF_DEPTH,
    ← size_pred_eq_clog n hn]
  congr 1
  omega

/-! ### Iterators -/

/-- `iter_ancestor_sibling`, its first `k` items: the siblings of the position
and of its ancestors, from the bottom up. -/
def iterAncestorSibling (p : Position) : ℕ → List Position
  | 0 => []
  | k + 1 => p.sibling :: p.parent.iterAncestorSibling k

/-- `FrozenSubTreeIterator`, its items from `bitmap` leaves still to cover
after `seenLeaves`: the roots of the full subtrees, left to right. The highest
one bit of the bitmap is the biggest subtree left; each round clears it
(`&= !num_leaves`), so 64 rounds empty a `u64` bitmap. -/
def frozenSubTrees : ℕ → ℕ → ℕ → List Position
  | 0, _, _ => []
  | fuel + 1, bitmap, seenLeaves =>
    if bitmap = 0 then []
    else
      let rootOffset := smearOnesForU64 bitmap >>> 1
      let numLeaves := rootOffset + 1
      let leftmostLeaf := fromLeafIndex seenLeaves
      let root := fromInorderIndex (leftmostLeaf.toInorderIndex + rootOffset)
      root :: frozenSubTrees fuel (bitmap ^^^ (bitmap &&& numLeaves)) (seenLeaves + numLeaves)

/-- `FrozenSubTreeIterator::new`, collected. -/
def frozenSubTreeIterator (numLeaves : ℕ) : List Position := frozenSubTrees 64 numLeaves 0

/-- `next_new_leaf_batch`: the largest power of two in a positive count. -/
def nextNewLeafBatch (remainingNewLeaves : ℕ) : ℕ :=
  1 <<< (MAX_ACCUMULATOR_PROOF_DEPTH - leadingZeros64 remainingNewLeaves)

/-- The size of the next subtree in `FrozenSubtreeSiblingIterator::next`: the
rightmost frozen subtree's, if that many new leaves remain, and otherwise the
largest power of two in what remains. -/
def nextSubtreeLeaves (currentNumLeaves remainingNewLeaves : ℕ) : ℕ :=
  if currentNumLeaves > 0 then
    let rightmostFrozenSubtreeLeaves := 1 <<< currentNumLeaves.trailingZeros
    if remainingNewLeaves ≥ rightmostFrozenSubtreeLeaves then rightmostFrozenSubtreeLeaves
    else nextNewLeafBatch remainingNewLeaves
  else nextNewLeafBatch remainingNewLeaves

theorem nextSubtreeLeaves_pos (currentNumLeaves remainingNewLeaves : ℕ) :
    0 < nextSubtreeLeaves currentNumLeaves remainingNewLeaves := by
  unfold nextSubtreeLeaves nextNewLeafBatch
  simp only [Nat.one_shiftLeft]
  split_ifs <;> exact Nat.two_pow_pos _

/-- The items of a `FrozenSubtreeSiblingIterator` from `currentNumLeaves`
leaves with `remainingNewLeaves` to come: the roots of the subtrees the new
leaves form, left to right. -/
def frozenSubtreeSiblings (currentNumLeaves remainingNewLeaves : ℕ) : List Position :=
  if h : remainingNewLeaves = 0 then []
  else
    let nextSubtree := nextSubtreeLeaves currentNumLeaves remainingNewLeaves
    let firstLeafIndex := currentNumLeaves
    let lastLeafIndex := firstLeafIndex + nextSubtree - 1
    fromInorderIndex (firstLeafIndex + lastLeafIndex) ::
      frozenSubtreeSiblings (currentNumLeaves + nextSubtree) (remainingNewLeaves - nextSubtree)
termination_by remainingNewLeaves
decreasing_by
  have := nextSubtreeLeaves_pos currentNumLeaves remainingNewLeaves
  omega

/-- `FrozenSubtreeSiblingIterator::new`, collected; `none` where one of its
`assert!`s fails. -/
def frozenSubtreeSiblingIterator (currentNumLeaves newNumLeaves : ℕ) : Option (List Position) :=
  if newNumLeaves ≤ MAX_ACCUMULATOR_LEAVES ∧ currentNumLeaves ≤ newNumLeaves then
    some (frozenSubtreeSiblings currentNumLeaves (newNumLeaves - currentNumLeaves))
  else none

theorem frozenSubtreeSiblings_zero (c : ℕ) : frozenSubtreeSiblings c 0 = [] := by
  rw [frozenSubtreeSiblings, dif_pos rfl]

theorem frozenSubtreeSiblings_of_pos {c r : ℕ} (hr : 0 < r) : frozenSubtreeSiblings c r =
    fromInorderIndex (c + (c + nextSubtreeLeaves c r - 1)) ::
      frozenSubtreeSiblings (c + nextSubtreeLeaves c r) (r - nextSubtreeLeaves c r) := by
  rw [frozenSubtreeSiblings, dif_neg (by omega)]

/-- The root of the subtree of height `s` whose first leaf is `2 ^ s * j`. -/
theorem fromInorderIndex_subtree (s j : ℕ) :
    fromInorderIndex (2 ^ s * j + (2 ^ s * j + 2 ^ s - 1)) = ofCoords s j := by
  have hone := Nat.one_le_two_pow (n := s)
  have htwice : 2 ^ (s + 1) * j = 2 * (2 ^ s * j) := by rw [Nat.pow_succ]; ring
  simp only [fromInorderIndex, ofCoords, inorder, htwice]
  congr 1
  omega

/-- While as many new leaves remain, the next subtree is as large as the rightmost frozen one. -/
theorem nextSubtreeLeaves_of_le {c r : ℕ} (hc : 0 < c) (hr : 2 ^ c.trailingZeros ≤ r) :
    nextSubtreeLeaves c r = 2 ^ c.trailingZeros := by
  simp only [nextSubtreeLeaves, if_pos hc, Nat.one_shiftLeft, if_pos hr]

/-- Past that, it is the largest power of two in what remains. -/
theorem nextSubtreeLeaves_of_lt {c r : ℕ} (hc : 0 < c) (hr0 : 0 < r) (hr : r < 2 ^ c.trailingZeros)
    (h64 : r < 2 ^ 64) : nextSubtreeLeaves c r = 2 ^ (r.size - 1) := by
  have hsize : r.size ≤ 64 := Nat.size_le.2 h64
  have hpos : 0 < r.size := Nat.size_pos.2 hr0
  simp only [nextSubtreeLeaves, if_pos hc, Nat.one_shiftLeft, if_neg (not_le.2 hr), nextNewLeafBatch, leadingZeros64,
    MAX_ACCUMULATOR_PROOF_DEPTH]
  congr 1
  omega

/-- The next subtree is a power of two that fits in what remains and is
aligned at the current count. -/
theorem nextSubtreeLeaves_dvd {c r : ℕ} (hc : 0 < c) (hr0 : 0 < r) (h64 : r < 2 ^ 64) :
    ∃ s, nextSubtreeLeaves c r = 2 ^ s ∧ 2 ^ s ≤ r ∧ 2 ^ s ∣ c := by
  obtain ⟨y, hy⟩ := exists_eq_two_pow_trailingZeros_mul hc
  have htz : 2 ^ c.trailingZeros ∣ c := Dvd.intro _ hy.symm
  by_cases hlt : r < 2 ^ c.trailingZeros
  · have hlow := (two_pow_size_pred_le hr0).1
    have hst : r.size - 1 < c.trailingZeros := (Nat.pow_lt_pow_iff_right (by norm_num)).1 (lt_of_le_of_lt hlow hlt)
    exact ⟨r.size - 1, nextSubtreeLeaves_of_lt hc hr0 hlt h64, hlow, (Nat.pow_dvd_pow 2 hst.le).trans htz⟩
  · exact ⟨c.trailingZeros, nextSubtreeLeaves_of_le hc (not_lt.1 hlt), not_lt.1 hlt, htz⟩

/-- From no leaves, the first subtree is the largest power of two. -/
theorem nextSubtreeLeaves_zero {r : ℕ} (hr0 : 0 < r) (h64 : r < 2 ^ 64) :
    nextSubtreeLeaves 0 r = 2 ^ (r.size - 1) := by
  have hsize : r.size ≤ 64 := Nat.size_le.2 h64
  have hpos : 0 < r.size := Nat.size_pos.2 hr0
  simp only [nextSubtreeLeaves, gt_iff_lt, Nat.lt_irrefl, if_false, Nat.one_shiftLeft, nextNewLeafBatch,
    leadingZeros64, MAX_ACCUMULATOR_PROOF_DEPTH]
  congr 1
  omega

/-- One round of `FrozenSubTreeIterator`: the subtree of the highest one bit,
from the first leaf not seen yet. -/
theorem frozenSubTrees_succ (fuel seen : ℕ) {b : ℕ} (hb0 : 0 < b) (hb : b < 2 ^ 64) :
    frozenSubTrees (fuel + 1) b seen =
      fromInorderIndex (seen + (seen + 2 ^ (b.size - 1) - 1)) ::
        frozenSubTrees fuel (b - 2 ^ (b.size - 1)) (seen + 2 ^ (b.size - 1)) := by
  obtain ⟨hlow, hhigh⟩ := two_pow_size_pred_le hb0
  have hone := Nat.one_le_two_pow (n := b.size - 1)
  have hclear : b ^^^ (b &&& 2 ^ (b.size - 1)) = b - 2 ^ (b.size - 1) := by
    have h := two_pow_add_xor_and (s := b.size - 1) (r := b - 2 ^ (b.size - 1)) (by rw [Nat.pow_succ] at hhigh; omega)
    rwa [Nat.add_sub_cancel' hlow] at h
  simp only [frozenSubTrees, if_neg (Nat.pos_iff_ne_zero.1 hb0), smearOnesForU64_shiftRight_one hb0 hb,
    Nat.sub_add_cancel hone, hclear, fromLeafIndex_eq, ofCoords, inorder_zero_left]
  rw [show 2 * seen + (2 ^ (b.size - 1) - 1) = seen + (seen + 2 ^ (b.size - 1) - 1) by omega]

/-- **`FrozenSubTreeIterator` lists what `FrozenSubtreeSiblingIterator`
lists** after `c` leaves, when there are none or the rightmost frozen subtree
of `c` is larger than all of `b`: both take the highest one bit of what
remains, each round. -/
theorem frozenSubTrees_eq_frozenSubtreeSiblings : ∀ (fuel b c : ℕ), b < 2 ^ 64 → countOnes b ≤ fuel →
    (c = 0 ∨ b < 2 ^ c.trailingZeros) → frozenSubTrees fuel b c = frozenSubtreeSiblings c b := by
  intro fuel
  induction fuel with
  | zero =>
    intro b c _ hones _
    obtain rfl : b = 0 := countOnes_eq_zero_iff.1 (by omega)
    rw [frozenSubTrees, frozenSubtreeSiblings_zero]
  | succ fuel ih =>
    intro b c hb hones hc
    rcases Nat.eq_zero_or_pos b with rfl | hb0
    · rw [frozenSubTrees, if_pos rfl, frozenSubtreeSiblings_zero]
    · obtain ⟨hlow, hhigh⟩ := two_pow_size_pred_le hb0
      have hnext : nextSubtreeLeaves c b = 2 ^ (b.size - 1) := by
        rcases hc with rfl | hc
        · exact nextSubtreeLeaves_zero hb0 hb
        · have hc0 : 0 < c := Nat.pos_of_ne_zero fun h => by simp [h, trailingZeros] at hc; omega
          exact nextSubtreeLeaves_of_lt hc0 hb0 hc hb
      generalize hs : b.size - 1 = s at hlow hhigh hnext
      -- what is left lies below the subtree just listed, which becomes the rightmost one
      have hrest : b - 2 ^ s < 2 ^ s := by rw [Nat.pow_succ] at hhigh; omega
      have hones' : countOnes b = countOnes (b - 2 ^ s) + 1 := by
        have h := countOnes_add_two_pow_mul 1 hrest
        rwa [Nat.mul_one, Nat.sub_add_cancel hlow, show countOnes 1 = 1 from countOnes_two_pow 0] at h
      have htz : (c + 2 ^ s).trailingZeros = s := by
        refine trailingZeros_add_two_pow (hc.imp_right fun hc => ?_)
        exact (Nat.pow_lt_pow_iff_right (by norm_num)).1 (lt_of_le_of_lt hlow hc)
      rw [frozenSubTrees_succ fuel c hb0 hb, frozenSubtreeSiblings_of_pos hb0, hnext, hs,
        ih (b - 2 ^ s) (c + 2 ^ s) (by omega) (by omega) (Or.inr (by rw [htz]; exact hrest))]

theorem iterAncestorSibling_ofCoords (k : ℕ) : ∀ l j, (ofCoords l j).iterAncestorSibling k =
    (List.range k).map fun d => ofCoords (l + d) ((j >>> d) ^^^ 1) := by
  induction k with
  | zero => intro l j; rfl
  | succ k ih =>
    intro l j
    rw [iterAncestorSibling, sibling_ofCoords, parent_ofCoords, ih, List.range_succ_eq_map, List.map_cons,
      List.map_map]
    congr 1
    refine List.map_congr_left fun d _ => ?_
    simp only [Function.comp]
    rw [show l + (d + 1) = l + 1 + d by omega, Nat.succ_eq_add_one, Nat.add_comm d 1, Nat.shiftRight_add,
      Nat.shiftRight_one]

end Position

end Diem
