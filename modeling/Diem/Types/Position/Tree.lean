import Diem.Types.Position

/-!
# The tree the positions form

The laws `position_test.rs` samples below `300`, for every position: the parent
of a child is the node, the sibling of the sibling is the node, a position is the
left or the right child of its parent as `is_left_child` says, the children sit
on either side in order, `from_level_and_pos` inverts `level` and
`pos_counting_from_left`, and the leftmost and rightmost children,
`is_freezable` and `is_placeholder` speak of the leaves under the node.

A leaf under `p` is a leaf of which `p` is an ancestor, or `p` itself
(`IsDescendant`). Each law is proved in the coordinates of `Position.ofCoords`,
where the operations are arithmetic on the level and the index in the level, and
**`position_tree_laws`** collects them. The `u64` arithmetic of the code is that
of the model on the positions of the tree of `2 ^ 63` leaves.
-/

namespace Diem

open InorderTree Nat

namespace Position

/-- `q` lies in the subtree of `p`: `p` is `q` or an ancestor of it. -/
def IsDescendant (q p : Position) : Prop := ∃ k, parent^[k] q = p

theorem exists_ofCoords (p : Position) : ∃ l j, p = ofCoords l j := ⟨_, _, eq_ofCoords p⟩

theorem parent_iterate_ofCoords (k l j : ℕ) : parent^[k] (ofCoords l j) = ofCoords (l + k) (j / 2 ^ k) := by
  induction k with
  | zero => simp
  | succ k ih =>
    rw [Function.iterate_succ_apply', ih, parent_ofCoords, Nat.div_div_eq_div_mul, ← Nat.pow_succ, Nat.add_assoc]

/-- The leaves under the node of level `l` and index `j` are those of the
indices `j * 2 ^ l` to `(j + 1) * 2 ^ l - 1`. -/
theorem leaf_isDescendant_iff (m l j : ℕ) :
    (ofCoords 0 m).IsDescendant (ofCoords l j) ↔ j * 2 ^ l ≤ m ∧ m < (j + 1) * 2 ^ l := by
  have hdiv : m / 2 ^ l = j ↔ j * 2 ^ l ≤ m ∧ m < (j + 1) * 2 ^ l := by
    have := Nat.one_le_two_pow (n := l)
    rw [Nat.div_eq_iff (by positivity), Nat.add_mul, Nat.one_mul]
    constructor
    · rintro ⟨h1, h2⟩
      exact ⟨h1, by omega⟩
    · rintro ⟨h1, h2⟩
      exact ⟨h1, by omega⟩
  rw [← hdiv]
  constructor
  · rintro ⟨k, hk⟩
    rw [parent_iterate_ofCoords, Nat.zero_add] at hk
    obtain ⟨rfl, rfl⟩ := ofCoords_injective hk
    rfl
  · intro h
    exact ⟨l, by rw [parent_iterate_ofCoords, Nat.zero_add, h]⟩

/-! ## Parents, children and siblings -/

theorem parent_leftChild {p : Position} (h : p.isLeaf = false) : p.leftChild.parent = p := by
  obtain ⟨l, j, rfl⟩ := exists_ofCoords p
  obtain ⟨k, rfl⟩ : ∃ k, l = k + 1 := ⟨l - 1, by simp at h; omega⟩
  rw [leftChild_ofCoords, parent_ofCoords]
  congr 1
  omega

theorem parent_rightChild {p : Position} (h : p.isLeaf = false) : p.rightChild.parent = p := by
  obtain ⟨l, j, rfl⟩ := exists_ofCoords p
  obtain ⟨k, rfl⟩ : ∃ k, l = k + 1 := ⟨l - 1, by simp at h; omega⟩
  rw [rightChild_ofCoords, parent_ofCoords]
  congr 1
  omega

theorem level_parent (p : Position) : p.parent.level = p.level + 1 := by
  obtain ⟨l, j, rfl⟩ := exists_ofCoords p
  simp

theorem sibling_sibling (p : Position) : p.sibling.sibling = p := by
  obtain ⟨l, j, rfl⟩ := exists_ofCoords p
  rw [sibling_ofCoords, sibling_ofCoords, Nat.xor_assoc, Nat.xor_self, Nat.xor_zero]

theorem sibling_leftChild {p : Position} (h : p.isLeaf = false) : p.leftChild.sibling = p.rightChild := by
  obtain ⟨l, j, rfl⟩ := exists_ofCoords p
  obtain ⟨k, rfl⟩ : ∃ k, l = k + 1 := ⟨l - 1, by simp at h; omega⟩
  rw [leftChild_ofCoords, rightChild_ofCoords, sibling_ofCoords]
  congr 1
  exact Nat.xor_one_of_even (even_two_mul j)

/-- A position is the left child of its parent exactly when `is_left_child`
says so. -/
theorem isLeftChild_iff (p : Position) : p.isLeftChild = true ↔ p.parent.leftChild = p := by
  obtain ⟨l, j, rfl⟩ := exists_ofCoords p
  rw [isLeftChild_ofCoords, parent_ofCoords, leftChild_ofCoords, decide_eq_true_iff]
  constructor
  · intro h
    congr 1
    omega
  · intro h
    have := (ofCoords_injective h).2
    omega

theorem isRightChild_iff (p : Position) : p.isRightChild = true ↔ p.parent.rightChild = p := by
  obtain ⟨l, j, rfl⟩ := exists_ofCoords p
  rw [isRightChild_ofCoords, parent_ofCoords, rightChild_ofCoords, decide_eq_true_iff]
  constructor
  · intro h
    congr 1
    omega
  · intro h
    have := (ofCoords_injective h).2
    omega

theorem leftChild_lt {p : Position} (h : p.isLeaf = false) : p.leftChild.toInorderIndex < p.toInorderIndex := by
  obtain ⟨l, j, rfl⟩ := exists_ofCoords p
  obtain ⟨k, rfl⟩ : ∃ k, l = k + 1 := ⟨l - 1, by simp at h; omega⟩
  rw [leftChild_ofCoords]
  simp only [ofCoords, inorder, Nat.pow_succ]
  have := Nat.one_le_two_pow (n := k)
  have : 2 ^ k * 2 * (2 * j) = 2 ^ k * 2 * 2 * j := by ring
  omega

theorem lt_rightChild {p : Position} (h : p.isLeaf = false) : p.toInorderIndex < p.rightChild.toInorderIndex := by
  obtain ⟨l, j, rfl⟩ := exists_ofCoords p
  obtain ⟨k, rfl⟩ : ∃ k, l = k + 1 := ⟨l - 1, by simp at h; omega⟩
  rw [rightChild_ofCoords]
  simp only [ofCoords, inorder, Nat.pow_succ]
  have := Nat.one_le_two_pow (n := k)
  have : 2 ^ k * 2 * (2 * j + 1) = 2 ^ k * 2 * 2 * j + 2 ^ k * 2 := by ring
  omega

/-- `from_level_and_pos` of the level and the index in the level is the
position, below the top level. -/
theorem fromLevelAndPos_level {p : Position} (h : p.level ≠ 63) :
    fromLevelAndPos p.level (p.toInorderIndex >>> (p.level + 1)) = p := by
  rw [fromLevelAndPos_eq h, ← eq_ofCoords]

/-! ## The leaves under a node -/

theorem leftMostChild_least (p : Position) :
    ∃ m, p.leftMostChild = ofCoords 0 m ∧ (ofCoords 0 m).IsDescendant p ∧
      ∀ m', (ofCoords 0 m').IsDescendant p → m ≤ m' := by
  obtain ⟨l, j, rfl⟩ := exists_ofCoords p
  refine ⟨j * 2 ^ l, leftMostChild_ofCoords l j, (leaf_isDescendant_iff _ l j).mpr ⟨le_refl _, ?_⟩,
    fun m' h => ((leaf_isDescendant_iff m' l j).mp h).1⟩
  rw [Nat.add_mul, Nat.one_mul]
  have := Nat.one_le_two_pow (n := l)
  omega

theorem rightMostChild_greatest (p : Position) :
    ∃ m, p.rightMostChild = ofCoords 0 m ∧ (ofCoords 0 m).IsDescendant p ∧
      ∀ m', (ofCoords 0 m').IsDescendant p → m' ≤ m := by
  obtain ⟨l, j, rfl⟩ := exists_ofCoords p
  have hone := Nat.one_le_two_pow (n := l)
  have hmul : 1 ≤ (j + 1) * 2 ^ l := Nat.one_le_iff_ne_zero.mpr (Nat.mul_ne_zero (by omega) (by omega))
  refine ⟨(j + 1) * 2 ^ l - 1, rightMostChild_ofCoords l j, (leaf_isDescendant_iff _ l j).mpr ⟨?_, by omega⟩,
    fun m' h => by have := ((leaf_isDescendant_iff m' l j).mp h).2; omega⟩
  rw [Nat.add_mul, Nat.one_mul]
  omega

/-- `is_freezable`: every leaf under the node is at or before the leaf `i`. -/
theorem isFreezable_iff (p : Position) (i : ℕ) :
    p.isFreezable i = true ↔ ∀ m, (ofCoords 0 m).IsDescendant p → m ≤ i := by
  obtain ⟨l, j, rfl⟩ := exists_ofCoords p
  have hone := Nat.one_le_two_pow (n := l)
  simp only [isFreezable_ofCoords, decide_eq_true_iff, leaf_isDescendant_iff]
  constructor
  · intro h m hm
    omega
  · intro h
    have hle : j * 2 ^ l ≤ (j + 1) * 2 ^ l - 1 := by
      rw [Nat.add_mul, Nat.one_mul]
      exact Nat.le_sub_one_of_lt (Nat.lt_add_of_pos_right (Nat.two_pow_pos l))
    have := h ((j + 1) * 2 ^ l - 1) ⟨hle, Nat.sub_one_lt (Nat.mul_ne_zero j.succ_ne_zero (Nat.two_pow_pos l).ne')⟩
    omega

/-- `is_placeholder`: every leaf under the node is after the leaf `i`. -/
theorem isPlaceholder_iff (p : Position) (i : ℕ) :
    p.isPlaceholder i = true ↔ ∀ m, (ofCoords 0 m).IsDescendant p → i < m := by
  obtain ⟨l, j, rfl⟩ := exists_ofCoords p
  have hone := Nat.one_le_two_pow (n := l)
  simp only [isPlaceholder_ofCoords, decide_eq_true_iff, leaf_isDescendant_iff]
  constructor
  · intro h m hm
    omega
  · intro h
    refine h (j * 2 ^ l) ⟨le_refl _, ?_⟩
    rw [Nat.add_mul, Nat.one_mul]
    exact Nat.lt_add_of_pos_right (Nat.two_pow_pos l)

/-! ## The laws together -/

/-- The laws of the position tree for every position below the top level,
and every leaf index of the tree of `2 ^ 63` leaves. -/
theorem position_tree_laws (p : Position) (htop : p.level ≠ 63) (i : Fin (2 ^ 63)) :
    (p.isLeaf = false → p.leftChild.parent = p ∧ p.rightChild.parent = p ∧ p.leftChild.sibling = p.rightChild ∧
      p.leftChild.toInorderIndex < p.toInorderIndex ∧ p.toInorderIndex < p.rightChild.toInorderIndex) ∧
    p.parent.level = p.level + 1 ∧ p.sibling.sibling = p ∧
    (p.isLeftChild = true ∧ p.isRightChild = false ∧ p.parent.leftChild = p ∨
      p.isLeftChild = false ∧ p.isRightChild = true ∧ p.parent.rightChild = p) ∧
    fromLevelAndPos p.level (p.toInorderIndex >>> (p.level + 1)) = p ∧
    (∃ m, p.leftMostChild = ofCoords 0 m ∧ (ofCoords 0 m).IsDescendant p ∧
      ∀ m', (ofCoords 0 m').IsDescendant p → m ≤ m') ∧
    (∃ m, p.rightMostChild = ofCoords 0 m ∧ (ofCoords 0 m).IsDescendant p ∧
      ∀ m', (ofCoords 0 m').IsDescendant p → m' ≤ m) ∧
    (p.isFreezable i = true ↔ ∀ m, (ofCoords 0 m).IsDescendant p → m ≤ i) ∧
    (p.isPlaceholder i = true ↔ ∀ m, (ofCoords 0 m).IsDescendant p → i < m) := by
  have hchild : p.isLeftChild = true ∧ p.isRightChild = false ∧ p.parent.leftChild = p ∨
      p.isLeftChild = false ∧ p.isRightChild = true ∧ p.parent.rightChild = p := by
    cases hleft : p.isLeftChild
    · have hright : p.isRightChild = true := by rw [isRightChild, hleft, Bool.not_false]
      exact .inr ⟨rfl, hright, (isRightChild_iff p).mp hright⟩
    · have hright : p.isRightChild = false := by rw [isRightChild, hleft, Bool.not_true]
      exact .inl ⟨rfl, hright, (isLeftChild_iff p).mp hleft⟩
  exact ⟨fun h => ⟨parent_leftChild h, parent_rightChild h, sibling_leftChild h, leftChild_lt h, lt_rightChild h⟩,
    level_parent p, sibling_sibling p, hchild, fromLevelAndPos_level htop, leftMostChild_least p,
    rightMostChild_greatest p, isFreezable_iff p i, isPlaceholder_iff p i⟩

/-- The laws at the parent of the first two leaves, for leaf index `0`. -/
theorem position_tree_laws_one :
    (ofCoords 1 0).level ≠ 63 ∧
      ((ofCoords 1 0).isFreezable 0 = true ↔ ∀ m, (ofCoords 0 m).IsDescendant (ofCoords 1 0) → m ≤ 0) :=
  ⟨by simp, (position_tree_laws (ofCoords 1 0) (by simp) ⟨0, by norm_num⟩).2.2.2.2.2.2.2.1⟩

end Position

end Diem
