import Diem.Types.Position.Tree

/-!
# From post-order back to in-order

`postorder_to_inorder` of `types/src/proof/position/mod.rs` undoes
`inorder_to_postorder`: it takes away, from the top, the sizes `2 ^ (i + 1) - 1`
of the full subtrees the post-order index has passed, marks each one in a
bitmap, and reads the level off what is left.

The `for i in (0..64).rev()` loop is `postorderToInorderLoop`, one round a bit
from the top, and every step of it is exact in `u64`. The `u64` arithmetic of
`inorder_to_postorder` is exact but at one position: for the root of the full
accumulator, `2 ^ 63 - 1`, `isolate_rightmost_zero_bit(node) << 1` is `0`, and
`children_of_node` subtracts `2` from it. A build with overflow checks panics
there; a release build wraps to the right index.

The loop takes exactly the subtrees a node's post-order index passes
(`postorderToInorderLoop_greedy`), so `postorder_to_inorder` inverts
`inorder_to_postorder` on the `2 ^ 64 - 1` positions of the tree, and, since
these map onto the post-order indices below `2 ^ 64 - 1`, the other way too. A
right child comes just before its parent in post-order, a left child somewhere
before. **`postorder_numbering_overflows_at_root`** puts these together with the
overflow.
-/

namespace Diem

open InorderTree Nat

namespace Position

/-- The loop of `postorder_to_inorder` over the bits below `k`, from the top:
the node left, the size of the full binary tree of `2 ^ i` leaves for the bit
`i` of the round, and the bitmap of the subtrees taken. -/
def postorderToInorderLoop : ℕ → ℕ × ℕ × ℕ → ℕ × ℕ × ℕ
  | 0, state => state
  | i + 1, (node, fullBinarySize, bitmap) =>
    if node ≥ fullBinarySize then
      postorderToInorderLoop i (node - fullBinarySize, fullBinarySize >>> 1, bitmap ||| 1 <<< i)
    else postorderToInorderLoop i (node, fullBinarySize >>> 1, bitmap)

/-- `postorder_to_inorder`. -/
def postorderToInorder (node : ℕ) : ℕ :=
  let (node, _, bitmap) := postorderToInorderLoop 64 (node, 2 ^ 64 - 1, 0)
  let level := node % 2 ^ 32
  let pos := bitmap >>> level
  (fromLevelAndPos level pos).toInorderIndex

/-- `Position::from_postorder_index`. -/
def fromPostorderIndex (index : ℕ) : Except String Position :=
  if index < 2 ^ 64 - 1 then .ok (fromInorderIndex (postorderToInorder index))
  else .error s!"node index {index} is invalid (equal to 2^64 - 1)"

/-! ## The loop -/

/-- The post-order numbers a tree of height `k` holds before its last one,
its root: `2 * r - countOnes r + k` is at most `2 ^ (k + 1) - 2`. -/
theorem two_mul_sub_countOnes_add_le {r k : ℕ} (hr : r < 2 ^ k) : 2 * r - countOnes r + k ≤ 2 ^ (k + 1) - 2 := by
  induction k generalizing r with
  | zero =>
    obtain rfl : r = 0 := by simpa using hr
    simp
  | succ k ih =>
    have hpow : 2 ^ (k + 1) = 2 * 2 ^ k := by rw [Nat.pow_succ, Nat.mul_comm]
    have hpow' : 2 ^ (k + 1 + 1) = 4 * 2 ^ k := by rw [Nat.pow_succ, hpow]; ring
    obtain ⟨r', rfl | rfl⟩ := Nat.even_or_odd' r
    · have h := ih (r := r') (by omega)
      have hle := countOnes_le r'
      rw [countOnes_two_mul]
      omega
    · have h := ih (r := r') (by omega)
      have hle := countOnes_le r'
      rw [countOnes_two_mul_add_one]
      omega

/-- The loop over the bits below `k` takes the subtrees of the bits of `B`
below `k`, when the node is the post-order number their sizes add up to plus
a level `l` whose bits below are all in `B`: it leaves `l`. -/
theorem postorderToInorderLoop_greedy (k B l acc : ℕ) (hB : ∀ i < l, B.testBit i = true) :
    postorderToInorderLoop k (2 * (B % 2 ^ k) - countOnes (B % 2 ^ k) + l, 2 ^ k - 1, acc) =
      (l, 0, acc ||| B % 2 ^ k) := by
  induction k generalizing acc with
  | zero => simp [postorderToInorderLoop, Nat.mod_one]
  | succ k ih =>
    -- the bit `k` of `B` is the top bit of `B % 2 ^ (k + 1)`
    have hsplit : B % 2 ^ (k + 1) = B % 2 ^ k + 2 ^ k * (B / 2 ^ k % 2) := Nat.mod_pow_succ
    have hr : B % 2 ^ k < 2 ^ k := Nat.mod_lt _ (Nat.two_pow_pos k)
    have hcor := countOnes_le (B % 2 ^ k)
    have hpow : 2 ^ (k + 1) = 2 * 2 ^ k := by rw [Nat.pow_succ, Nat.mul_comm]
    have hpos := Nat.one_le_two_pow (n := k)
    have hsize : (2 ^ (k + 1) - 1) >>> 1 = 2 ^ k - 1 := by
      rw [Nat.shiftRight_one, hpow]
      omega
    rw [postorderToInorderLoop, hsize]
    rcases Nat.mod_two_eq_zero_or_one (B / 2 ^ k) with hbit | hbit
    · -- bit `k` is clear: so `k` is not below `l`, and the node is too small
      simp only [hbit, Nat.mul_zero, Nat.add_zero] at hsplit
      have hlk : l ≤ k := by
        by_contra hlt
        have := hB k (by omega)
        rw [Nat.testBit_eq_decide_div_mod_eq, hbit] at this
        simp at this
      have hbound := two_mul_sub_countOnes_add_le hr
      rw [hsplit, if_neg (by omega)]
      exact ih acc
    · -- bit `k` is set: the subtree of height `k + 1` is passed
      simp only [hbit, Nat.mul_one] at hsplit
      have hone : countOnes 1 = 1 := by simpa using countOnes_two_pow 0
      have hco : countOnes (B % 2 ^ (k + 1)) = countOnes (B % 2 ^ k) + 1 := by
        have := countOnes_add_two_pow_mul 1 hr
        rw [Nat.mul_one, hone] at this
        rw [hsplit, this]
      have hnode : 2 * (B % 2 ^ (k + 1)) - countOnes (B % 2 ^ (k + 1)) + l =
          (2 ^ (k + 1) - 1) + (2 * (B % 2 ^ k) - countOnes (B % 2 ^ k) + l) := by
        rw [hco, hsplit]
        omega
      have hor : B % 2 ^ k + 2 ^ k = 1 <<< k ||| B % 2 ^ k := by
        have := Nat.two_pow_add_eq_or_of_lt hr 1
        rw [Nat.mul_one] at this
        rw [Nat.one_shiftLeft, ← this, Nat.add_comm]
      rw [hnode, if_pos (Nat.le_add_right _ _), Nat.add_sub_cancel_left, ih, hsplit, hor, Nat.or_assoc]

/-! ## Post-order back to coordinates -/

/-- The bits of the subtrees a node at level `l`, position `j` passes: those
of `j` above, and the `l` ones of its own left spine below. -/
theorem testBit_passed {l i : ℕ} (j : ℕ) (hi : i < l) : (2 ^ l * j + (2 ^ l - 1)).testBit i = true := by
  rw [Nat.testBit_two_pow_mul_add _ (Nat.sub_one_lt (Nat.two_pow_pos l).ne'), if_pos hi,
    Nat.testBit_two_pow_sub_one, decide_eq_true hi]

/-- The post-order index of a node, as the loop reads it: the post-order
numbers of the subtrees passed, plus the level. -/
theorem postorder_eq_passed (l j : ℕ) :
    postorder l j = 2 * (2 ^ l * j + (2 ^ l - 1)) - countOnes (2 ^ l * j + (2 ^ l - 1)) + l := by
  have hco : countOnes (2 ^ l * j + (2 ^ l - 1)) = l + countOnes j := by
    rw [Nat.add_comm, countOnes_add_two_pow_mul _ (Nat.sub_one_lt (Nat.two_pow_pos l).ne'),
      countOnes_two_pow_sub_one]
  -- the level fits under the subtrees: `l < 2 ^ l`
  have hl := Nat.lt_two_pow_self (n := l)
  have hj := countOnes_le j
  have hjl : j ≤ 2 ^ l * j := Nat.le_mul_of_pos_left _ (Nat.two_pow_pos l)
  have hlhs : 2 ^ (l + 1) * (j + 1) = 2 * (2 ^ l * j) + 2 * 2 ^ l := by ring
  have hrhs : 2 * (2 ^ l * j + (2 ^ l - 1)) = 2 * (2 ^ l * j) + 2 * (2 ^ l - 1) := by ring
  rw [hco, postorder, hlhs, hrhs]
  omega

/-- A node of the tree has its level below `64`, and the subtrees it passes
fit `u64`. -/
theorem level_lt_of_inorder_lt {l j : ℕ} (h : inorder l j < 2 ^ 64 - 1) :
    l < 64 ∧ 2 ^ l * j + (2 ^ l - 1) < 2 ^ 64 := by
  have hl : l < 64 := by
    by_contra hl
    have : 2 ^ 64 ≤ 2 ^ l := Nat.pow_le_pow_right (by norm_num) (by omega)
    rw [inorder] at h
    omega
  have hle : 2 ^ l * j ≤ 2 ^ (l + 1) * j := Nat.mul_le_mul_right _ (Nat.pow_le_pow_right (by norm_num) (by omega))
  rw [inorder] at h
  exact ⟨hl, by omega⟩

theorem postorderToInorderLoop_postorder {l j : ℕ} (h : 2 ^ l * j + (2 ^ l - 1) < 2 ^ 64) :
    postorderToInorderLoop 64 (postorder l j, 2 ^ 64 - 1, 0) = (l, 0, 2 ^ l * j + (2 ^ l - 1)) := by
  have hgreedy := postorderToInorderLoop_greedy 64 (2 ^ l * j + (2 ^ l - 1)) l 0 (fun _ hi => testBit_passed j hi)
  rwa [Nat.mod_eq_of_lt h, Nat.zero_or, ← postorder_eq_passed] at hgreedy

/-- `postorder_to_inorder` takes a node's post-order index back to its
in-order index, at every node of the tree. -/
theorem postorderToInorder_postorder {l j : ℕ} (h : inorder l j < 2 ^ 64 - 1) :
    postorderToInorder (postorder l j) = inorder l j := by
  obtain ⟨hl, hB⟩ := level_lt_of_inorder_lt h
  have hlevel : l % 2 ^ 32 = l := Nat.mod_eq_of_lt (by omega)
  have hpos : (2 ^ l * j + (2 ^ l - 1)) >>> l = j := by
    rw [Nat.shiftRight_eq_div_pow, Nat.mul_add_div (Nat.two_pow_pos l),
      Nat.div_eq_of_lt (Nat.sub_one_lt (Nat.two_pow_pos l).ne'), Nat.add_zero]
  simp only [postorderToInorder, postorderToInorderLoop_postorder hB, hlevel, hpos]
  by_cases h63 : l = 63
  · -- the root of the full tree: `from_level_and_pos` leaves out the shift by `64`
    subst h63
    obtain rfl : j = 0 := by
      rw [inorder] at h
      by_contra hj
      have : 2 ^ 64 ≤ 2 ^ (63 + 1) * j := Nat.le_mul_of_pos_right _ (Nat.pos_of_ne_zero hj)
      omega
    rfl
  · rw [fromLevelAndPos_eq h63]
    rfl

theorem inorderToPostorder_ofCoords (l j : ℕ) : inorderToPostorder (inorder l j) = postorder l j :=
  toPostorderIndex_ofCoords l j

/-- A node of the tree has its post-order index below `2 ^ 64 - 1`. -/
theorem postorder_lt_of_inorder_lt {l j : ℕ} (h : inorder l j < 2 ^ 64 - 1) : postorder l j < 2 ^ 64 - 1 := by
  obtain ⟨hl, -⟩ := level_lt_of_inorder_lt h
  -- `2 ^ 64` is a whole number of subtrees of the node's height
  have hsplit : 2 ^ 64 = 2 ^ (l + 1) * 2 ^ (63 - l) := by rw [← Nat.pow_add]; congr 1; omega
  have hj : j < 2 ^ (63 - l) := by
    rw [inorder] at h
    exact Nat.lt_of_mul_lt_mul_left (a := 2 ^ (l + 1)) (by omega)
  have hle : 2 ^ (l + 1) * (j + 1) ≤ 2 ^ 64 := by
    rw [hsplit]
    exact Nat.mul_le_mul_left _ hj
  rw [postorder]
  omega

/-! ## The two numberings -/

section Numbering

variable {x y : ℕ}

theorem postorderToInorder_inorderToPostorder (hx : x < 2 ^ 64 - 1) :
    postorderToInorder (inorderToPostorder x) = x := by
  obtain ⟨l, j, hp⟩ := exists_ofCoords ⟨x⟩
  obtain rfl : x = inorder l j := congrArg Position.toInorderIndex hp
  rw [inorderToPostorder_ofCoords, postorderToInorder_postorder hx]

theorem inorderToPostorder_lt (hx : x < 2 ^ 64 - 1) : inorderToPostorder x < 2 ^ 64 - 1 := by
  obtain ⟨l, j, hp⟩ := exists_ofCoords ⟨x⟩
  obtain rfl : x = inorder l j := congrArg Position.toInorderIndex hp
  rw [inorderToPostorder_ofCoords]
  exact postorder_lt_of_inorder_lt hx

/-- `inorder_to_postorder` as a map of the `2 ^ 64 - 1` nodes of the tree to
their post-order indices. -/
def inorderToPostorderFin (x : Fin (2 ^ 64 - 1)) : Fin (2 ^ 64 - 1) :=
  ⟨inorderToPostorder x, inorderToPostorder_lt x.isLt⟩

/-- Injective by its left inverse, so onto by counting: every post-order
index below `2 ^ 64 - 1` is a node's. -/
theorem inorderToPostorderFin_surjective : Function.Surjective inorderToPostorderFin := by
  apply Finite.injective_iff_surjective.mp
  intro a b hab
  have := congrArg (fun y : Fin (2 ^ 64 - 1) => postorderToInorder y) hab
  simpa [inorderToPostorderFin, postorderToInorder_inorderToPostorder a.isLt,
    postorderToInorder_inorderToPostorder b.isLt, Fin.ext_iff] using this

theorem inorderToPostorder_postorderToInorder (hy : y < 2 ^ 64 - 1) :
    inorderToPostorder (postorderToInorder y) = y := by
  obtain ⟨x, hx⟩ := inorderToPostorderFin_surjective ⟨y, hy⟩
  have hxy : inorderToPostorder x = y := congrArg Fin.val hx
  rw [← hxy, postorderToInorder_inorderToPostorder x.isLt]

theorem fromPostorderIndex_toPostorderIndex {p : Position} (hp : p.toInorderIndex < 2 ^ 64 - 1) :
    fromPostorderIndex p.toPostorderIndex = .ok p := by
  rw [fromPostorderIndex, toPostorderIndex, if_pos (inorderToPostorder_lt hp),
    postorderToInorder_inorderToPostorder hp]
  rfl

end Numbering

/-! ## Children before parents -/

theorem postorder_rightChild (k j : ℕ) : postorder k (2 * j + 1) + 1 = postorder (k + 1) j := by
  have hj := countOnes_le j
  have hjl : j ≤ 2 ^ (k + 1) * j := Nat.le_mul_of_pos_left _ (Nat.two_pow_pos _)
  have htwo : 2 ≤ 2 ^ (k + 1) := Nat.le_self_pow (by omega) _
  have hchild : 2 ^ (k + 1) * (2 * j + 1 + 1) = 2 * (2 ^ (k + 1) * j) + 2 * 2 ^ (k + 1) := by ring
  have hparent : 2 ^ (k + 1 + 1) * (j + 1) = 2 * (2 ^ (k + 1) * j) + 2 * 2 ^ (k + 1) := by ring
  rw [postorder, postorder, countOnes_two_mul_add_one, hchild, hparent]
  omega

theorem postorder_leftChild_lt (k j : ℕ) : postorder k (2 * j) < postorder (k + 1) j := by
  have hj := countOnes_le j
  have hjl : j ≤ 2 ^ (k + 1) * j := Nat.le_mul_of_pos_left _ (Nat.two_pow_pos _)
  have htwo : 2 ≤ 2 ^ (k + 1) := Nat.le_self_pow (by omega) _
  have hchild : 2 ^ (k + 1) * (2 * j + 1) = 2 * (2 ^ (k + 1) * j) + 2 ^ (k + 1) := by ring
  have hparent : 2 ^ (k + 1 + 1) * (j + 1) = 2 * (2 ^ (k + 1) * j) + 2 * 2 ^ (k + 1) := by ring
  rw [postorder, postorder, countOnes_two_mul, hchild, hparent]
  omega

/-- A right child is visited just before its parent. -/
theorem toPostorderIndex_rightChild {p : Position} (hp : p.isLeaf = false) :
    p.rightChild.toPostorderIndex + 1 = p.toPostorderIndex := by
  obtain ⟨l, j, rfl⟩ := exists_ofCoords p
  cases l with
  | zero => simp at hp
  | succ k => rw [rightChild_ofCoords, toPostorderIndex_ofCoords, toPostorderIndex_ofCoords, postorder_rightChild]

/-- A left child is visited before its parent. -/
theorem toPostorderIndex_leftChild_lt {p : Position} (hp : p.isLeaf = false) :
    p.leftChild.toPostorderIndex < p.toPostorderIndex := by
  obtain ⟨l, j, rfl⟩ := exists_ofCoords p
  cases l with
  | zero => simp at hp
  | succ k =>
    rw [leftChild_ofCoords, toPostorderIndex_ofCoords, toPostorderIndex_ofCoords]
    exact postorder_leftChild_lt k j

/-! ## The root of the full tree -/

/-- The `u64` shift in `children_of_node` loses the bit of
`isolate_rightmost_zero_bit` exactly at the root of the full tree: there it
leaves `0`, from which the `- 2` subtracts. -/
theorem isolateRightmostZeroBit_shiftLeft_lt_two_iff {x : ℕ} (hx : x < 2 ^ 64 - 1) :
    (isolateRightmostZeroBit x <<< 1) % 2 ^ 64 < 2 ↔ x = 2 ^ 63 - 1 := by
  obtain ⟨l, j, hp⟩ := exists_ofCoords ⟨x⟩
  obtain rfl : x = inorder l j := congrArg Position.toInorderIndex hp
  obtain ⟨hl, -⟩ := level_lt_of_inorder_lt hx
  rw [show isolateRightmostZeroBit (inorder l j) = 2 ^ l from isolate_inorder l j, two_pow_shiftLeft_one]
  constructor
  · intro hlt
    -- below level `63` the shifted bit stays, and is at least `2`
    have h63 : l = 63 := by
      by_contra h63
      have hlt64 : 2 ^ (l + 1) < 2 ^ 64 := Nat.pow_lt_pow_right (by norm_num) (by omega)
      have htwo : 2 ≤ 2 ^ (l + 1) := Nat.le_self_pow (by omega) _
      rw [Nat.mod_eq_of_lt hlt64] at hlt
      omega
    subst h63
    obtain rfl : j = 0 := by
      rw [inorder] at hx
      by_contra hj
      have : 2 ^ 64 ≤ 2 ^ (63 + 1) * j := Nat.le_mul_of_pos_right _ (Nat.pos_of_ne_zero hj)
      omega
    rfl
  · intro hroot
    obtain ⟨rfl, rfl⟩ := inorder_injective (hroot.trans (inorder_left_zero 63).symm)
    decide

/-- The two numberings are inverse on the `2 ^ 64 - 1` nodes of the tree and
post-order visits children first, but `inorder_to_postorder` subtracts below
zero in `u64` at the root of the full tree, `2 ^ 63 - 1`, and only there; the
release build's wrap then gives the model's index. -/
theorem postorder_numbering_overflows_at_root :
    (∀ x < 2 ^ 64 - 1, (isolateRightmostZeroBit x <<< 1) % 2 ^ 64 < 2 ↔ x = 2 ^ 63 - 1) ∧
    (2 ^ 64 + (isolateRightmostZeroBit (2 ^ 63 - 1) <<< 1) % 2 ^ 64 - 2) % 2 ^ 64 + nodesToLeftOf (2 ^ 63 - 1) =
      inorderToPostorder (2 ^ 63 - 1) ∧
    (∀ x < 2 ^ 64 - 1, inorderToPostorder x < 2 ^ 64 - 1 ∧ postorderToInorder (inorderToPostorder x) = x) ∧
    (∀ y < 2 ^ 64 - 1, inorderToPostorder (postorderToInorder y) = y) ∧
    (∀ p : Position, p.isLeaf = false →
      p.rightChild.toPostorderIndex + 1 = p.toPostorderIndex ∧ p.leftChild.toPostorderIndex < p.toPostorderIndex) :=
  ⟨fun _ hx => isolateRightmostZeroBit_shiftLeft_lt_two_iff hx, by decide,
    fun _ hx => ⟨inorderToPostorder_lt hx, postorderToInorder_inorderToPostorder hx⟩,
    fun _ hy => inorderToPostorder_postorderToInorder hy,
    fun _ hp => ⟨toPostorderIndex_rightChild hp, toPostorderIndex_leftChild_lt hp⟩⟩

end Position

end Diem
