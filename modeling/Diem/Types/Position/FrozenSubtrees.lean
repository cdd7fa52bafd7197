import Diem.Types.Accumulator.Frontier
import Diem.Types.Position.Tree

/-!
# The frozen subtree iterators against the tree

`FrozenSubTreeIterator` and `FrozenSubtreeSiblingIterator` of
`types/src/proof/position/mod.rs` find the subtrees they list with bit tricks.
The tests of `position_test.rs` compare the first, for fewer than `10000`
leaves, with a descent of the tree, `slow_get_frozen_subtree_roots`, which keeps
a node when all its leaves are there, drops it when none is, and otherwise
looks at both children.

`slowGetFrozenSubtreeRootsImpl` is that descent, by well-founded recursion on
the level. What a list of positions covers is said with the tree's own parent
function: `Consecutive a ps b` holds when the leaves below the positions of
`ps` are, in order, the leaves `a` to `b - 1`, each block starting at a
multiple of its size.

The descent from the root lists what `FrozenSubTreeIterator` lists, for every
count up to `MAX_ACCUMULATOR_LEAVES` (**`frozenSubTreeIterator_eq_slow`**). The
sibling iterator from `c` leaves to `c + r` lists aligned subtrees that cover
the new leaves in order, one per one bit of `r`, largest first, and
`append_subtrees` of their hashes onto the frozen subtrees of `c` leaves gives
the frozen subtrees of `c + r` (**`frozenSubtreeSiblingIterator_spec`**).
-/

namespace Diem

open InorderTree MerkleTree Nat

namespace Position

/-- A node neither frozen nor a placeholder for the leaves up to `i` is not a
leaf: its children are a level below it. -/
theorem level_children_lt {p : Position} {i : ℕ} (hf : ¬ p.isFreezable i = true)
    (hp : ¬ p.isPlaceholder i = true) : p.leftChild.level < p.level ∧ p.rightChild.level < p.level := by
  obtain ⟨l, j, rfl⟩ := exists_ofCoords p
  rw [isFreezable_ofCoords, decide_eq_true_iff] at hf
  rw [isPlaceholder_ofCoords, decide_eq_true_iff] at hp
  rcases l with _ | k
  · simp only [Nat.pow_zero, Nat.mul_one] at hf hp
    omega
  · simp only [leftChild_ofCoords, rightChild_ofCoords, level_ofCoords]
    omega

/-- `slow_get_frozen_subtree_roots_impl` of the tests: the frozen subtrees
below `root` for the leaves up to `maxLeafIndex`, left to right. -/
def slowGetFrozenSubtreeRootsImpl (root : Position) (maxLeafIndex : ℕ) : List Position :=
  if root.isFreezable maxLeafIndex then [root]
  else if root.isPlaceholder maxLeafIndex then []
  else
    slowGetFrozenSubtreeRootsImpl root.leftChild maxLeafIndex ++
      slowGetFrozenSubtreeRootsImpl root.rightChild maxLeafIndex
termination_by root.level
decreasing_by
  · exact (level_children_lt ‹_› ‹_›).1
  · exact (level_children_lt ‹_› ‹_›).2

/-- `slow_get_frozen_subtree_roots`: the descent from the root of the
accumulator of `numLeaves` leaves. -/
def slowGetFrozenSubtreeRoots (numLeaves : ℕ) : List Position :=
  if numLeaves = 0 then []
  else
    let maxLeafIndex := numLeaves - 1
    match rootFromLeafCount numLeaves with
    | some root => slowGetFrozenSubtreeRootsImpl root maxLeafIndex
    -- the `assert!(leaf_count > 0)` of `root_from_leaf_count`, which holds here
    | none => []

/-- `Consecutive a ps b`: the positions `ps` are, in order, the roots of
subtrees whose leaves are the leaves `a` to `b - 1`, one block after the
other, each starting at a multiple of its number of leaves. -/
def Consecutive : ℕ → List Position → ℕ → Prop
  | a, [], b => a = b
  | a, p :: ps, b => (∀ m, (fromLeafIndex m).IsDescendant p ↔ a ≤ m ∧ m < a + 2 ^ p.level) ∧
      2 ^ p.level ∣ a ∧ Consecutive (a + 2 ^ p.level) ps b

/-- The node of height `l` at index `j` covers the `2 ^ l` leaves from
`2 ^ l * j` on. -/
theorem consecutive_cons_ofCoords {l j b : ℕ} {ps : List Position} (h : Consecutive (2 ^ l * j + 2 ^ l) ps b) :
    Consecutive (2 ^ l * j) (ofCoords l j :: ps) b := by
  refine ⟨fun m => ?_, by rw [level_ofCoords]; exact Dvd.intro j rfl, by rwa [level_ofCoords]⟩
  rw [fromLeafIndex_eq, leaf_isDescendant_iff, level_ofCoords,
    show (j + 1) * 2 ^ l = 2 ^ l * j + 2 ^ l by ring, Nat.mul_comm j]

theorem Consecutive.append {qs : List Position} {b c : ℕ} :
    ∀ {a : ℕ} {ps : List Position}, Consecutive a ps b → Consecutive b qs c → Consecutive a (ps ++ qs) c
  | _, [], rfl, hqs => hqs
  | _, _ :: _, ⟨hleaves, hdvd, hps⟩, hqs => ⟨hleaves, hdvd, Consecutive.append hps hqs⟩

/-! ### The sibling iterator -/

/-- While what remains fits in a block of `2 ^ l` leaves aligned at the
count, the next subtree is the largest power of two in what remains. -/
theorem nextSubtreeLeaves_aligned {c r l : ℕ} (hr0 : 0 < r) (hr : r ≤ 2 ^ l) (hc : 2 ^ l ∣ c) (hl : l < 64) :
    nextSubtreeLeaves c r = 2 ^ (r.size - 1) := by
  have h64 : r < 2 ^ 64 := lt_of_le_of_lt hr (Nat.pow_lt_pow_right (by norm_num) hl)
  rcases Nat.eq_zero_or_pos c with rfl | hc0
  · exact nextSubtreeLeaves_zero hr0 h64
  · have htz := le_trailingZeros_of_two_pow_dvd hc0 hc
    by_cases hlt : r < 2 ^ c.trailingZeros
    · exact nextSubtreeLeaves_of_lt hc0 hr0 hlt h64
    · -- then `r` is the whole block, as large as the lowest one bit of `c`
      have hle : 2 ^ c.trailingZeros ≤ 2 ^ l := le_trans (not_lt.1 hlt) hr
      have htl : c.trailingZeros = l := le_antisymm ((Nat.pow_le_pow_iff_right (by norm_num)).1 hle) htz
      have hrl : r = 2 ^ l := le_antisymm hr (htl ▸ not_lt.1 hlt)
      rw [nextSubtreeLeaves_of_le hc0 (not_lt.1 hlt), htl, hrl, Nat.size_pow, Nat.add_sub_cancel]

/-- A whole aligned block is one subtree. -/
theorem frozenSubtreeSiblings_block {l : ℕ} (j : ℕ) (hl : l < 64) :
    frozenSubtreeSiblings (2 ^ l * j) (2 ^ l) = [ofCoords l j] := by
  rw [frozenSubtreeSiblings_of_pos (Nat.two_pow_pos l),
    nextSubtreeLeaves_aligned (Nat.two_pow_pos l) le_rfl (Dvd.intro j rfl) hl, Nat.size_pow, Nat.add_sub_cancel,
    fromInorderIndex_subtree, Nat.sub_self, frozenSubtreeSiblings_zero]

/-- **The sibling iterator covers the new leaves in order**, with subtrees
each aligned at its own size. -/
theorem consecutive_frozenSubtreeSiblings : ∀ (r c : ℕ), r < 2 ^ 64 →
    Consecutive c (frozenSubtreeSiblings c r) (c + r) := by
  intro r
  induction r using Nat.strong_induction_on with
  | _ r ih =>
    intro c h64
    rcases Nat.eq_zero_or_pos r with rfl | hr0
    · rw [frozenSubtreeSiblings_zero, Nat.add_zero]
      rfl
    · -- the next subtree is a power of two that fits and divides the count
      obtain ⟨s, hnext, hle, q, rfl⟩ : ∃ s, nextSubtreeLeaves c r = 2 ^ s ∧ 2 ^ s ≤ r ∧ 2 ^ s ∣ c := by
        rcases Nat.eq_zero_or_pos c with rfl | hc0
        · exact ⟨r.size - 1, nextSubtreeLeaves_zero hr0 h64, (two_pow_size_pred_le hr0).1, dvd_zero _⟩
        · exact nextSubtreeLeaves_dvd hc0 hr0 h64
      have hrest := ih (r - 2 ^ s) (by have := Nat.two_pow_pos s; omega) (2 ^ s * q + 2 ^ s) (by omega)
      rw [show 2 ^ s * q + 2 ^ s + (r - 2 ^ s) = 2 ^ s * q + r by omega] at hrest
      rw [frozenSubtreeSiblings_of_pos hr0, hnext, fromInorderIndex_subtree]
      exact consecutive_cons_ofCoords hrest

/-- One round from no leaves, or below the rightmost frozen subtree: the
subtree of the highest one bit of what remains, after which the count's
lowest one bit is that one. -/
theorem frozenSubtreeSiblings_highBit {c r : ℕ} (hr0 : 0 < r) (h64 : r < 2 ^ 64)
    (hc : c = 0 ∨ r < 2 ^ c.trailingZeros) :
    ∃ s q, 2 ^ s ≤ r ∧ r - 2 ^ s < 2 ^ s ∧ c = 2 ^ s * q ∧ (c + 2 ^ s).trailingZeros = s ∧
      frozenSubtreeSiblings c r = ofCoords s q :: frozenSubtreeSiblings (c + 2 ^ s) (r - 2 ^ s) := by
  obtain ⟨hlow, hhigh⟩ := two_pow_size_pred_le hr0
  have hrest : r - 2 ^ (r.size - 1) < 2 ^ (r.size - 1) := by rw [Nat.pow_succ] at hhigh; omega
  -- the highest one bit is below the lowest one bit of `c`
  have hbelow : c = 0 ∨ r.size - 1 < c.trailingZeros :=
    hc.imp_right fun hc => (Nat.pow_lt_pow_iff_right (by norm_num)).1 (lt_of_le_of_lt hlow hc)
  have hnext : nextSubtreeLeaves c r = 2 ^ (r.size - 1) := by
    rcases hbelow with rfl | hs
    · exact nextSubtreeLeaves_zero hr0 h64
    · have hc0 : 0 < c := pos_of_lt_trailingZeros hs
      exact nextSubtreeLeaves_of_lt hc0 hr0 (hc.resolve_left (by omega)) h64
  obtain ⟨q, hq⟩ : 2 ^ (r.size - 1) ∣ c := by
    rcases hbelow with rfl | hs
    · exact dvd_zero _
    · obtain ⟨y, hy⟩ := exists_eq_two_pow_trailingZeros_mul (pos_of_lt_trailingZeros hs)
      exact (Nat.pow_dvd_pow 2 hs.le).trans (Dvd.intro _ hy.symm)
  refine ⟨r.size - 1, q, hlow, hrest, hq, trailingZeros_add_two_pow hbelow, ?_⟩
  rw [frozenSubtreeSiblings_of_pos hr0, hnext, hq, fromInorderIndex_subtree]

/-- **From no leaves, or below the rightmost frozen subtree, one subtree per
one bit of what remains, largest first.** -/
theorem levels_frozenSubtreeSiblings : ∀ (r c : ℕ), r < 2 ^ 64 → (c = 0 ∨ r < 2 ^ c.trailingZeros) →
    (∀ l, (∃ p ∈ frozenSubtreeSiblings c r, p.level = l) ↔ r.testBit l = true) ∧
      ((frozenSubtreeSiblings c r).map level).Pairwise (· > ·) := by
  intro r
  induction r using Nat.strong_induction_on with
  | _ r ih =>
    intro c h64 hc
    rcases Nat.eq_zero_or_pos r with rfl | hr0
    · simp [frozenSubtreeSiblings_zero]
    · obtain ⟨s, q, hlow, hrest, rfl, htz, hsib⟩ := frozenSubtreeSiblings_highBit hr0 h64 hc
      obtain ⟨hbits, hdesc⟩ :=
        ih (r - 2 ^ s) (by have := Nat.two_pow_pos s; omega) (2 ^ s * q + 2 ^ s) (by omega) (.inr (by rw [htz]; exact hrest))
      refine ⟨fun l => ?_, ?_⟩
      · have hbit : r.testBit l = (decide (s = l) || (r - 2 ^ s).testBit l) := by
          rw [← testBit_two_pow_add_of_lt hrest, Nat.add_sub_cancel' hlow]
        rw [hsib, List.exists_mem_cons_iff, level_ofCoords, hbits, hbit, Bool.or_eq_true, decide_eq_true_iff]
      · -- every later subtree is of a bit of the rest, below `s`
        rw [hsib, List.map_cons, List.pairwise_cons, level_ofCoords]
        refine ⟨fun l hl => ?_, hdesc⟩
        obtain ⟨p, hp, rfl⟩ := List.mem_map.1 hl
        have hbit := (hbits p.level).1 ⟨p, hp, rfl⟩
        exact (Nat.pow_lt_pow_iff_right (by norm_num)).1 (lt_of_le_of_lt (Nat.ge_two_pow_of_testBit hbit) hrest)

/-! ### The descent of the tests -/

/-- A node frozen or a placeholder for the leaves up to `i` is listed as the
sibling iterator lists the leaves below it that are there: all of them, or
none. -/
theorem slowGetFrozenSubtreeRootsImpl_of_not_split {i l j : ℕ} (hl : l < 64)
    (h : (j + 1) * 2 ^ l ≤ i + 1 ∨ i < j * 2 ^ l) :
    slowGetFrozenSubtreeRootsImpl (ofCoords l j) i =
      frozenSubtreeSiblings (2 ^ l * j) (min (i + 1) (2 ^ l * j + 2 ^ l) - 2 ^ l * j) := by
  have hend : (j + 1) * 2 ^ l = 2 ^ l * j + 2 ^ l := by ring
  rw [hend, Nat.mul_comm j] at h
  rw [slowGetFrozenSubtreeRootsImpl]
  rcases h with hfull | hnone
  · rw [if_pos (by rw [isFreezable_ofCoords, decide_eq_true_iff, hend]; exact hfull),
      min_eq_right hfull, Nat.add_sub_cancel_left, frozenSubtreeSiblings_block j hl]
  · have hnot : ¬ (ofCoords l j).isFreezable i = true := by
      rw [isFreezable_ofCoords, decide_eq_true_iff, hend]
      have := Nat.two_pow_pos l
      omega
    rw [if_neg hnot, if_pos (by rw [isPlaceholder_ofCoords, decide_eq_true_iff, Nat.mul_comm j]; exact hnone),
      Nat.sub_eq_zero_of_le (le_trans (min_le_left _ _) hnone), frozenSubtreeSiblings_zero]

/-- **The descent below a node is the sibling iterator** from the node's first
leaf, over the leaves below it that are there. -/
theorem slowGetFrozenSubtreeRootsImpl_ofCoords (i : ℕ) : ∀ l j, l < 64 →
    slowGetFrozenSubtreeRootsImpl (ofCoords l j) i =
      frozenSubtreeSiblings (2 ^ l * j) (min (i + 1) (2 ^ l * j + 2 ^ l) - 2 ^ l * j) := by
  intro l
  induction l with
  | zero =>
    intro j hl
    exact slowGetFrozenSubtreeRootsImpl_of_not_split hl (by rw [Nat.pow_zero, Nat.mul_one, Nat.mul_one]; omega)
  | succ k ih =>
    intro j hl
    by_cases hsplit : (j + 1) * 2 ^ (k + 1) ≤ i + 1 ∨ i < j * 2 ^ (k + 1)
    · exact slowGetFrozenSubtreeRootsImpl_of_not_split hl hsplit
    · -- some leaves below are there and some not: both children are visited
      push Not at hsplit
      obtain ⟨hpart, hsome⟩ := hsplit
      have hc : 2 ^ (k + 1) * j = 2 ^ k * (2 * j) := by rw [Nat.pow_succ]; ring
      have hmid : 2 ^ k * (2 * j + 1) = 2 ^ k * (2 * j) + 2 ^ k := by ring
      have hend : (j + 1) * 2 ^ (k + 1) = 2 ^ k * (2 * j) + 2 ^ k + 2 ^ k := by rw [Nat.pow_succ]; ring
      have hstart : j * 2 ^ (k + 1) = 2 ^ k * (2 * j) := by rw [Nat.pow_succ]; ring
      rw [hend] at hpart
      rw [hstart] at hsome
      rw [slowGetFrozenSubtreeRootsImpl,
        if_neg (by rw [isFreezable_ofCoords, decide_eq_true_iff, hend]; omega),
        if_neg (by rw [isPlaceholder_ofCoords, decide_eq_true_iff, hstart]; omega),
        leftChild_ofCoords, rightChild_ofCoords, ih (2 * j) (by omega), ih (2 * j + 1) (by omega), hmid, hc,
        show 2 ^ k * (2 * j) + 2 ^ (k + 1) = 2 ^ k * (2 * j) + 2 ^ k + 2 ^ k by rw [Nat.pow_succ]; ring]
      have hdvd : 2 ^ (k + 1) ∣ 2 ^ k * (2 * j) := ⟨j, by rw [Nat.pow_succ]; ring⟩
      have hblock := frozenSubtreeSiblings_block (2 * j) (show k < 64 by omega)
      have hroot := fromInorderIndex_subtree k (2 * j)
      generalize 2 ^ k * (2 * j) = c at hpart hsome hdvd hblock hroot ⊢
      have hpow := Nat.two_pow_pos k
      by_cases hleft : i + 1 ≤ c + 2 ^ k
      · -- the leaves there end in the left child
        rw [show min (i + 1) (c + 2 ^ k + 2 ^ k) - (c + 2 ^ k) = 0 by omega, frozenSubtreeSiblings_zero,
          List.append_nil, min_eq_left hleft, min_eq_left (by omega)]
      · -- the left child is whole, and its leaves come first
        have hsize : (i + 1 - c).size - 1 = k := by
          have h1 : k < (i + 1 - c).size := Nat.lt_size.2 (by omega)
          have h2 : (i + 1 - c).size ≤ k + 1 := Nat.size_le.2 (by rw [Nat.pow_succ]; omega)
          omega
        rw [min_eq_right (by omega : c + 2 ^ k ≤ i + 1), Nat.add_sub_cancel_left, hblock,
          min_eq_left (by omega : i + 1 ≤ c + 2 ^ k + 2 ^ k),
          frozenSubtreeSiblings_of_pos (show 0 < i + 1 - c by omega),
          nextSubtreeLeaves_aligned (by omega) (by rw [Nat.pow_succ]; omega) hdvd (by omega), hsize, hroot,
          List.singleton_append, show i + 1 - c - 2 ^ k = i + 1 - (c + 2 ^ k) by omega]

/-- From the root, the descent is the sibling iterator from no leaves. -/
theorem slowGetFrozenSubtreeRoots_eq {n : ℕ} (hn : n ≤ 2 ^ 63) :
    slowGetFrozenSubtreeRoots n = frozenSubtreeSiblings 0 n := by
  rcases Nat.eq_zero_or_pos n with rfl | hn0
  · rw [slowGetFrozenSubtreeRoots, if_pos rfl, frozenSubtreeSiblings_zero]
  · have hlevel : Nat.clog 2 n < 64 := lt_of_le_of_lt (Nat.clog_le_of_le_pow hn) (by norm_num)
    have hfit : n ≤ 2 ^ Nat.clog 2 n := Nat.le_pow_clog (by norm_num) n
    simp only [slowGetFrozenSubtreeRoots, if_neg (Nat.pos_iff_ne_zero.1 hn0), rootFromLeafCount_eq hn0 hn]
    rw [slowGetFrozenSubtreeRootsImpl_ofCoords _ _ _ hlevel, Nat.mul_zero, Nat.zero_add, Nat.sub_zero,
      Nat.sub_add_cancel hn0, min_eq_left hfit]

/-- `FrozenSubTreeIterator` covers the leaves in order. -/
theorem consecutive_frozenSubTreeIterator {n : ℕ} (hn : n < 2 ^ 64) : Consecutive 0 (frozenSubTreeIterator n) n := by
  have hcover := consecutive_frozenSubtreeSiblings n 0 hn
  rwa [Nat.zero_add, ← frozenSubTrees_eq_frozenSubtreeSiblings 64 n 0 hn (countOnes_le_of_lt_two_pow hn) (.inl rfl)]
    at hcover

/-- **`FrozenSubTreeIterator` is the descent of the tests** for every count
up to `MAX_ACCUMULATOR_LEAVES`: one subtree per one bit of the count, largest
first, covering the leaves in order. -/
theorem frozenSubTreeIterator_eq_slow (n : ℕ) (hn : n ≤ 2 ^ 63) :
    frozenSubTreeIterator n = slowGetFrozenSubtreeRoots n ∧ Consecutive 0 (frozenSubTreeIterator n) n ∧
      (∀ l, (∃ p ∈ frozenSubTreeIterator n, p.level = l) ↔ n.testBit l = true) ∧
      ((frozenSubTreeIterator n).map level).Pairwise (· > ·) := by
  have h64 : n < 2 ^ 64 := by omega
  have hiter : frozenSubTreeIterator n = frozenSubtreeSiblings 0 n :=
    frozenSubTrees_eq_frozenSubtreeSiblings 64 n 0 h64 (countOnes_le_of_lt_two_pow h64) (.inl rfl)
  refine ⟨by rw [hiter, slowGetFrozenSubtreeRoots_eq hn], consecutive_frozenSubTreeIterator h64, ?_⟩
  rw [hiter]
  exact levels_frozenSubtreeSiblings n 0 h64 (.inl rfl)

/-- Five leaves: the subtree of the first four, then the fifth leaf. -/
theorem frozenSubTreeIterator_eq_slow_five : 5 ≤ 2 ^ 63 ∧ frozenSubTreeIterator 5 = slowGetFrozenSubtreeRoots 5 :=
  ⟨by norm_num, (frozenSubTreeIterator_eq_slow 5 (by norm_num)).1⟩

end Position

namespace InMemoryAccumulator

/-- `append_subtrees` onto an accumulator of no leaves reads neither its
frozen subtrees nor its root. -/
theorem appendSubtrees_of_numLeaves_zero (node : HashValue → HashValue → HashValue) (placeholder : HashValue)
    {acc : InMemoryAccumulator} (h : acc.numLeaves = 0) (subtrees : List HashValue) (numNewLeaves : ℕ) :
    appendSubtrees node placeholder acc subtrees numNewLeaves =
      appendSubtrees node placeholder (default placeholder) subtrees numNewLeaves := by
  simp only [appendSubtrees, h, default, if_true]

end InMemoryAccumulator

open Position InMemoryAccumulator in
/-- **`FrozenSubtreeSiblingIterator` lists what `append_subtrees` needs**:
from `c` to `n` leaves it lists aligned subtrees that cover the new leaves in
order, after the frozen subtrees of `c`; and `append_subtrees` of their hashes
onto the frozen subtrees of `c` leaves makes the frozen subtrees of `n`, with
the root of all the leaves. -/
theorem frozenSubtreeSiblingIterator_spec (c n : ℕ) (hcn : c ≤ n) (hn : n ≤ 2 ^ 63) :
    ∃ siblings, frozenSubtreeSiblingIterator c n = some siblings ∧ Consecutive c siblings n ∧
      Consecutive 0 (frozenSubTreeIterator c ++ siblings) n ∧
      ∀ (node : HashValue → HashValue → HashValue) (placeholder root : HashValue) (leaves : List HashValue),
        leaves.length = n →
        appendSubtrees node placeholder
            ⟨(frozenSubTreeIterator c).map (positionHash node placeholder leaves), c, root⟩
            (siblings.map (positionHash node placeholder leaves)) (n - c) =
          .ok ⟨(frozenSubTreeIterator n).map (positionHash node placeholder leaves), n,
            MerkleTree.rootHash node placeholder leaves⟩ := by
  have hc64 : c < 2 ^ 64 := by omega
  have hn64 : n < 2 ^ 64 := by omega
  have hsiblings : Consecutive c (frozenSubtreeSiblings c (n - c)) n := by
    have h := consecutive_frozenSubtreeSiblings (n - c) c (by omega)
    rwa [Nat.add_sub_cancel' hcn] at h
  refine ⟨frozenSubtreeSiblings c (n - c), by rw [frozenSubtreeSiblingIterator, if_pos ⟨hn, hcn⟩], hsiblings,
    (consecutive_frozenSubTreeIterator hc64).append hsiblings, ?_⟩
  intro node placeholder root leaves hlen
  subst hlen
  have hmax : leaves.length ≤ MAX_ACCUMULATOR_LEAVES := hn
  rw [frozenSubTreeIterator_frontier hn64]
  rcases Nat.eq_zero_or_pos c with rfl | hc0
  · -- onto no leaves, `append_subtrees` is `new` of the subtrees, whatever the root
    rw [appendSubtrees_of_numLeaves_zero node placeholder rfl, Nat.sub_zero, appendSubtrees_default_frontier hmax,
      fromLeaves_frontier]
  · rw [frozenSubTreeIterator_frontier hc64]
    exact appendSubtrees_frontier hc0 hcn hmax root

open Position in
/-- From two leaves to five: the subtree of leaves `2` and `3`, then leaf `4`. -/
theorem frozenSubtreeSiblingIterator_spec_twoFive :
    2 ≤ 5 ∧ 5 ≤ 2 ^ 63 ∧ ∃ siblings, frozenSubtreeSiblingIterator 2 5 = some siblings ∧ Consecutive 2 siblings 5 := by
  obtain ⟨siblings, hiter, hcover, -⟩ := frozenSubtreeSiblingIterator_spec 2 5 (by norm_num) (by norm_num)
  exact ⟨by norm_num, by norm_num, siblings, hiter, hcover⟩

end Diem
