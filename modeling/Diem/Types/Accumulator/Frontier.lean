import Diem.Types.Position
import Diem.Theory.MerkleTree

/-!
# The in-memory accumulator keeps the Merkle tree's frontier

`InMemoryAccumulator` of `types/src/proof/accumulator/mod.rs` against the
padded Merkle tree of `Diem.Theory.MerkleTree`. Its frozen subtree roots, last
first, are the tree's frontier (`MerkleTree.frontier`): the hashes of the
maximal full subtrees of its leaves. The three loops of the code keep it so:

* `append_one` pushes the leaf and merges once per trailing one of the count
  (`mergeLast_frontier`, `appendLeaves_frontier`, `fromLeaves_take`);
* `compute_root_hash` climbs from the lowest frozen subtree to the root, a one
  bit of the count taking a frozen subtree as left sibling and a zero bit a
  placeholder as right sibling (`rootLoop_frontier`, `computeRootHash_frontier`);
* `append_subtrees`, given the subtrees `FrozenSubtreeSiblingIterator` lists
  between two counts, carries each one as large as the rightmost frozen
  subtree into the frontier and appends the smaller rest
  (`carry_frontier`, `combine_frozenSubtreeSiblings`, `appendSubtrees_frontier`).

Each loop is proved by induction on the index of the subtree it adds, split by
parity: an even index is a left child and ends the carry, an odd one is merged
with the rightmost peak one level up.

From no leaves both iterators take the highest one bit of what remains, so
`FrozenSubTreeIterator` and `FrozenSubtreeSiblingIterator` from zero list the
frontier left to right (`frozenSubTreeIterator_frontier`), and
`append_subtrees` onto the empty accumulator, which calls `new`, rebuilds it
too (`appendSubtrees_default_frontier`).
-/

namespace Diem

open InorderTree MerkleTree Position Nat

namespace InMemoryAccumulator

/-- The hash over `leaves` of the subtree rooted at `p`. -/
def positionHash (node : HashValue → HashValue → HashValue) (placeholder : HashValue) (leaves : List HashValue)
    (p : Position) : HashValue :=
  subtreeHash node placeholder leaves p.level (p.toInorderIndex >>> (p.level + 1))

variable {node : HashValue → HashValue → HashValue} {placeholder : HashValue} {leaves : List HashValue}

@[simp] theorem positionHash_ofCoords (l j : ℕ) :
    positionHash node placeholder leaves (ofCoords l j) = subtreeHash node placeholder leaves l j := by
  simp only [positionHash, level_ofCoords]
  rw [show (ofCoords l j).toInorderIndex = inorder l j from rfl, inorder_shiftRight]

/-! ### Appending leaves -/

/-- Around the full subtree of height `l` at the odd index `2 * y + 1`: its
left sibling covers a leaf, and its parent is full. -/
theorem odd_subtree_bounds {y l n : ℕ} (hx : (2 * y + 1 + 1) * 2 ^ l ≤ n) :
    2 * y * 2 ^ l < n ∧ (y + 1) * 2 ^ (l + 1) ≤ n := by
  refine ⟨lt_of_lt_of_le (Nat.mul_lt_mul_of_pos_right (by omega) (Nat.two_pow_pos l)) hx, ?_⟩
  calc (y + 1) * 2 ^ (l + 1) = (2 * y + 1 + 1) * 2 ^ l := by rw [Nat.pow_succ]; ring
    _ ≤ n := hx

/-- **A carry of `append_one`**: the full subtree of height `l` at index `x`,
pushed onto the frontier of the `2 ^ l * x` leaves before it and merged once
per trailing one of `x`, gives the frontier of `2 ^ l * (x + 1)` leaves. -/
theorem mergeLast_frontier : ∀ (x l : ℕ), (x + 1) * 2 ^ l ≤ leaves.length →
    mergeLast node (trailingOnes x)
        (subtreeHash node placeholder leaves l x :: frontier node placeholder leaves (2 ^ l * x)) =
      frontier node placeholder leaves (2 ^ l * (x + 1)) := by
  intro x
  induction x using Nat.strong_induction_on with
  | _ x ih =>
    intro l hx
    obtain ⟨y, rfl | rfl⟩ := Nat.even_or_odd' x
    · -- an even index: no carry, the subtree is the new rightmost peak
      rw [trailingOnes_two_mul, mergeLast, frontier_two_pow_mul_odd, frontier_two_pow_mul_two_mul]
    · -- an odd index: merged with its left sibling, the rightmost peak, one level up
      obtain ⟨hcover, hup⟩ := odd_subtree_bounds hx
      rw [trailingOnes_two_mul_add_one, frontier_two_pow_mul_odd, mergeLast,
        node_eq_parent node placeholder (by omega) hcover, show 2 * y / 2 = y by omega, ih y (by omega) (l + 1) hup,
        show 2 * y + 1 + 1 = 2 * (y + 1) by ring, frontier_two_pow_mul_two_mul]

/-- `append_one` of leaf `c` to the frontier of the `c` leaves before it. -/
theorem appendOne_frontier {c : ℕ} (hc : c < leaves.length) :
    appendOne node (frontier node placeholder leaves c).reverse c leaves[c] =
      (frontier node placeholder leaves (c + 1)).reverse := by
  have h := @mergeLast_frontier node placeholder leaves c 0 (by simpa using hc)
  simp only [Nat.pow_zero, Nat.one_mul] at h
  rw [appendOne, List.reverse_reverse, ← subtreeHash_zero_of_lt node placeholder hc, h]

/-- The loop of `append` over the leaves `c` to `c + k - 1`. -/
theorem appendLeaves_frontier : ∀ (k c : ℕ), c + k ≤ leaves.length →
    appendLeaves node (frontier node placeholder leaves c).reverse c ((leaves.drop c).take k) =
      ((frontier node placeholder leaves (c + k)).reverse, c + k) := by
  intro k
  induction k with
  | zero => intro c _; rfl
  | succ k ih =>
    intro c hck
    rw [List.drop_eq_getElem_cons (by omega), List.take_succ_cons, appendLeaves, appendOne_frontier (by omega),
      ih (c + 1) (by omega), show c + 1 + k = c + (k + 1) by ring]

/-- **`from_leaves` keeps the frontier** of the first `m` leaves. -/
theorem fromLeaves_take {m : ℕ} (hm : m ≤ leaves.length) :
    fromLeaves node placeholder (leaves.take m) =
      .ok ⟨(frontier node placeholder leaves m).reverse, m,
        computeRootHash node placeholder (frontier node placeholder leaves m).reverse m⟩ := by
  have h := @appendLeaves_frontier node placeholder leaves m 0 (by omega)
  rw [frontier_zero, List.drop_zero, Nat.zero_add] at h
  simp only [fromLeaves, append, default, List.reverse_nil] at h ⊢
  rw [h, new, if_pos (by rw [List.length_reverse, length_frontier])]

/-! ### The root hash -/

/-- **The loop of `compute_root_hash`** from height `l`, where `x` full
subtrees of that height precede the current one: a one bit of `x` takes the
next peak as the left sibling, a zero bit an empty right sibling, and the climb
ends at the subtree above all the leaves. -/
theorem rootLoop_frontier : ∀ (x l : ℕ), leaves.length >>> l = x → (x * 2 ^ l < leaves.length ∨ x % 2 = 1) →
    rootLoop node placeholder x.bits (subtreeHash node placeholder leaves l x)
        (frontier node placeholder leaves (2 ^ l * x)) =
      subtreeHash node placeholder leaves (l + x.bits.length) 0 := by
  intro x
  induction x using Nat.strong_induction_on with
  | _ x ih =>
    intro l hx hcur
    have hle : x * 2 ^ l ≤ leaves.length := hx ▸ shiftRight_mul_two_pow_le _ l
    have hlt : leaves.length < (x + 1) * 2 ^ l := hx ▸ lt_shiftRight_add_one_mul _ l
    have hhalf : leaves.length >>> (l + 1) = x / 2 := by rw [Nat.shiftRight_succ, hx]
    obtain ⟨y, rfl | rfl⟩ := Nat.even_or_odd' x
    · rcases Nat.eq_zero_or_pos y with rfl | hy
      · rfl
      · -- a zero bit: the current subtree is a left child with an empty sibling
        have hcover : 2 * y * 2 ^ l < leaves.length := by omega
        have hempty : subtreeHash node placeholder leaves l (2 * y + 1) = placeholder :=
          subtreeHash_of_le node placeholder (by omega)
        have hparent := node_eq_parent node placeholder (s := 2 * y) (by omega) hcover
        rw [hempty, show 2 * y / 2 = y by omega] at hparent
        have hup : y * 2 ^ (l + 1) < leaves.length := by rw [Nat.pow_succ]; linarith
        rw [bit0_bits y (by omega), rootLoop, hparent, frontier_two_pow_mul_two_mul,
          ih y (by omega) (l + 1) (by rw [hhalf]; omega) (Or.inl hup), List.length_cons]
        ring_nf
    · -- a one bit: the next peak is the left sibling of the current subtree
      have hcover : 2 * y * 2 ^ l < leaves.length :=
        lt_of_lt_of_le (Nat.mul_lt_mul_of_pos_right (by omega) (Nat.two_pow_pos l)) hle
      have hup : y * 2 ^ (l + 1) < leaves.length := by rw [Nat.pow_succ]; linarith
      rw [bit1_bits, frontier_two_pow_mul_odd, rootLoop, node_eq_parent node placeholder (by omega) hcover,
        show 2 * y / 2 = y by omega, ih y (by omega) (l + 1) (by rw [hhalf]; omega) (Or.inl hup), List.length_cons]
      ring_nf

theorem computeRootHash_of_two_le {roots : List HashValue} (h : 2 ≤ roots.length) (numLeaves : ℕ) :
    computeRootHash node placeholder roots numLeaves =
      rootLoop node placeholder (numLeaves >>> numLeaves.trailingZeros).bits placeholder roots.reverse := by
  match roots, h with
  | _ :: _ :: _, _ => rfl

/-- The least height that covers `2 ^ t * (2 * y + 1)` leaves, `y` positive. -/
theorem clog_two_pow_mul_odd (t : ℕ) {y : ℕ} (hy : 0 < y) :
    Nat.clog 2 (2 ^ t * (2 * y + 1)) = t + y.bits.length + 1 := by
  rw [size_eq_bits_len]
  obtain ⟨hlow, hhigh⟩ := two_pow_size_pred_le hy
  obtain ⟨k, hk⟩ : ∃ k, y.size = k + 1 := ⟨y.size - 1, by have := Nat.size_pos.2 hy; omega⟩
  rw [hk, Nat.add_sub_cancel] at hlow hhigh
  rw [hk]
  apply le_antisymm
  · apply Nat.clog_le_of_le_pow
    calc 2 ^ t * (2 * y + 1) ≤ 2 ^ t * 2 ^ (k + 1 + 1) := Nat.mul_le_mul_left _ (by rw [Nat.pow_succ]; omega)
      _ = 2 ^ (t + (k + 1) + 1) := by rw [← Nat.pow_add, Nat.add_assoc, Nat.add_assoc]
  · have hbelow : 2 ^ (t + (k + 1)) < 2 ^ t * (2 * y + 1) := by
      rw [Nat.pow_add, Nat.pow_succ]
      exact Nat.mul_lt_mul_of_pos_left (by omega) (Nat.two_pow_pos t)
    have hroot := Nat.le_pow_clog Nat.one_lt_two (2 ^ t * (2 * y + 1))
    exact (Nat.pow_lt_pow_iff_right (by norm_num)).1 (lt_of_lt_of_le hbelow hroot)

/-- **`compute_root_hash` of the frontier is the Merkle root.** -/
theorem computeRootHash_frontier (hN : 0 < leaves.length) :
    computeRootHash node placeholder (frontier node placeholder leaves leaves.length).reverse leaves.length =
      MerkleTree.rootHash node placeholder leaves := by
  obtain ⟨y, hy⟩ := exists_eq_two_pow_trailingZeros_mul hN
  generalize ht : leaves.length.trailingZeros = t at hy
  rcases Nat.eq_zero_or_pos y with rfl | hy0
  · -- a power of two: the one frozen subtree is the root
    have hfront : frontier node placeholder leaves leaves.length = [subtreeHash node placeholder leaves t 0] := by
      rw [hy, frontier_two_pow_mul_odd, Nat.mul_zero, Nat.mul_zero, frontier_zero]
    rw [hfront, MerkleTree.rootHash, hy, Nat.mul_zero, Nat.zero_add, Nat.mul_one, Nat.clog_pow 2 _ Nat.one_lt_two]
    rfl
  · -- two frozen subtrees or more: the loop climbs from the lowest one
    have hx : leaves.length >>> t = 2 * y + 1 := by
      rw [Nat.shiftRight_eq_div_pow, hy, Nat.mul_div_cancel_left _ (Nat.two_pow_pos t)]
    have hlen : 2 ≤ (frontier node placeholder leaves leaves.length).reverse.length := by
      rw [List.length_reverse, length_frontier, hy, countOnes_two_pow_mul, countOnes_two_mul_add_one]
      have := countOnes_pos hy0
      omega
    have hloop := @rootLoop_frontier node placeholder leaves (2 * y + 1) t hx (Or.inr (by omega))
    rw [subtreeHash_of_le node placeholder (by rw [hy, Nat.mul_comm]), ← hy] at hloop
    rw [computeRootHash_of_two_le hlen, List.reverse_reverse, ht, hx, hloop, MerkleTree.rootHash, hy,
      clog_two_pow_mul_odd t hy0, bit1_bits, List.length_cons, Nat.add_assoc]

/-- `from_leaves` is `new` over the frontier of all its leaves. -/
theorem fromLeaves_eq_new :
    fromLeaves node placeholder leaves =
      new node placeholder (frontier node placeholder leaves leaves.length).reverse leaves.length := by
  have h := @fromLeaves_take node placeholder leaves leaves.length le_rfl
  rw [List.take_length] at h
  rw [h, new, if_pos (by rw [List.length_reverse, length_frontier])]

/-- **`from_leaves` keeps the frontier and the Merkle root** of its leaves,
none included. -/
theorem fromLeaves_frontier :
    fromLeaves node placeholder leaves =
      .ok ⟨(frontier node placeholder leaves leaves.length).reverse, leaves.length,
        MerkleTree.rootHash node placeholder leaves⟩ := by
  rw [fromLeaves_eq_new, new, if_pos (by rw [List.length_reverse, length_frontier])]
  rcases Nat.eq_zero_or_pos leaves.length with h0 | hN
  · -- no leaves: both roots are the placeholder
    obtain rfl := List.length_eq_zero_iff.1 h0
    simp [computeRootHash, MerkleTree.rootHash, subtreeHash]
  · rw [computeRootHash_frontier hN]

/-! ### Extending with subtrees -/

theorem and_two_pow_ne_zero_iff {x l r : ℕ} (hr : r < 2 ^ l) : (2 ^ l * x + r) &&& 2 ^ l ≠ 0 ↔ x % 2 = 1 := by
  rw [Nat.and_two_pow, Nat.testBit_two_pow_mul_add x hr, if_neg (lt_irrefl l), Nat.sub_self, Nat.testBit_zero]
  rcases Nat.mod_two_eq_zero_or_one x with h | h <;> simp [h]

/-- **The inner loop of `append_subtrees`**: with the full subtree of height
`l` at index `x` as the current hash, over the frontier of the `2 ^ l * x`
leaves before it (and fewer than `2 ^ l` leaves counted below, which the mask
never reaches), the loop merges once per trailing one of `x` and ends with the
mask of the new rightmost peak. -/
theorem carry_frontier : ∀ (x l r fuel : ℕ), r < 2 ^ l → trailingOnes x ≤ fuel → (x + 1) * 2 ^ l ≤ leaves.length →
    l + trailingOnes x < 64 →
    ∃ roots currentHash, carry node fuel (frontier node placeholder leaves (2 ^ l * x)) (2 ^ l * x + r) (2 ^ l)
        (subtreeHash node placeholder leaves l x) = (roots, currentHash, 2 ^ (l + trailingOnes x)) ∧
      currentHash :: roots = frontier node placeholder leaves (2 ^ l * (x + 1)) := by
  intro x
  induction x using Nat.strong_induction_on with
  | _ x ih =>
    intro l r fuel hr hfuel hx h64
    obtain ⟨y, rfl | rfl⟩ := Nat.even_or_odd' x
    · -- an even index: the mask bit is clear, nothing is merged
      have hstop : carry node fuel (frontier node placeholder leaves (2 ^ l * (2 * y))) (2 ^ l * (2 * y) + r) (2 ^ l)
          (subtreeHash node placeholder leaves l (2 * y)) =
          (frontier node placeholder leaves (2 ^ l * (2 * y)), subtreeHash node placeholder leaves l (2 * y), 2 ^ l) := by
        cases fuel with
        | zero => rfl
        | succ fuel =>
          unfold carry
          rw [if_neg fun h => absurd ((and_two_pow_ne_zero_iff hr).1 h) (by omega)]
      refine ⟨frontier node placeholder leaves (2 ^ l * (2 * y)), subtreeHash node placeholder leaves l (2 * y), ?_, ?_⟩
      · rw [hstop, trailingOnes_two_mul, Nat.add_zero]
      · rw [frontier_two_pow_mul_odd, frontier_two_pow_mul_two_mul]
    · -- an odd index: merged with the rightmost peak, the loop goes on one level up
      rw [trailingOnes_two_mul_add_one] at hfuel h64 ⊢
      obtain ⟨fuel, rfl⟩ : ∃ f, fuel = f + 1 := ⟨fuel - 1, by omega⟩
      obtain ⟨hcover, hup⟩ := odd_subtree_bounds hx
      have hmask : 2 ^ l * 2 % 2 ^ 64 = 2 ^ (l + 1) := by
        rw [← Nat.pow_succ]
        exact Nat.mod_eq_of_lt (Nat.pow_lt_pow_right (by norm_num) (by omega))
      have hcount : 2 ^ l * (2 * y + 1) + r = 2 ^ (l + 1) * y + (2 ^ l + r) := by rw [Nat.pow_succ]; ring
      obtain ⟨roots, currentHash, hcarry, hfront⟩ :=
        ih y (by omega) (l + 1) (2 ^ l + r) fuel (by rw [Nat.pow_succ]; omega) (by omega) hup (by omega)
      refine ⟨roots, currentHash, ?_, ?_⟩
      · unfold carry
        rw [if_pos ((and_two_pow_ne_zero_iff hr).2 (by omega)), frontier_two_pow_mul_odd]
        simp only
        rw [node_eq_parent node placeholder (by omega) hcover, show 2 * y / 2 = y by omega, hmask, hcount, hcarry,
          show l + 1 + trailingOnes y = l + (trailingOnes y + 1) by ring]
      · rw [hfront, show 2 * y + 1 + 1 = 2 * (y + 1) by ring, frontier_two_pow_mul_two_mul]

/-- Below the rightmost frozen subtree the iterator lists the peaks the `r`
new leaves add, left to right. -/
theorem frontier_append_frozenSubtreeSiblings : ∀ (r c : ℕ), 0 < c → r < 2 ^ c.trailingZeros → r < 2 ^ 64 →
    (frontier node placeholder leaves c).reverse ++
        (frozenSubtreeSiblings c r).map (positionHash node placeholder leaves) =
      (frontier node placeholder leaves (c + r)).reverse := by
  intro r
  induction r using Nat.strong_induction_on with
  | _ r ih =>
    intro c hc hr h64
    rcases Nat.eq_zero_or_pos r with rfl | hr0
    · rw [frozenSubtreeSiblings_zero, List.map_nil, List.append_nil, Nat.add_zero]
    · -- the largest power of two in `r` goes first, as a subtree aligned below `c`'s lowest one
      obtain ⟨hlow, hhigh⟩ := two_pow_size_pred_le hr0
      have hst : r.size - 1 < c.trailingZeros := (Nat.pow_lt_pow_iff_right (by norm_num)).1 (lt_of_le_of_lt hlow hr)
      have hnext := nextSubtreeLeaves_of_lt hc hr0 hr h64
      obtain ⟨y, hy⟩ := exists_eq_two_pow_trailingZeros_mul hc
      obtain ⟨q, hq⟩ : 2 ^ (r.size - 1 + 1) ∣ c := (Nat.pow_dvd_pow 2 hst).trans (Dvd.intro _ hy.symm)
      generalize r.size - 1 = s at hlow hhigh hnext hq
      subst hq
      have hc' : 2 ^ (s + 1) * q + 2 ^ s = 2 ^ s * (2 * q + 1) := by rw [Nat.pow_succ]; ring
      have hfront : frontier node placeholder leaves (2 ^ (s + 1) * q + 2 ^ s) =
          subtreeHash node placeholder leaves s (2 * q) :: frontier node placeholder leaves (2 ^ (s + 1) * q) := by
        rw [hc', frontier_two_pow_mul_odd]
      have htz : (2 ^ (s + 1) * q + 2 ^ s).trailingZeros = s := by rw [hc', trailingZeros_two_pow_mul_odd]
      have hrest := ih (r - 2 ^ s) (by omega) (2 ^ (s + 1) * q + 2 ^ s) (by positivity) (by rw [htz]; omega)
        (by omega)
      rw [frozenSubtreeSiblings_of_pos hr0, hnext, show 2 ^ (s + 1) * q = 2 ^ s * (2 * q) by rw [Nat.pow_succ]; ring,
        fromInorderIndex_subtree, ← show 2 ^ (s + 1) * q = 2 ^ s * (2 * q) by rw [Nat.pow_succ]; ring, List.map_cons,
        positionHash_ofCoords, show 2 ^ (s + 1) * q + r = 2 ^ (s + 1) * q + 2 ^ s + (r - 2 ^ s) by omega, ← hrest,
        hfront, List.reverse_cons, List.append_assoc, List.singleton_append]

theorem combine_of_lt {subtrees roots : List HashValue} {c r size : ℕ} (h : r < size) :
    combine node subtrees roots c r size = .ok (roots, c, r, subtrees) := by
  cases subtrees with
  | nil => rw [combine, if_neg (by omega)]
  | cons _ _ => rw [combine, if_neg (by omega)]

/-- **The outer loop of `append_subtrees`** over the subtrees the iterator
lists from `c` leaves: each one as large as the rightmost frozen subtree is
carried into the frontier, and what is left when a smaller one comes lies to
the right of the frontier. -/
theorem combine_frozenSubtreeSiblings : ∀ (r c : ℕ), 0 < c → c + r ≤ leaves.length →
    leaves.length ≤ MAX_ACCUMULATOR_LEAVES →
    ∃ roots c' r' rest, combine node ((frozenSubtreeSiblings c r).map (positionHash node placeholder leaves))
        (frontier node placeholder leaves c) c r (2 ^ c.trailingZeros) = .ok (roots, c', r', rest) ∧
      roots.reverse ++ rest = (frontier node placeholder leaves (c + r)).reverse ∧ c' + r' = c + r := by
  intro r
  induction r using Nat.strong_induction_on with
  | _ r ih =>
    intro c hc hcr hmax
    have hbound : c + r ≤ 2 ^ 63 := le_trans hcr hmax
    by_cases hlt : r < 2 ^ c.trailingZeros
    · exact ⟨_, _, _, _, combine_of_lt hlt,
        frontier_append_frozenSubtreeSiblings r c hc hlt (by omega), rfl⟩
    · -- a subtree as large as the rightmost frozen one: carried into the frontier
      have hnext := nextSubtreeLeaves_of_le hc (not_lt.1 hlt)
      obtain ⟨y, hy⟩ := exists_eq_two_pow_trailingZeros_mul hc
      generalize ht : c.trailingZeros = t at hy hlt hnext
      subst hy
      have hpow := Nat.two_pow_pos t
      have hsucc : 2 ^ t * (2 * y + 1) + 2 ^ t = 2 ^ t * (2 * y + 1 + 1) := by ring
      have hcarried : (2 * y + 1 + 1) * 2 ^ t ≤ leaves.length := by rw [Nat.mul_comm, ← hsucc]; omega
      have h64 : t + trailingOnes (2 * y + 1) < 64 := by
        have hle : 2 ^ (t + trailingOnes (2 * y + 1)) < 2 ^ 64 :=
          calc 2 ^ (t + trailingOnes (2 * y + 1)) = 2 ^ t * 2 ^ trailingOnes (2 * y + 1) := Nat.pow_add _ _ _
            _ ≤ 2 ^ t * (2 * y + 1 + 1) := Nat.mul_le_mul_left _ (two_pow_trailingOnes_le _)
            _ < 2 ^ 64 := by rw [← hsucc]; omega
        exact (Nat.pow_lt_pow_iff_right (by norm_num)).1 hle
      obtain ⟨roots, currentHash, hcarry, hfront⟩ :=
        @carry_frontier node placeholder leaves (2 * y + 1) t 0 64 hpow (by omega) hcarried h64
      simp only [Nat.add_zero] at hcarry
      have htz : (2 ^ t * (2 * y + 1) + 2 ^ t).trailingZeros = t + trailingOnes (2 * y + 1) := by
        rw [hsucc, trailingZeros_two_pow_mul t (by omega), trailingZeros_succ]
      obtain ⟨roots', c', r', rest, hcomb, hrest, hcount⟩ :=
        ih (r - 2 ^ t) (by omega) (2 ^ t * (2 * y + 1) + 2 ^ t) (by omega) (by omega) hmax
      refine ⟨roots', c', r', rest, ?_, ?_, ?_⟩
      · rw [frozenSubtreeSiblings_of_pos (by omega), hnext, fromInorderIndex_subtree, List.map_cons,
          positionHash_ofCoords, combine, if_pos (by omega), hcarry]
        simp only
        rw [hfront, ← hsucc, Nat.mod_eq_of_lt (by omega), ← htz, hcomb]
      · rw [hrest, show 2 ^ t * (2 * y + 1) + 2 ^ t + (r - 2 ^ t) = 2 ^ t * (2 * y + 1) + r by omega]
      · omega

/-- **`append_subtrees` of the iterator's subtrees** onto the frontier of the
first `m` leaves gives the frontier, and the root, of them all. -/
theorem appendSubtrees_frontier {m : ℕ} (hm : 0 < m) (hmN : m ≤ leaves.length)
    (hmax : leaves.length ≤ MAX_ACCUMULATOR_LEAVES) (root : HashValue) :
    appendSubtrees node placeholder ⟨(frontier node placeholder leaves m).reverse, m, root⟩
        ((frozenSubtreeSiblings m (leaves.length - m)).map (positionHash node placeholder leaves))
        (leaves.length - m) =
      .ok ⟨(frontier node placeholder leaves leaves.length).reverse, leaves.length,
        MerkleTree.rootHash node placeholder leaves⟩ := by
  obtain ⟨roots, c', r', rest, hcomb, hfront, hcount⟩ :=
    @combine_frozenSubtreeSiblings node placeholder leaves (leaves.length - m) m hm (by omega) hmax
  rw [Nat.add_sub_cancel' hmN] at hfront hcount
  have h63 : MAX_ACCUMULATOR_LEAVES = 2 ^ 63 := rfl
  have hroom : ¬ leaves.length - m > (MAX_ACCUMULATOR_LEAVES + 2 ^ 64 - m) % 2 ^ 64 := by
    rw [h63] at hmax ⊢
    omega
  have hN : leaves.length < 2 ^ 64 := by rw [h63] at hmax; omega
  rw [appendSubtrees, if_neg hroom, if_neg (show ¬ m = 0 by omega)]
  simp only [List.reverse_reverse]
  rw [hcomb, Except.ok_bind]
  simp only
  rw [hfront, hcount, Nat.mod_eq_of_lt hN, new, if_pos (by rw [List.length_reverse, length_frontier]),
    computeRootHash_frontier (by omega)]

/-! ### The iterators from no leaves -/

/-- From no leaves, the sibling iterator lists the frontier left to right:
the subtree of the highest one bit first, then those below it that
`frontier_append_frozenSubtreeSiblings` lists. -/
theorem frozenSubtreeSiblings_zero_frontier {n : ℕ} (hn : n < 2 ^ 64) :
    (frozenSubtreeSiblings 0 n).map (positionHash node placeholder leaves) =
      (frontier node placeholder leaves n).reverse := by
  rcases Nat.eq_zero_or_pos n with rfl | hn0
  · rw [frozenSubtreeSiblings_zero, frontier_zero, List.map_nil, List.reverse_nil]
  · obtain ⟨hlow, hhigh⟩ := two_pow_size_pred_le hn0
    have hnext := nextSubtreeLeaves_zero hn0 hn
    generalize n.size - 1 = s at hlow hhigh hnext
    have hfirst : fromInorderIndex (0 + (0 + 2 ^ s - 1)) = ofCoords s 0 := by
      simpa using fromInorderIndex_subtree s 0
    have hpeak : frontier node placeholder leaves (2 ^ s) = [subtreeHash node placeholder leaves s 0] := by
      simpa using frontier_two_pow_mul_odd node placeholder leaves s 0
    have hrest := @frontier_append_frozenSubtreeSiblings node placeholder leaves (n - 2 ^ s) (2 ^ s)
      (Nat.two_pow_pos s) (by rw [trailingZeros_two_pow]; rw [Nat.pow_succ] at hhigh; omega) (by omega)
    rw [hpeak, Nat.add_sub_cancel' hlow, List.reverse_singleton, List.singleton_append] at hrest
    rw [frozenSubtreeSiblings_of_pos hn0, hnext, hfirst, List.map_cons, positionHash_ofCoords, Nat.zero_add, hrest]

/-- **`FrozenSubTreeIterator` lists the frontier**, left to right. -/
theorem frozenSubTreeIterator_frontier {n : ℕ} (hn : n < 2 ^ 64) :
    (frozenSubTreeIterator n).map (positionHash node placeholder leaves) =
      (frontier node placeholder leaves n).reverse := by
  rw [frozenSubTreeIterator,
    frozenSubTrees_eq_frozenSubtreeSiblings 64 n 0 hn (countOnes_le_of_lt_two_pow hn) (Or.inl rfl),
    frozenSubtreeSiblings_zero_frontier hn]

/-- **`append_subtrees` onto the empty accumulator** takes the subtrees the
iterator lists from no leaves as they are, and they are the frontier. -/
theorem appendSubtrees_default_frontier (hmax : leaves.length ≤ MAX_ACCUMULATOR_LEAVES) :
    appendSubtrees node placeholder (default placeholder)
        ((frozenSubtreeSiblings 0 leaves.length).map (positionHash node placeholder leaves)) leaves.length =
      fromLeaves node placeholder leaves := by
  have h63 : MAX_ACCUMULATOR_LEAVES = 2 ^ 63 := rfl
  have hroom : ¬ leaves.length > (MAX_ACCUMULATOR_LEAVES + 2 ^ 64 - 0) % 2 ^ 64 := by
    rw [h63] at hmax ⊢
    omega
  simp only [appendSubtrees, default]
  rw [if_neg hroom, if_true, frozenSubtreeSiblings_zero_frontier (by rw [h63] at hmax; omega),
    fromLeaves_eq_new]

end InMemoryAccumulator

open InMemoryAccumulator in
/-- `from_leaves` of at most `MAX_ACCUMULATOR_LEAVES` leaves keeps, left to
right, the hashes of the subtrees `FrozenSubTreeIterator` lists, one per one
bit of the count, and the Merkle root; and `append_subtrees` of the subtrees
`FrozenSubtreeSiblingIterator` lists between the two parts of any split
rebuilds it. -/
theorem inMemoryAccumulator_fromLeaves_appendSubtrees (node : HashValue → HashValue → HashValue)
    (placeholder : HashValue) (leaves : List HashValue) (hmax : leaves.length ≤ MAX_ACCUMULATOR_LEAVES) :
    ∃ acc, fromLeaves node placeholder leaves = .ok acc ∧
      acc.frozenSubtreeRoots = (frozenSubTreeIterator leaves.length).map (positionHash node placeholder leaves) ∧
      acc.frozenSubtreeRoots.length = leaves.length.countOnes ∧
      acc.numLeaves = leaves.length ∧
      acc.rootHash = MerkleTree.rootHash node placeholder leaves ∧
      ∀ l₁ l₂, leaves = l₁ ++ l₂ → ∃ acc₁ siblings, fromLeaves node placeholder l₁ = .ok acc₁ ∧
        frozenSubtreeSiblingIterator l₁.length leaves.length = some siblings ∧
        appendSubtrees node placeholder acc₁ (siblings.map (positionHash node placeholder leaves)) l₂.length =
          .ok acc := by
  have hN : leaves.length < 2 ^ 64 := by
    have h63 : MAX_ACCUMULATOR_LEAVES = 2 ^ 63 := rfl
    omega
  refine ⟨_, fromLeaves_frontier, (frozenSubTreeIterator_frontier hN).symm, ?_, rfl, rfl, ?_⟩
  · rw [List.length_reverse, length_frontier]
  · intro l₁ l₂ hsplit
    have hm : l₁.length ≤ leaves.length := by simp [hsplit]
    have hl₂ : l₂.length = leaves.length - l₁.length := by simp [hsplit]
    have hfirst := @fromLeaves_take node placeholder leaves l₁.length hm
    rw [show leaves.take l₁.length = l₁ by simp [hsplit]] at hfirst
    refine ⟨_, frozenSubtreeSiblings l₁.length (leaves.length - l₁.length), hfirst, ?_, ?_⟩
    · rw [frozenSubtreeSiblingIterator, if_pos ⟨hmax, hm⟩]
    · rw [hl₂]
      rcases Nat.eq_zero_or_pos l₁.length with h0 | hpos
      · -- the first part is empty: `append_subtrees` calls `new`
        rw [h0, Nat.sub_zero, ← fromLeaves_frontier]
        have hdefault : (⟨(frontier node placeholder leaves 0).reverse, 0,
            computeRootHash node placeholder (frontier node placeholder leaves 0).reverse 0⟩ :
            InMemoryAccumulator) = default placeholder := by
          simp [InMemoryAccumulator.default, computeRootHash]
        rw [hdefault, appendSubtrees_default_frontier hmax]
      · exact appendSubtrees_frontier hpos hm hmax _

/-- Three leaves, split after the first, with the hashes of `exampleNode`. -/
theorem inMemoryAccumulator_fromLeaves_appendSubtrees_threeLeaves :
    ([⟨5⟩, ⟨8⟩, ⟨11⟩] : List HashValue).length ≤ MAX_ACCUMULATOR_LEAVES ∧
    ∃ acc, InMemoryAccumulator.fromLeaves exampleNode ⟨2⟩ [⟨5⟩, ⟨8⟩, ⟨11⟩] = .ok acc ∧
      acc.frozenSubtreeRoots = (Position.frozenSubTreeIterator 3).map
        (InMemoryAccumulator.positionHash exampleNode ⟨2⟩ [⟨5⟩, ⟨8⟩, ⟨11⟩]) ∧
      acc.frozenSubtreeRoots.length = Nat.countOnes 3 ∧
      acc.numLeaves = 3 ∧
      acc.rootHash = MerkleTree.rootHash exampleNode ⟨2⟩ [⟨5⟩, ⟨8⟩, ⟨11⟩] ∧
      ∀ l₁ l₂, [⟨5⟩, ⟨8⟩, ⟨11⟩] = l₁ ++ l₂ → ∃ acc₁ siblings,
        InMemoryAccumulator.fromLeaves exampleNode ⟨2⟩ l₁ = .ok acc₁ ∧
        Position.frozenSubtreeSiblingIterator l₁.length 3 = some siblings ∧
        InMemoryAccumulator.appendSubtrees exampleNode ⟨2⟩ acc₁
          (siblings.map (InMemoryAccumulator.positionHash exampleNode ⟨2⟩ [⟨5⟩, ⟨8⟩, ⟨11⟩])) l₂.length = .ok acc :=
  ⟨by decide, inMemoryAccumulator_fromLeaves_appendSubtrees exampleNode ⟨2⟩ _ (by decide)⟩

end Diem
