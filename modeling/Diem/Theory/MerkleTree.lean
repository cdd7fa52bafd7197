import Mathlib.Data.Nat.Log
import Mathlib.Data.Nat.Bitwise
import Mathlib.Tactic.Ring
import Diem.Theory.Bits

/-!
# Merkle trees padded with a placeholder

A binary Merkle tree over a list of leaves, its levels indexed from the
leaves up: the subtree of height `k` at index `j` covers the leaves
`j * 2 ^ k` to `(j + 1) * 2 ^ k - 1`. A subtree that covers no leaf is a
single placeholder, whatever its height; the root is the subtree of the least
height that covers them all (`rootHash`).

The hash of an internal node is a parameter `node`. Soundness of proofs
against such a root needs it injective, and leaves, internal nodes and the
placeholder kept apart (`Separated`): then a hash that stands at some place of
the tree was built by the tree's own construction. `children_of_node_eq` peels
one level of that construction, and `leaf_eq` ends it at a leaf.

`pathRoot` climbs from a leaf with one sibling per level, on the side the
parity of the index at that level says. `eq_subtreeHash_of_pathRoot` is its
soundness against any subtree: a climb that reaches the hash of a subtree
started from the hash of a subtree below it, at the index the low bits of the
leaf index give; at the root (`pathRoot_eq_rootHash`) the climb has exactly
the root's height, and the leaf sits at the leaf index modulo that power of
two.
-/

namespace MerkleTree

variable {H : Type} (node : H → H → H) (placeholder : H)

/-- The hash of the subtree of height `k` at index `j`. -/
def subtreeHash (leaves : List H) : ℕ → ℕ → H
  | 0, j => leaves[j]?.getD placeholder
  | k + 1, j =>
    if leaves.length ≤ j * 2 ^ (k + 1) then placeholder
    else node (subtreeHash leaves k (2 * j)) (subtreeHash leaves k (2 * j + 1))

/-- The root: the subtree of the least height that covers every leaf. -/
def rootHash (leaves : List H) : H := subtreeHash node placeholder leaves (Nat.clog 2 leaves.length) 0

/-- One level of a climb: the parent of `acc.1` and the sibling, on the side
the parity of the index `acc.2` says, and the parent's index. -/
def pathStep (acc : H × ℕ) (sibling : H) : H × ℕ :=
  (if acc.2 % 2 = 0 then node acc.1 sibling else node sibling acc.1, acc.2 / 2)

/-- The hash a climb from `leaf` at index `index` reaches. -/
def pathRoot (siblings : List H) (leaf : H) (index : ℕ) : H :=
  (siblings.foldl (pathStep node) (leaf, index)).1

/-- What a proof against a Merkle root needs of the hashes: `node` is
injective, and leaves, internal nodes and the placeholder never coincide. -/
structure Separated (IsLeaf : H → Prop) : Prop where
  node_injective : ∀ {a b c d : H}, node a b = node c d → a = c ∧ b = d
  node_not_leaf : ∀ a b, ¬ IsLeaf (node a b)
  node_ne_placeholder : ∀ a b, node a b ≠ placeholder
  placeholder_not_leaf : ¬ IsLeaf placeholder

theorem subtreeHash_succ_of_lt {leaves : List H} {k j : ℕ} (h : j * 2 ^ (k + 1) < leaves.length) :
    subtreeHash node placeholder leaves (k + 1) j =
      node (subtreeHash node placeholder leaves k (2 * j)) (subtreeHash node placeholder leaves k (2 * j + 1)) := by
  rw [subtreeHash, if_neg (Nat.not_le.mpr h)]

theorem subtreeHash_zero_of_lt {leaves : List H} {j : ℕ} (h : j < leaves.length) :
    subtreeHash node placeholder leaves 0 j = leaves[j] := by
  rw [subtreeHash, List.getElem?_eq_getElem h, Option.getD_some]

/-- The parent of the even node `s` that covers a leaf, from it and its right sibling. -/
theorem node_eq_parent {leaves : List H} {s l : ℕ} (hs : s % 2 = 0) (h : s * 2 ^ l < leaves.length) :
    node (subtreeHash node placeholder leaves l s) (subtreeHash node placeholder leaves l (s + 1)) =
      subtreeHash node placeholder leaves (l + 1) (s / 2) := by
  have hcover : s / 2 * 2 ^ (l + 1) < leaves.length :=
    calc s / 2 * 2 ^ (l + 1) = s / 2 * 2 * 2 ^ l := by rw [Nat.pow_succ]; ring
      _ = s * 2 ^ l := by rw [Nat.div_two_mul_two_of_even (Nat.even_iff.2 hs)]
      _ < leaves.length := h
  rw [subtreeHash_succ_of_lt node placeholder hcover, show 2 * (s / 2) = s by omega]

/-- The index arithmetic of one level: the child at parity `n % 2` of the
parent whose index at `t` levels below `j` is the high part of `n / 2`. -/
theorem two_mul_add_mod (j n t : ℕ) :
    2 * (j * 2 ^ t + n / 2 % 2 ^ t) + n % 2 = j * 2 ^ (t + 1) + n % 2 ^ (t + 1) := by
  rw [Nat.pow_succ', Nat.mod_mul]
  ring

theorem rootHash_singleton (leaf : H) : rootHash node placeholder [leaf] = leaf := by
  rw [rootHash, List.length_singleton, Nat.clog_one_right, subtreeHash]
  rfl

/-- An index below the number of leaves is its own residue modulo the root's width. -/
theorem mod_two_pow_clog_of_lt {i n : ℕ} (h : i < n) : i % 2 ^ Nat.clog 2 n = i :=
  Nat.mod_eq_of_lt (lt_of_lt_of_le h (Nat.le_pow_clog (by decide) n))

/-! ### Frozen subtrees

A subtree is frozen once all its leaves are there: its hash no longer changes
as leaves are appended (`subtreeHash_append_of_full`), and a subtree past the
last leaf is a placeholder (`subtreeHash_of_le`). `peaks c` lists the frozen
subtrees of `c` leaves that no frozen subtree contains, as (height, index),
rightmost first: one per one bit of `c`, since the subtrees of height `≥ 1`
are those of `c / 2` pairs of leaves, one level up. -/

theorem subtreeHash_of_le {leaves : List H} : ∀ {k j : ℕ}, leaves.length ≤ j * 2 ^ k →
    subtreeHash node placeholder leaves k j = placeholder
  | 0, j, h => by
    rw [subtreeHash, List.getElem?_eq_none (by simpa using h), Option.getD_none]
  | k + 1, j, h => by rw [subtreeHash, if_pos h]

theorem subtreeHash_append_of_full {leaves more : List H} : ∀ {k j : ℕ}, (j + 1) * 2 ^ k ≤ leaves.length →
    subtreeHash node placeholder (leaves ++ more) k j = subtreeHash node placeholder leaves k j
  | 0, j, h => by
    have hj : j < leaves.length := by simp at h; omega
    rw [subtreeHash, subtreeHash, List.getElem?_append_left hj]
  | k + 1, j, h => by
    have hlt : j * 2 ^ (k + 1) < leaves.length := by
      have := Nat.two_pow_pos (k + 1)
      rw [Nat.add_mul, Nat.one_mul] at h
      omega
    have hfull : ∀ i ≤ 2 * j + 1, (i + 1) * 2 ^ k ≤ leaves.length := by
      intro i hi
      calc (i + 1) * 2 ^ k ≤ (2 * j + 2) * 2 ^ k := Nat.mul_le_mul_right _ (by omega)
        _ = (j + 1) * 2 ^ (k + 1) := by rw [Nat.pow_succ]; ring
        _ ≤ leaves.length := h
    rw [subtreeHash_succ_of_lt node placeholder (by rw [List.length_append]; omega),
      subtreeHash_succ_of_lt node placeholder hlt,
      subtreeHash_append_of_full (hfull _ (by omega)), subtreeHash_append_of_full (hfull _ le_rfl)]

/-- A (height, index) `l` levels up. -/
def raise (l : ℕ) (p : ℕ × ℕ) : ℕ × ℕ := (p.1 + l, p.2)

@[simp] theorem raise_zero : raise 0 = id := rfl

@[simp] theorem raise_raise (a b : ℕ) (p : ℕ × ℕ) : raise b (raise a p) = raise (a + b) p := by
  simp [raise, Nat.add_assoc]

/-- The maximal frozen subtrees of `c` leaves, rightmost first. -/
def peaks : ℕ → List (ℕ × ℕ)
  | 0 => []
  | c + 1 => (if (c + 1) % 2 = 1 then [(0, c)] else []) ++ (peaks ((c + 1) / 2)).map (raise 1)
decreasing_by omega

@[simp] theorem peaks_zero : peaks 0 = [] := by rw [peaks]

theorem peaks_two_mul (k : ℕ) : peaks (2 * k) = (peaks k).map (raise 1) := by
  rcases k with _ | k
  · simp
  · rw [show 2 * (k + 1) = (2 * k + 1) + 1 by ring, peaks, if_neg (by omega),
      show (2 * k + 1 + 1) / 2 = k + 1 by omega, List.nil_append]

theorem peaks_two_mul_add_one (k : ℕ) : peaks (2 * k + 1) = (0, 2 * k) :: (peaks k).map (raise 1) := by
  rw [peaks, if_pos (by omega), show (2 * k + 1) / 2 = k by omega]
  rfl

/-- An even count gains the new leaf as its rightmost maximal subtree. -/
theorem peaks_succ_of_even {j : ℕ} (hj : j % 2 = 0) : peaks (j + 1) = (0, j) :: peaks j := by
  obtain ⟨k, rfl⟩ : ∃ k, j = 2 * k := ⟨j / 2, by omega⟩
  rw [peaks_two_mul_add_one, peaks_two_mul]

theorem peaks_two_pow_mul (t c : ℕ) : peaks (2 ^ t * c) = (peaks c).map (raise t) := by
  induction t with
  | zero => simp
  | succ t ih => rw [Nat.pow_succ, Nat.mul_comm _ 2, Nat.mul_assoc, peaks_two_mul, ih, List.map_map]; rfl

/-- Every maximal subtree is frozen: all its leaves are there. -/
theorem full_of_mem_peaks : ∀ {c : ℕ} {p : ℕ × ℕ}, p ∈ peaks c → (p.2 + 1) * 2 ^ p.1 ≤ c := by
  intro c
  induction c using Nat.strong_induction_on with
  | _ c ih =>
    intro p hp
    obtain ⟨k, rfl | rfl⟩ := Nat.even_or_odd' c
    · rw [peaks_two_mul, List.mem_map] at hp
      obtain ⟨q, hq, rfl⟩ := hp
      rcases Nat.eq_zero_or_pos k with rfl | hk
      · simp at hq
      · have := ih k (by omega) hq
        simp only [raise, Nat.pow_succ]
        calc (q.2 + 1) * (2 ^ q.1 * 2) = 2 * ((q.2 + 1) * 2 ^ q.1) := by ring
          _ ≤ 2 * k := by omega
    · rw [peaks_two_mul_add_one, List.mem_cons, List.mem_map] at hp
      rcases hp with rfl | ⟨q, hq, rfl⟩
      · simp
      · have := ih k (by omega) hq
        simp only [raise, Nat.pow_succ]
        calc (q.2 + 1) * (2 ^ q.1 * 2) = 2 * ((q.2 + 1) * 2 ^ q.1) := by ring
          _ ≤ 2 * k + 1 := by omega

theorem length_peaks (c : ℕ) : (peaks c).length = Nat.countOnes c := by
  induction c using Nat.strong_induction_on with
  | _ c ih =>
    obtain ⟨k, rfl | rfl⟩ := Nat.even_or_odd' c
    · rcases Nat.eq_zero_or_pos k with rfl | hk
      · simp
      · rw [peaks_two_mul, List.length_map, Nat.countOnes_two_mul, ih k (by omega)]
    · rw [peaks_two_mul_add_one, List.length_cons, List.length_map, Nat.countOnes_two_mul_add_one, ih k (by omega)]

/-! ### The frontier

What an append-only accumulator keeps of its tree: the hashes of the maximal
frozen subtrees. A count `2 ^ l * x` is `x` full subtrees of height `l`; when
`x` is odd the last of them is the rightmost peak, and the rest pair up one
level higher. -/

/-- The hashes of the maximal frozen subtrees of the first `c` leaves,
rightmost first. -/
def frontier (leaves : List H) (c : ℕ) : List H :=
  (peaks c).map fun p => subtreeHash node placeholder leaves p.1 p.2

@[simp] theorem frontier_zero (leaves : List H) : frontier node placeholder leaves 0 = [] := by
  simp [frontier]

theorem length_frontier (leaves : List H) (c : ℕ) : (frontier node placeholder leaves c).length = Nat.countOnes c := by
  rw [frontier, List.length_map, length_peaks]

theorem frontier_two_pow_mul_two_mul (leaves : List H) (l y : ℕ) :
    frontier node placeholder leaves (2 ^ l * (2 * y)) = frontier node placeholder leaves (2 ^ (l + 1) * y) := by
  rw [← Nat.mul_assoc, ← Nat.pow_succ]

theorem frontier_two_pow_mul_odd (leaves : List H) (l y : ℕ) :
    frontier node placeholder leaves (2 ^ l * (2 * y + 1)) =
      subtreeHash node placeholder leaves l (2 * y) :: frontier node placeholder leaves (2 ^ (l + 1) * y) := by
  simp only [frontier, peaks_two_pow_mul, peaks_two_mul_add_one, List.map_cons, List.map_map]
  refine congrArg₂ _ (by simp [raise]) (List.map_congr_left fun p _ => ?_)
  simp only [Function.comp, raise]
  rw [Nat.add_assoc, Nat.add_comm 1 l]

/-! ### Climbs with the tree's own siblings

A climb from leaf `i` whose sibling at height `l` is the subtree next to the
one above the leaf, `(i / 2 ^ l) ^^^ 1`, reaches the subtree above the leaf at
each height, and the root at the root's height: proofs built from the tree
are accepted. -/

theorem pathStep_subtreeHash {leaves : List H} {k i : ℕ} (hi : i < leaves.length) :
    pathStep node (subtreeHash node placeholder leaves k (i / 2 ^ k), i / 2 ^ k)
        (subtreeHash node placeholder leaves k ((i / 2 ^ k) ^^^ 1)) =
      (subtreeHash node placeholder leaves (k + 1) (i / 2 ^ (k + 1)), i / 2 ^ (k + 1)) := by
  have hdiv : i / 2 ^ (k + 1) = i / 2 ^ k / 2 := by rw [Nat.pow_succ, Nat.div_div_eq_div_mul]
  have hcover : i / 2 ^ k / 2 * 2 ^ (k + 1) < leaves.length := by
    calc i / 2 ^ k / 2 * 2 ^ (k + 1) = i / 2 ^ k / 2 * 2 * 2 ^ k := by rw [Nat.pow_succ]; ring
      _ ≤ i / 2 ^ k * 2 ^ k := Nat.mul_le_mul_right _ (Nat.div_mul_le_self _ 2)
      _ ≤ i := Nat.div_mul_le_self i _
      _ < leaves.length := hi
  rw [hdiv, subtreeHash_succ_of_lt node placeholder hcover]
  obtain ⟨q, hq | hq⟩ := Nat.even_or_odd' (i / 2 ^ k)
  · rw [hq, Nat.xor_one_of_even (even_two_mul q), pathStep]
    simp
  · have hhalf : (2 * q + 1) / 2 = q := by omega
    have hodd : (2 * q + 1) % 2 = 1 := by omega
    rw [hq, Nat.xor_one_of_odd (odd_two_mul_add_one q), Nat.add_sub_cancel, pathStep, hhalf]
    simp only [hodd, Nat.one_ne_zero, if_false]

theorem foldl_pathStep_subtreeHash {leaves : List H} {i : ℕ} (hi : i < leaves.length) (k : ℕ) :
    ((List.range k).map fun l => subtreeHash node placeholder leaves l ((i / 2 ^ l) ^^^ 1)).foldl (pathStep node)
        (leaves[i], i) = (subtreeHash node placeholder leaves k (i / 2 ^ k), i / 2 ^ k) := by
  induction k with
  | zero => simp [subtreeHash_zero_of_lt node placeholder hi]
  | succ k ih =>
    rw [List.range_succ, List.map_append, List.foldl_append, ih, List.map_singleton, List.foldl_cons, List.foldl_nil,
      pathStep_subtreeHash node placeholder hi]

/-- **The tree's own siblings prove each leaf.** -/
theorem pathRoot_subtreeHash {leaves : List H} {i : ℕ} (hi : i < leaves.length) :
    pathRoot node ((List.range (Nat.clog 2 leaves.length)).map
        fun l => subtreeHash node placeholder leaves l ((i / 2 ^ l) ^^^ 1)) leaves[i] i =
      rootHash node placeholder leaves := by
  rw [pathRoot, foldl_pathStep_subtreeHash node placeholder hi,
    Nat.div_eq_of_lt (lt_of_lt_of_le hi (Nat.le_pow_clog (by decide) _))]
  rfl

section Separated

variable {node placeholder} {IsLeaf : H → Prop} (hsep : Separated node placeholder IsLeaf)
  {leaves : List H} (hleaves : ∀ x ∈ leaves, IsLeaf x)
include hsep hleaves

/-- A node standing at a place of the tree is an internal node of it, and its
children are the subtrees below that place. -/
theorem children_of_node_eq {a b : H} {k j : ℕ} (h : node a b = subtreeHash node placeholder leaves k j) :
    1 ≤ k ∧ a = subtreeHash node placeholder leaves (k - 1) (2 * j) ∧
      b = subtreeHash node placeholder leaves (k - 1) (2 * j + 1) := by
  cases k with
  | zero =>
    rw [subtreeHash] at h
    rcases hj : leaves[j]? with _ | x
    · rw [hj, Option.getD_none] at h
      exact absurd h (hsep.node_ne_placeholder a b)
    · rw [hj, Option.getD_some] at h
      exact absurd (h ▸ hleaves x (List.mem_of_getElem? hj)) (hsep.node_not_leaf a b)
  | succ k =>
    rw [subtreeHash] at h
    split at h
    · exact absurd h (hsep.node_ne_placeholder a b)
    · obtain ⟨ha, hb⟩ := hsep.node_injective h
      exact ⟨Nat.le_add_left 1 k, ha, hb⟩

/-- The child on the side the parity of `n` says, of a node standing at a
place of the tree, is the subtree below that place on that side. -/
theorem eq_child_of_node_eq {c s : H} (n : ℕ) {k q : ℕ}
    (h : (if n % 2 = 0 then node c s else node s c) = subtreeHash node placeholder leaves k q) :
    1 ≤ k ∧ c = subtreeHash node placeholder leaves (k - 1) (2 * q + n % 2) := by
  split at h
  · next heven =>
    obtain ⟨hk, hc, -⟩ := children_of_node_eq hsep hleaves h
    rw [heven, Nat.add_zero]
    exact ⟨hk, hc⟩
  · next hodd =>
    obtain ⟨hk, -, hc⟩ := children_of_node_eq hsep hleaves h
    rw [show n % 2 = 1 by omega]
    exact ⟨hk, hc⟩

omit hleaves in
/-- A leaf standing at a place of the tree is one of its leaves, at height `0`. -/
theorem leaf_eq {x : H} (hx : IsLeaf x) {k j : ℕ} (h : x = subtreeHash node placeholder leaves k j) :
    k = 0 ∧ leaves[j]? = some x := by
  cases k with
  | zero =>
    rw [subtreeHash] at h
    rcases hj : leaves[j]? with _ | y
    · rw [hj, Option.getD_none] at h
      exact absurd (h ▸ hx) hsep.placeholder_not_leaf
    · rw [hj, Option.getD_some] at h
      exact ⟨rfl, congrArg some h.symm⟩
  | succ k =>
    rw [subtreeHash] at h
    split at h
    · exact absurd (h ▸ hx) hsep.placeholder_not_leaf
    · exact absurd (h ▸ hx) (hsep.node_not_leaf _ _)

/-- **A climb is sound against every subtree.** Climbing `siblings` from `x`
at index `index` to the subtree of height `k` at index `j` means starting from
the subtree `siblings.length` levels below it, at the index the low bits of
`index` select. -/
theorem eq_subtreeHash_of_pathRoot :
    ∀ {siblings : List H} {x : H} {index k j : ℕ}, pathRoot node siblings x index = subtreeHash node placeholder leaves k j →
      siblings.length ≤ k ∧
        x = subtreeHash node placeholder leaves (k - siblings.length) (j * 2 ^ siblings.length + index % 2 ^ siblings.length)
  | [], x, index, k, j, h => by
    simp only [pathRoot, List.foldl_nil] at h
    simp only [List.length_nil, Nat.sub_zero, Nat.pow_zero, Nat.mul_one, Nat.mod_one, Nat.add_zero]
    exact ⟨Nat.zero_le k, h⟩
  | sibling :: siblings, x, index, k, j, h => by
    have hrest : pathRoot node siblings (pathStep node (x, index) sibling).1 (index / 2) =
        subtreeHash node placeholder leaves k j := h
    obtain ⟨hlen, hparent⟩ := eq_subtreeHash_of_pathRoot hrest
    -- the first step's parent sits where the rest of the climb started
    dsimp only [pathStep] at hparent
    obtain ⟨hk, hx⟩ := eq_child_of_node_eq hsep hleaves index hparent
    refine ⟨by simp only [List.length_cons]; omega, ?_⟩
    rw [hx, List.length_cons, Nat.sub_sub, two_mul_add_mod]

/-- **A climb that reaches the root** from a leaf has the root's height, and
the leaf is the one at the leaf index modulo the root's width. -/
theorem pathRoot_eq_rootHash {siblings : List H} {leaf : H} (hleaf : IsLeaf leaf) {index : ℕ}
    (h : pathRoot node siblings leaf index = rootHash node placeholder leaves) :
    siblings.length = Nat.clog 2 leaves.length ∧ leaves[index % 2 ^ Nat.clog 2 leaves.length]? = some leaf := by
  obtain ⟨hlen, hx⟩ := eq_subtreeHash_of_pathRoot hsep hleaves h
  obtain ⟨hzero, hget⟩ := leaf_eq hsep hleaf hx
  have hheight : siblings.length = Nat.clog 2 leaves.length := by omega
  rw [Nat.zero_mul, Nat.zero_add, hheight] at hget
  exact ⟨hheight, hget⟩

end Separated

end MerkleTree
