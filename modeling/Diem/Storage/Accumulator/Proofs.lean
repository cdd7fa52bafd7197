import Diem.Storage.Accumulator
import Diem.Types.Accumulator.Frontier

/-!
# Proofs read from the persistent accumulator

`get_proof`, `get_range_proof` and `get_consistency_proof` of
`storage/accumulator/src/lib.rs`: the proofs a node serves from its store, which
a client checks with `AccumulatorProof::verify`, `AccumulatorRangeProof::verify`
and `TransactionAccumulatorSummary::try_extend_with_proof`. The model is that
of `Diem.Storage.Accumulator`; `checked_add` on `u64` fails from `2 ^ 64` on.

For a reader that serves every frozen node of the leaves (`ReadsFrozen`), the
siblings of a leaf are the tree's own and the climb reaches the root
(`verify_getProof`); each round of the range verifier's loop hashes the parents
of the range at one level, up to the root (`verify_rangeProof`); and the
subtrees between two counts extend the summary of the smaller to the
accumulator of all the leaves (`tryExtendWithProof_getConsistencyProof`).
**`accumulatorProofs_complete`** puts them together over any run of `append`
calls from an empty store within `MAX_ACCUMULATOR_LEAVES`; past that bound
`get_consistency_proof` panics (`getConsistencyProof_above_max_panics`).
-/

namespace Diem

open InorderTree MerkleTree Position Nat

namespace MerkleAccumulator

section Readers

variable (node : HashValue → HashValue → HashValue) (placeholder : HashValue)
  (reader : Position → Except String HashValue)

/-- `get_hashes`. -/
def getHashes (numLeaves : ℕ) (positions : List Position) : Except Failure (List HashValue) :=
  positions.mapM (getHash node placeholder reader numLeaves)

/-- `get_sibling_positions`: the siblings on the path from the leaf to the
root that pass `filter`, from the bottom up. -/
def getSiblingPositions (numLeaves leafIndex : ℕ) (filter : Position → Bool) : Except Failure (List Position) := do
  let rootPos ← expect (rootFromLeafCount numLeaves)
  pure (((fromLeafIndex leafIndex).iterAncestorSibling rootPos.level).filter filter)

/-- `get_siblings`. -/
def getSiblings (numLeaves leafIndex : ℕ) (filter : Position → Bool) : Except Failure (List HashValue) := do
  let positions ← getSiblingPositions numLeaves leafIndex filter
  getHashes node placeholder reader numLeaves positions

/-- `get_proof`. -/
def getProof (numLeaves leafIndex : ℕ) : Except Failure AccumulatorProof :=
  if leafIndex < numLeaves then do
    let siblings ← getSiblings node placeholder reader numLeaves leafIndex fun _ => true
    pure ⟨siblings⟩
  else .error (.error ("invalid leaf_index " ++ toString leafIndex ++ ", num_leaves " ++ toString numLeaves))

/-- `get_range_proof_positions`, for an accumulator of `fullAccLeaves` leaves. -/
def getRangeProofPositions (fullAccLeaves : ℕ) (firstLeafIndex : Option ℕ) (numLeaves : ℕ) :
    Except Failure (List Position × List Position) :=
  match firstLeafIndex with
  | none =>
    if numLeaves = 0 then .ok ([], [])
    else .error (.error "num_leaves is not zero while first_leaf_index is None.")
  | some firstLeafIndex =>
    if numLeaves = 0 then .error (.error "num_leaves is zero while first_leaf_index is not None.")
    else if firstLeafIndex + (numLeaves - 1) ≥ 2 ^ 64 then .error (.error "Requesting too many leaves.")
    else
      let lastLeafIndex := firstLeafIndex + (numLeaves - 1)
      if lastLeafIndex < fullAccLeaves then do
        let leftSiblings ← getSiblingPositions fullAccLeaves firstLeafIndex fun p => p.isLeftChild
        let rightSiblings ← getSiblingPositions fullAccLeaves lastLeafIndex fun p => p.isRightChild
        pure (leftSiblings, rightSiblings)
      else .error (.error ("Invalid last_leaf_index: " ++ toString lastLeafIndex ++ ", num_leaves: " ++
        toString fullAccLeaves))

/-- `get_range_proof`. -/
def getRangeProof (fullAccLeaves : ℕ) (firstLeafIndex : Option ℕ) (numLeaves : ℕ) :
    Except Failure AccumulatorRangeProof := do
  let (leftSiblings, rightSiblings) ← getRangeProofPositions fullAccLeaves firstLeafIndex numLeaves
  let leftHashes ← getHashes node placeholder reader fullAccLeaves leftSiblings
  let rightHashes ← getHashes node placeholder reader fullAccLeaves rightSiblings
  pure ⟨leftHashes, rightHashes⟩

/-- `get_consistency_proof`: the subtrees the leaves after the first
`subAccLeaves` form, read from the store. -/
def getConsistencyProof (fullAccLeaves subAccLeaves : ℕ) : Except Failure AccumulatorConsistencyProof :=
  if subAccLeaves ≤ fullAccLeaves then do
    let positions ← expect (frozenSubtreeSiblingIterator subAccLeaves fullAccLeaves)
    let subtrees ← positions.mapM (read reader)
    pure ⟨subtrees⟩
  else .error (.error ("Can\x27t get accumulator consistency proof for a version newer than the local version. " ++
    "Local next version: " ++ toString fullAccLeaves ++ ", asked next version: " ++ toString subAccLeaves))

end Readers

/-! ### Inclusion proofs -/

section Inclusion

variable {node : HashValue → HashValue → HashValue} {placeholder : HashValue}
  {reader : Position → Except String HashValue} {leaves : List HashValue}

theorem clog_le_proofDepth {n : ℕ} (hmax : n ≤ MAX_ACCUMULATOR_LEAVES) : Nat.clog 2 n ≤ MAX_ACCUMULATOR_PROOF_DEPTH :=
  Nat.clog_le_of_le_pow hmax

theorem getSiblingPositions_eq_ok {numLeaves : ℕ} (hN : 0 < numLeaves) (hmax : numLeaves ≤ MAX_ACCUMULATOR_LEAVES)
    (leafIndex : ℕ) (filter : Position → Bool) :
    getSiblingPositions numLeaves leafIndex filter = .ok (((List.range (Nat.clog 2 numLeaves)).map
      fun d => ofCoords d ((leafIndex >>> d) ^^^ 1)).filter filter) := by
  rw [getSiblingPositions, rootFromLeafCount_eq hN hmax, expect_some, Except.ok_bind, level_ofCoords,
    fromLeafIndex_eq, iterAncestorSibling_ofCoords]
  simp

/-- `get_hashes` of nodes given by their coordinates reads their subtree hashes. -/
theorem getHashes_map_ofCoords (hread : ReadsFrozen node placeholder reader leaves leaves.length)
    (hN : 0 < leaves.length) {α : Type} (level index : α → ℕ) (xs : List α) :
    getHashes node placeholder reader leaves.length (xs.map fun x => ofCoords (level x) (index x)) =
      .ok (xs.map fun x => subtreeHash node placeholder leaves (level x) (index x)) := by
  rw [getHashes, List.mapM_map]
  exact Except.mapM_eq_ok_map fun x _ => getHash_eq_ok hread hN (level x) (index x)

/-- **`get_proof` serves the tree's own siblings.** -/
theorem getProof_eq_ok (hread : ReadsFrozen node placeholder reader leaves leaves.length)
    (hmax : leaves.length ≤ MAX_ACCUMULATOR_LEAVES) {i : ℕ} (hi : i < leaves.length) :
    getProof node placeholder reader leaves.length i =
      .ok ⟨(List.range (Nat.clog 2 leaves.length)).map
        fun d => subtreeHash node placeholder leaves d ((i >>> d) ^^^ 1)⟩ := by
  have hN : 0 < leaves.length := by omega
  have hpos := getSiblingPositions_eq_ok hN hmax i fun _ => true
  rw [List.filter_true] at hpos
  rw [getProof, if_pos hi, getSiblings, hpos, Except.ok_bind,
    getHashes_map_ofCoords hread hN (fun d => d) fun d => (i >>> d) ^^^ 1]
  rfl

/-- **Every leaf's proof is accepted** against the root. -/
theorem verify_getProof (hmax : leaves.length ≤ MAX_ACCUMULATOR_LEAVES) {i : ℕ} (hi : i < leaves.length) :
    AccumulatorProof.verify node ⟨(List.range (Nat.clog 2 leaves.length)).map
        fun d => subtreeHash node placeholder leaves d ((i >>> d) ^^^ 1)⟩
      (rootHash node placeholder leaves) leaves[i] i = .ok () := by
  refine (AccumulatorProof.verify_eq_ok node).2 ⟨?_, ?_⟩
  · rw [List.length_map, List.length_range]
    exact clog_le_proofDepth hmax
  · simp only [Nat.shiftRight_eq_div_pow]
    exact pathRoot_subtreeHash node placeholder hi

end Inclusion

/-! ### Range proofs -/

section Range

variable (node : HashValue → HashValue → HashValue) (placeholder : HashValue)

/-- The hashes of the left siblings on the path from leaf `f`, at the levels
`l` to `l + d - 1` where the path is a right child. -/
def leftProofHashes (leaves : List HashValue) (f l d : ℕ) : List HashValue :=
  ((List.range' l d).filter fun k => (f >>> k) % 2 = 1).map
    fun k => subtreeHash node placeholder leaves k ((f >>> k) ^^^ 1)

/-- The hashes of the right siblings on the path from leaf `b`, at the levels
`l` to `l + d - 1` where the path is a left child. -/
def rightProofHashes (leaves : List HashValue) (b l d : ℕ) : List HashValue :=
  ((List.range' l d).filter fun k => (b >>> k) % 2 = 0).map
    fun k => subtreeHash node placeholder leaves k ((b >>> k) ^^^ 1)

variable {node placeholder} {leaves : List HashValue}

theorem xor_one_of_mod_two_eq_one {x : ℕ} (h : x % 2 = 1) : x ^^^ 1 = x - 1 :=
  Nat.xor_one_of_odd (Nat.odd_iff.2 h)

theorem xor_one_of_mod_two_eq_zero {x : ℕ} (h : x % 2 = 0) : x ^^^ 1 = x + 1 :=
  Nat.xor_one_of_even (Nat.even_iff.2 h)

theorem leftProofHashes_succ (f l d : ℕ) : leftProofHashes node placeholder leaves f l (d + 1) =
    (if (f >>> l) % 2 = 1 then [subtreeHash node placeholder leaves l ((f >>> l) - 1)] else []) ++
      leftProofHashes node placeholder leaves f (l + 1) d := by
  rw [leftProofHashes, List.range'_succ, List.filter_cons]
  split_ifs with h1 h2 h2 <;> simp_all [leftProofHashes, xor_one_of_mod_two_eq_one]

theorem rightProofHashes_succ (b l d : ℕ) : rightProofHashes node placeholder leaves b l (d + 1) =
    (if (b >>> l) % 2 = 0 then [subtreeHash node placeholder leaves l ((b >>> l) + 1)] else []) ++
      rightProofHashes node placeholder leaves b (l + 1) d := by
  rw [rightProofHashes, List.range'_succ, List.filter_cons]
  split_ifs with h1 h2 h2 <;> simp_all [rightProofHashes, xor_one_of_mod_two_eq_zero]

/-- Pairs of siblings: over the nodes `s` to `s + 2 * q - 1` of a level, `s`
even, `chunkLevel` hashes their parents. -/
theorem chunkLevel_pairs {l : ℕ} (right : List HashValue) : ∀ q s, s % 2 = 0 →
    (∀ j, s ≤ j → j < s + 2 * q → j * 2 ^ l < leaves.length) →
    AccumulatorRangeProof.chunkLevel node right ((List.range' s (2 * q)).map (subtreeHash node placeholder leaves l)) =
      .ok (right, (List.range' (s / 2) q).map (subtreeHash node placeholder leaves (l + 1))) := by
  intro q
  induction q with
  | zero => intro s _ _; rfl
  | succ q ih =>
    intro s hs hcov
    have hrest := ih (s + 2) (by omega) fun j h1 h2 => hcov j (by omega) (by omega)
    rw [show 2 * (q + 1) = 2 * q + 1 + 1 by ring, List.range'_succ, List.range'_succ, List.map_cons, List.map_cons,
      AccumulatorRangeProof.chunkLevel, show s + 1 + 1 = s + 2 by ring, hrest, Except.ok_bind, List.range'_succ,
      List.map_cons, node_eq_parent node placeholder hs (hcov s le_rfl (by omega)),
      show (s + 2) / 2 = s / 2 + 1 by omega]
    rfl

/-- The same with one node left over, a left child hashed with the right
sibling given. -/
theorem chunkLevel_pairs_and_left {l : ℕ} (right : List HashValue) : ∀ q s, s % 2 = 0 →
    (∀ j, s ≤ j → j < s + 2 * q + 1 → j * 2 ^ l < leaves.length) →
    AccumulatorRangeProof.chunkLevel node (subtreeHash node placeholder leaves l (s + 2 * q + 1) :: right)
        ((List.range' s (2 * q + 1)).map (subtreeHash node placeholder leaves l)) =
      .ok (right, (List.range' (s / 2) (q + 1)).map (subtreeHash node placeholder leaves (l + 1))) := by
  intro q
  induction q with
  | zero =>
    intro s hs hcov
    simp only [Nat.mul_zero, Nat.zero_add, Nat.add_zero, List.range'_one, List.map_singleton,
      AccumulatorRangeProof.chunkLevel, node_eq_parent node placeholder hs (hcov s le_rfl (by omega))]
  | succ q ih =>
    intro s hs hcov
    have hrest := ih (s + 2) (by omega) fun j h1 h2 => hcov j (by omega) (by omega)
    rw [show s + 2 * (q + 1) + 1 = s + 2 + 2 * q + 1 by ring, show 2 * (q + 1) + 1 = 2 * q + 1 + 1 + 1 by ring,
      List.range'_succ, List.range'_succ, List.map_cons, List.map_cons, AccumulatorRangeProof.chunkLevel,
      show s + 1 + 1 = s + 2 by ring, hrest, Except.ok_bind, List.range'_succ, List.map_cons,
      node_eq_parent node placeholder hs (hcov s le_rfl (by omega)), show (s + 2) / 2 = s / 2 + 1 by omega]
    rfl

theorem takeFirst_of_even {left : List HashValue} {firstPos : ℕ} (h : firstPos % 2 = 0) (x : HashValue)
    (rest : List HashValue) :
    AccumulatorRangeProof.takeFirst node left firstPos (x :: rest) = .ok (left, [], x :: rest) := by
  simp [AccumulatorRangeProof.takeFirst, h]

theorem takeFirst_of_odd {left : List HashValue} {firstPos : ℕ} (h : firstPos % 2 = 1) (y x : HashValue)
    (rest : List HashValue) :
    AccumulatorRangeProof.takeFirst node (y :: left) firstPos (x :: rest) = .ok (left, [node y x], rest) := by
  simp [AccumulatorRangeProof.takeFirst, h]

/-- A run of a level from an even node `s` to the ancestor `b >>> l` of the
last leaf: `chunkLevel` hashes the parents, taking the right sibling of the
last node if that is a left child. -/
theorem chunkLevel_run {b l d s : ℕ} (hb : b < leaves.length) (hs : s % 2 = 0) (hse : s ≤ b >>> l + 1) :
    AccumulatorRangeProof.chunkLevel node (rightProofHashes node placeholder leaves b l (d + 1))
        ((List.range' s (b >>> l + 1 - s)).map (subtreeHash node placeholder leaves l)) =
      .ok (rightProofHashes node placeholder leaves b (l + 1) d,
        (List.range' (s / 2) (b >>> l / 2 + 1 - s / 2)).map (subtreeHash node placeholder leaves (l + 1))) := by
  have hcov : ∀ j, j ≤ b >>> l → j * 2 ^ l < leaves.length := fun j hj => mul_two_pow_lt_of_le_shiftRight hj hb
  rw [rightProofHashes_succ]
  rcases Nat.mod_two_eq_zero_or_one (b >>> l) with he | he
  · -- the last node is a left child, hashed with its right sibling
    obtain ⟨q, hq⟩ : ∃ q, b >>> l = s + 2 * q := ⟨(b >>> l - s) / 2, by omega⟩
    rw [if_pos he, List.singleton_append, hq, show s + 2 * q + 1 - s = 2 * q + 1 by omega,
      show (s + 2 * q) / 2 + 1 - s / 2 = q + 1 by omega]
    exact chunkLevel_pairs_and_left _ q s hs fun j _ h2 => hcov j (by omega)
  · -- the last node is a right child, paired within the run
    obtain ⟨q, hq⟩ : ∃ q, b >>> l + 1 = s + 2 * q := ⟨(b >>> l + 1 - s) / 2, by omega⟩
    rw [if_neg (by omega), List.nil_append, hq, show s + 2 * q - s = 2 * q by omega,
      show b >>> l / 2 + 1 - s / 2 = q by omega]
    exact chunkLevel_pairs _ q s hs fun j _ h2 => hcov j (by omega)

/-- **One round of `AccumulatorRangeProof::verify`** over the ancestors at
level `l` of the leaves `f` to `b`: it hashes their parents, with the left
sibling of the first and the right sibling of the last where those are
outside the run. -/
theorem reduceLevel_levels {f b : ℕ} (hfb : f ≤ b) (hb : b < leaves.length) (l d : ℕ) :
    AccumulatorRangeProof.reduceLevel node (leftProofHashes node placeholder leaves f l (d + 1))
        (rightProofHashes node placeholder leaves b l (d + 1)) (f >>> l)
        ((List.range' (f >>> l) (b >>> l + 1 - f >>> l)).map (subtreeHash node placeholder leaves l)) =
      .ok (leftProofHashes node placeholder leaves f (l + 1) d, rightProofHashes node placeholder leaves b (l + 1) d,
        (List.range' (f >>> (l + 1)) (b >>> (l + 1) + 1 - f >>> (l + 1))).map
          (subtreeHash node placeholder leaves (l + 1))) := by
  have hle : f >>> l ≤ b >>> l := by
    rw [Nat.shiftRight_eq_div_pow, Nat.shiftRight_eq_div_pow]
    exact Nat.div_le_div_right hfb
  have hcov : f >>> l * 2 ^ l < leaves.length := mul_two_pow_lt_of_le_shiftRight hle hb
  obtain ⟨k, hk⟩ : ∃ k, b >>> l + 1 - f >>> l = k + 1 := ⟨b >>> l - f >>> l, by omega⟩
  rw [Nat.shiftRight_succ f l, Nat.shiftRight_succ b l, AccumulatorRangeProof.reduceLevel, leftProofHashes_succ,
    hk, List.range'_succ, List.map_cons]
  rcases Nat.mod_two_eq_zero_or_one (f >>> l) with ha | ha
  · -- the first node is a left child: no left sibling at this level
    rw [if_neg (by omega), List.nil_append]
    simp only [takeFirst_of_even ha, Except.ok_bind]
    rw [← List.map_cons, ← List.range'_succ, ← hk, chunkLevel_run hb ha (by omega)]
    rfl
  · -- the first node is a right child, hashed with its left sibling
    have hparent := node_eq_parent node placeholder (s := f >>> l - 1) (l := l) (by omega)
      (lt_of_le_of_lt (Nat.mul_le_mul_right _ (Nat.sub_le _ 1)) hcov)
    have hpos : 1 ≤ f >>> l := Nat.pos_of_ne_zero fun h => by simp [h] at ha
    have hhalf : (f >>> l - 1) / 2 = f >>> l / 2 := by omega
    rw [Nat.sub_add_cancel hpos, hhalf] at hparent
    rw [if_pos ha, List.singleton_append]
    simp only [takeFirst_of_odd ha, Except.ok_bind, hparent]
    have hk' : k = b >>> l + 1 - (f >>> l + 1) := by omega
    have hs : (f >>> l + 1) % 2 = 0 := by omega
    have hse : f >>> l + 1 ≤ b >>> l + 1 := by omega
    rw [hk', chunkLevel_run hb hs hse, show (f >>> l + 1) / 2 = f >>> l / 2 + 1 by omega]
    show Except.ok (_, _, [_] ++ _) = _
    rw [List.singleton_append, ← List.map_cons, ← List.range'_succ,
      show b >>> l / 2 + 1 - (f >>> l / 2 + 1) + 1 = b >>> l / 2 + 1 - f >>> l / 2 by omega]

theorem verifyLoop_of_reduceLevel {leftSiblings rightSiblings currentHashes leftSiblings' rightSiblings'
      parentHashes : List HashValue} {firstPos : ℕ}
    (hcond : 1 < currentHashes.length ∨ leftSiblings ≠ [] ∨ rightSiblings ≠ [])
    (h : AccumulatorRangeProof.reduceLevel node leftSiblings rightSiblings firstPos currentHashes =
      .ok (leftSiblings', rightSiblings', parentHashes)) :
    AccumulatorRangeProof.verifyLoop node leftSiblings rightSiblings firstPos currentHashes =
      AccumulatorRangeProof.verifyLoop node leftSiblings' rightSiblings' (firstPos / 2) parentHashes := by
  rw [AccumulatorRangeProof.verifyLoop, if_pos hcond]
  split
  · rename_i heq
    rw [h] at heq
    cases heq
    rfl
  · rename_i heq
    rw [h] at heq
    cases heq

/-- Below the root a level of the range has two hashes or a sibling to hash. -/
theorem levels_continue {f b l : ℕ} (hle : f >>> l ≤ b >>> l) (d : ℕ) :
    1 < ((List.range' (f >>> l) (b >>> l + 1 - f >>> l)).map (subtreeHash node placeholder leaves l)).length ∨
      leftProofHashes node placeholder leaves f l (d + 1) ≠ [] ∨
      rightProofHashes node placeholder leaves b l (d + 1) ≠ [] := by
  rw [List.length_map, List.length_range', leftProofHashes_succ, rightProofHashes_succ]
  generalize f >>> l = a at *
  generalize b >>> l = c at *
  rcases Nat.mod_two_eq_zero_or_one a with ha | ha
  · rcases Nat.lt_or_ge a c with hlt | hge
    · exact Or.inl (by omega)
    · have hc : c % 2 = 0 := by rw [show c = a by omega]; exact ha
      exact Or.inr (Or.inr (by simp [hc]))
  · exact Or.inr (Or.inl (by simp [ha]))

theorem shiftRight_clog_of_lt {x n : ℕ} (hx : x < n) : x >>> Nat.clog 2 n = 0 := by
  rw [Nat.shiftRight_eq_div_pow]
  exact Nat.div_eq_of_lt (lt_of_lt_of_le hx (Nat.le_pow_clog Nat.one_lt_two n))

/-- **The loop of `AccumulatorRangeProof::verify` climbs to the root** from
the ancestors at level `l` of the leaves `f` to `b`, with the siblings of the
`d` levels above. -/
theorem verifyLoop_levels {f b : ℕ} (hfb : f ≤ b) (hb : b < leaves.length) :
    ∀ d l, l + d = Nat.clog 2 leaves.length →
      AccumulatorRangeProof.verifyLoop node (leftProofHashes node placeholder leaves f l d)
          (rightProofHashes node placeholder leaves b l d) (f >>> l)
          ((List.range' (f >>> l) (b >>> l + 1 - f >>> l)).map (subtreeHash node placeholder leaves l)) =
        .ok [rootHash node placeholder leaves] := by
  intro d
  induction d with
  | zero =>
    -- at the root level the range is the root alone and no sibling is left
    intro l hl
    rw [Nat.add_zero] at hl
    subst hl
    rw [shiftRight_clog_of_lt (lt_of_le_of_lt hfb hb), shiftRight_clog_of_lt hb]
    simp [AccumulatorRangeProof.verifyLoop, leftProofHashes, rightProofHashes, rootHash]
  | succ d ih =>
    intro l hl
    have hle : f >>> l ≤ b >>> l := by
      rw [Nat.shiftRight_eq_div_pow, Nat.shiftRight_eq_div_pow]
      exact Nat.div_le_div_right hfb
    rw [verifyLoop_of_reduceLevel (levels_continue hle d) (reduceLevel_levels hfb hb l d), ← Nat.shiftRight_succ]
    exact ih (l + 1) (by omega)

/-! #### What `get_range_proof` serves -/

theorem xor_one_mod_two_eq_zero_iff (x : ℕ) : (x ^^^ 1) % 2 = 0 ↔ x % 2 = 1 := by
  rcases Nat.mod_two_eq_zero_or_one x with h | h
  · rw [xor_one_of_mod_two_eq_zero h]
    omega
  · rw [xor_one_of_mod_two_eq_one h]
    omega

/-- The siblings on the path from leaf `x` that pass a filter, by their levels. -/
theorem filter_siblings (x R : ℕ) (p : Position → Bool) (q : ℕ → Prop) [DecidablePred q]
    (hpq : ∀ d, p (ofCoords d ((x >>> d) ^^^ 1)) = decide (q d)) :
    ((List.range R).map fun d => ofCoords d ((x >>> d) ^^^ 1)).filter p =
      ((List.range' 0 R).filter fun d => decide (q d)).map fun d => ofCoords d ((x >>> d) ^^^ 1) := by
  rw [List.filter_map, List.range_eq_range']
  congr 1
  exact List.filter_congr fun d _ => hpq d

theorem getRangeProofPositions_eq_ok (hmax : leaves.length ≤ MAX_ACCUMULATOR_LEAVES) {f k : ℕ} (hk : 0 < k)
    (hfk : f + k ≤ leaves.length) :
    getRangeProofPositions leaves.length (some f) k =
      .ok ((((List.range' 0 (Nat.clog 2 leaves.length)).filter fun d => (f >>> d) % 2 = 1).map
          fun d => ofCoords d ((f >>> d) ^^^ 1)),
        (((List.range' 0 (Nat.clog 2 leaves.length)).filter fun d => ((f + (k - 1)) >>> d) % 2 = 0).map
          fun d => ofCoords d (((f + (k - 1)) >>> d) ^^^ 1))) := by
  have hN : 0 < leaves.length := by omega
  have hwide : ¬ f + (k - 1) ≥ 2 ^ 64 := by
    have : MAX_ACCUMULATOR_LEAVES < 2 ^ 64 := by decide
    omega
  rw [getRangeProofPositions, if_neg (by omega), if_neg hwide]
  simp only
  rw [if_pos (by omega), getSiblingPositions_eq_ok hN hmax, getSiblingPositions_eq_ok hN hmax,
    filter_siblings f _ _ (fun d => (f >>> d) % 2 = 1) fun d => by
      rw [isLeftChild_ofCoords, decide_eq_decide]
      exact xor_one_mod_two_eq_zero_iff _,
    filter_siblings (f + (k - 1)) _ _ (fun d => ((f + (k - 1)) >>> d) % 2 = 0) fun d => by
      rw [isRightChild_ofCoords, decide_eq_decide, ← Nat.mod_two_ne_zero, ← Nat.mod_two_ne_one,
        not_iff_not]
      exact xor_one_mod_two_eq_zero_iff _]
  rfl

theorem getRangeProof_eq_ok {reader : Position → Except String HashValue}
    (hread : ReadsFrozen node placeholder reader leaves leaves.length)
    (hmax : leaves.length ≤ MAX_ACCUMULATOR_LEAVES) {f k : ℕ} (hk : 0 < k) (hfk : f + k ≤ leaves.length) :
    getRangeProof node placeholder reader leaves.length (some f) k =
      .ok ⟨leftProofHashes node placeholder leaves f 0 (Nat.clog 2 leaves.length),
        rightProofHashes node placeholder leaves (f + (k - 1)) 0 (Nat.clog 2 leaves.length)⟩ := by
  have hN : 0 < leaves.length := by omega
  rw [getRangeProof, getRangeProofPositions_eq_ok hmax hk hfk, Except.ok_bind]
  simp only
  rw [getHashes_map_ofCoords hread hN (fun d => d) fun d => (f >>> d) ^^^ 1, Except.ok_bind,
    getHashes_map_ofCoords hread hN (fun d => d) fun d => ((f + (k - 1)) >>> d) ^^^ 1, Except.ok_bind]
  rfl

theorem take_drop_eq_map {f k : ℕ} (hfk : f + k ≤ leaves.length) :
    (leaves.drop f).take k = (List.range' f k).map (subtreeHash node placeholder leaves 0) := by
  refine List.ext_getElem (by simp; omega) fun i h1 h2 => ?_
  simp only [List.length_map, List.length_range'] at h2
  simp only [List.getElem_take, List.getElem_drop, List.getElem_map, List.getElem_range', Nat.one_mul]
  rw [subtreeHash_zero_of_lt node placeholder (by omega)]

theorem leftProofHashes_length_le (f l d : ℕ) : (leftProofHashes node placeholder leaves f l d).length ≤ d := by
  rw [leftProofHashes, List.length_map]
  exact le_trans (List.length_filter_le _ _) (List.length_range' ..).le

theorem rightProofHashes_length_le (b l d : ℕ) : (rightProofHashes node placeholder leaves b l d).length ≤ d := by
  rw [rightProofHashes, List.length_map]
  exact le_trans (List.length_filter_le _ _) (List.length_range' ..).le

/-- **The range proofs the tree gives are accepted** against its root, for the
leaves `f` to `f + k - 1`. -/
theorem verify_rangeProof (hmax : leaves.length ≤ MAX_ACCUMULATOR_LEAVES) {f k : ℕ} (hk : 0 < k)
    (hfk : f + k ≤ leaves.length) :
    AccumulatorRangeProof.verify node
        ⟨leftProofHashes node placeholder leaves f 0 (Nat.clog 2 leaves.length),
          rightProofHashes node placeholder leaves (f + (k - 1)) 0 (Nat.clog 2 leaves.length)⟩
        (rootHash node placeholder leaves) (some f) ((leaves.drop f).take k) = .ok () := by
  have hR := clog_le_proofDepth hmax
  have hloop := @verifyLoop_levels node placeholder leaves f (f + (k - 1)) (by omega) (by omega)
    (Nat.clog 2 leaves.length) 0 (Nat.zero_add _)
  rw [Nat.shiftRight_zero, Nat.shiftRight_zero, show f + (k - 1) + 1 - f = k by omega,
    ← take_drop_eq_map hfk] at hloop
  have hne : (leaves.drop f).take k ≠ [] := List.ne_nil_of_length_pos (by simp; omega)
  have hmod : f % 2 ^ 63 = f := Nat.mod_eq_of_lt (by simp only [MAX_ACCUMULATOR_LEAVES] at hmax; omega)
  simp only [AccumulatorRangeProof.verify]
  rw [if_neg (not_lt.2 ((leftProofHashes_length_le _ _ _).trans hR)),
    if_neg (not_lt.2 ((rightProofHashes_length_le _ _ _).trans hR)), if_neg hne, hmod, hloop]
  simp

end Range

/-! ### Consistency proofs -/

section Consistency

variable {node : HashValue → HashValue → HashValue} {placeholder : HashValue}
  {reader : Position → Except String HashValue} {leaves : List HashValue}

/-- The subtrees the iterator lists are frozen by the larger count. -/
theorem frozenBy_of_mem_frozenSubtreeSiblings : ∀ (r c : ℕ), 0 < c → r < 2 ^ 64 →
    ∀ p ∈ frozenSubtreeSiblings c r, FrozenBy (c + r) p := by
  intro r
  induction r using Nat.strong_induction_on with
  | _ r ih =>
    intro c hc h64 p hp
    rcases Nat.eq_zero_or_pos r with rfl | hr0
    · rw [frozenSubtreeSiblings_zero] at hp
      cases hp
    · obtain ⟨s, hnext, hle, j, rfl⟩ := nextSubtreeLeaves_dvd hc hr0 h64
      have hpow := Nat.two_pow_pos s
      rw [frozenSubtreeSiblings_of_pos hr0, hnext, fromInorderIndex_subtree, List.mem_cons] at hp
      rcases hp with rfl | hp
      · exact ⟨s, j, rfl, by rw [Nat.add_mul, Nat.one_mul, Nat.mul_comm]; omega⟩
      · have hrest := ih (r - 2 ^ s) (by omega) (2 ^ s * j + 2 ^ s) (by omega) (by omega) p hp
        rwa [show 2 ^ s * j + 2 ^ s + (r - 2 ^ s) = 2 ^ s * j + r by omega] at hrest

theorem getConsistencyProof_eq_ok (hread : ReadsFrozen node placeholder reader leaves leaves.length)
    (hmax : leaves.length ≤ MAX_ACCUMULATOR_LEAVES) {m : ℕ} (hm : 0 < m) (hmN : m ≤ leaves.length) :
    getConsistencyProof reader leaves.length m =
      .ok ⟨(frozenSubtreeSiblings m (leaves.length - m)).map
        (InMemoryAccumulator.positionHash node placeholder leaves)⟩ := by
  have h64 : leaves.length - m < 2 ^ 64 := by
    have : MAX_ACCUMULATOR_LEAVES < 2 ^ 64 := by decide
    omega
  have hreads : (frozenSubtreeSiblings m (leaves.length - m)).mapM (read reader) =
      .ok ((frozenSubtreeSiblings m (leaves.length - m)).map
        (InMemoryAccumulator.positionHash node placeholder leaves)) := by
    refine Except.mapM_eq_ok_map fun p hp => ?_
    obtain ⟨l, j, rfl, hfull⟩ := frozenBy_of_mem_frozenSubtreeSiblings _ m hm h64 p hp
    rw [Nat.add_sub_cancel' hmN] at hfull
    rw [read, hread l j hfull, InMemoryAccumulator.positionHash_ofCoords]
    rfl
  rw [getConsistencyProof, if_pos hmN, frozenSubtreeSiblingIterator, if_pos ⟨hmax, hmN⟩, expect_some,
    Except.ok_bind, hreads]
  rfl

/-- Above `MAX_ACCUMULATOR_LEAVES` leaves, `get_consistency_proof` panics in
the `assert!` of `FrozenSubtreeSiblingIterator::new`, whatever the store holds. -/
theorem getConsistencyProof_above_max_panics :
    getConsistencyProof MockHashStore.new.get (MAX_ACCUMULATOR_LEAVES + 1) 1 = .error .panic := by
  rw [getConsistencyProof, if_pos (by decide), frozenSubtreeSiblingIterator, if_neg (by decide)]
  rfl

/-- **A consistency proof the store serves extends the summary of the first
`m` leaves to the accumulator of all of them**, against any ledger info at the
last version with the tree's root. -/
theorem tryExtendWithProof_getConsistencyProof (hread : ReadsFrozen node placeholder reader leaves leaves.length)
    (hmax : leaves.length ≤ MAX_ACCUMULATOR_LEAVES) {m : ℕ} (hm : 0 < m) (hmN : m ≤ leaves.length)
    {li : LedgerInfo} (hv : li.version = leaves.length - 1)
    (hroot : li.transactionAccumulatorHash = rootHash node placeholder leaves) :
    ∃ proof summary summary', getConsistencyProof reader leaves.length m = .ok proof ∧
      (InMemoryAccumulator.fromLeaves node placeholder (leaves.take m) >>= TransactionAccumulatorSummary.new) =
        .ok summary ∧
      summary.tryExtendWithProof node placeholder proof li = .ok summary' ∧
      summary'.rootHash = rootHash node placeholder leaves ∧
      InMemoryAccumulator.fromLeaves node placeholder leaves = .ok summary'.accumulator := by
  set start : InMemoryAccumulator := ⟨(frontier node placeholder leaves m).reverse, m,
    InMemoryAccumulator.computeRootHash node placeholder (frontier node placeholder leaves m).reverse m⟩
  set full : InMemoryAccumulator := ⟨(frontier node placeholder leaves leaves.length).reverse, leaves.length,
    rootHash node placeholder leaves⟩
  have hfull : InMemoryAccumulator.fromLeaves node placeholder leaves = .ok full :=
    InMemoryAccumulator.fromLeaves_frontier
  have hsummary : TransactionAccumulatorSummary.new start = .ok ⟨start⟩ := by
    rw [TransactionAccumulatorSummary.new, if_neg (by simp [start, InMemoryAccumulator.isEmpty]; omega)]
  have hconsistent : TransactionAccumulatorSummary.verifyConsistency ⟨full⟩ li = .ok () := by
    refine TransactionAccumulatorSummary.verifyConsistency_eq_ok.2 ⟨?_, hroot⟩
    simp only [hv, full, TransactionAccumulatorSummary.version, InMemoryAccumulator.version,
      if_neg (show ¬ leaves.length = 0 by omega)]
  have hversion : ¬ li.version < start.version := by
    simp only [hv, start, InMemoryAccumulator.version]
    split_ifs <;> omega
  have hnew : li.version - start.version = leaves.length - m := by
    simp only [hv, start, InMemoryAccumulator.version, if_neg (show ¬ m = 0 by omega)]
    omega
  refine ⟨_, ⟨start⟩, ⟨full⟩, getConsistencyProof_eq_ok hread hmax hm hmN, ?_, ?_, rfl, hfull⟩
  · rw [InMemoryAccumulator.fromLeaves_take hmN, Except.ok_bind, hsummary]
  · rw [TransactionAccumulatorSummary.tryExtendWithProof, if_neg hversion, hnew]
    dsimp only [start]
    rw [InMemoryAccumulator.appendSubtrees_frontier hm hmN hmax, Except.ok_bind, hconsistent]
    rfl

end Consistency

/-! ### After a run of appends -/

section Complete

variable {node : HashValue → HashValue → HashValue} {placeholder : HashValue}

/-- A run of appends within the bound ends with every leaf appended and the
store holding exactly their frozen nodes. -/
theorem runInv_final : ∀ (batches : List (List HashValue)) (s : Accumulated), RunInv node placeholder s batches →
    RunInv node placeholder (Mealy.final (appendCall node placeholder) s batches) [] ∧
      (Mealy.final (appendCall node placeholder) s batches).leaves = s.leaves ++ batches.flatten := by
  intro batches
  induction batches with
  | nil => intro s hs; exact ⟨hs, by simp⟩
  | cons newLeaves batches ih =>
    intro s hs
    obtain ⟨hstore, hbound⟩ := hs
    rw [List.map_cons, List.sum_cons] at hbound
    obtain ⟨hinv, hleaves⟩ := ih _ (runInv_step ⟨hstore, by rw [List.map_cons, List.sum_cons]; exact hbound⟩)
    refine ⟨hinv, ?_⟩
    rw [Mealy.final, hleaves, appendCall_eq hstore (by omega), List.flatten_cons, List.append_assoc]

/-- What a client accepts from a reader of the accumulator of `leaves`:
`get_root_hash` gives the tree's root, and every proof the reader serves is
accepted against it. -/
structure ProofsAccepted (node : HashValue → HashValue → HashValue) (placeholder : HashValue)
    (reader : Position → Except String HashValue) (leaves : List HashValue) : Prop where
  /-- `get_root_hash` of the leaf count. -/
  getRootHash_eq : getRootHash node placeholder reader leaves.length = .ok (rootHash node placeholder leaves)
  /-- `get_proof` of every leaf, checked by `AccumulatorProof::verify`. -/
  proof_accepted : ∀ i (hi : i < leaves.length), ∃ proof,
    getProof node placeholder reader leaves.length i = .ok proof ∧
      proof.verify node (rootHash node placeholder leaves) leaves[i] i = .ok ()
  /-- `get_range_proof` of every range of leaves, checked by `AccumulatorRangeProof::verify`. -/
  rangeProof_accepted : ∀ f k, 0 < k → f + k ≤ leaves.length → ∃ proof,
    getRangeProof node placeholder reader leaves.length (some f) k = .ok proof ∧
      proof.verify node (rootHash node placeholder leaves) (some f) ((leaves.drop f).take k) = .ok ()
  /-- `get_consistency_proof` from every smaller count, applied by `try_extend_with_proof` to the
  summary of the first leaves against a ledger info at the last version and the root. -/
  consistencyProof_accepted : ∀ m, 0 < m → m ≤ leaves.length → ∀ li : LedgerInfo,
    li.version = leaves.length - 1 → li.transactionAccumulatorHash = rootHash node placeholder leaves →
    ∃ proof summary summary', getConsistencyProof reader leaves.length m = .ok proof ∧
      (InMemoryAccumulator.fromLeaves node placeholder (leaves.take m) >>= TransactionAccumulatorSummary.new) =
        .ok summary ∧
      summary.tryExtendWithProof node placeholder proof li = .ok summary' ∧
      summary'.rootHash = rootHash node placeholder leaves

/-- Every reader of all frozen nodes serves proofs that are accepted. -/
theorem proofsAccepted_of_readsFrozen {reader : Position → Except String HashValue} {leaves : List HashValue}
    (hread : ReadsFrozen node placeholder reader leaves leaves.length) (hN : 0 < leaves.length)
    (hmax : leaves.length ≤ MAX_ACCUMULATOR_LEAVES) : ProofsAccepted node placeholder reader leaves where
  getRootHash_eq := getRootHash_eq_ok hread hN hmax
  proof_accepted i hi := ⟨_, getProof_eq_ok hread hmax hi, verify_getProof hmax hi⟩
  rangeProof_accepted f k hk hfk := ⟨_, getRangeProof_eq_ok hread hmax hk hfk, verify_rangeProof hmax hk hfk⟩
  consistencyProof_accepted m hm hmN li hv hroot := by
    obtain ⟨proof, summary, summary', hproof, hsummary, hextend, hroot', -⟩ :=
      tryExtendWithProof_getConsistencyProof hread hmax hm hmN hv hroot
    exact ⟨proof, summary, summary', hproof, hsummary, hextend, hroot'⟩

/-- **The proofs a store filled by appends serves are accepted**: after any
run of `append` calls from an empty store, with at least one leaf and within
the bound, the store holds all the leaves appended and serves proofs that are
accepted against the root. -/
theorem accumulatorProofs_complete (batches : List (List HashValue))
    (hmax : (batches.map List.length).sum ≤ MAX_ACCUMULATOR_LEAVES) (hne : 0 < (batches.map List.length).sum) :
    (Mealy.final (appendCall node placeholder) Accumulated.empty batches).leaves = batches.flatten ∧
      ProofsAccepted node placeholder (Mealy.final (appendCall node placeholder) Accumulated.empty batches).store.get
        (Mealy.final (appendCall node placeholder) Accumulated.empty batches).leaves := by
  obtain ⟨⟨hstore, hbound⟩, hleaves⟩ := @runInv_final node placeholder batches
    Accumulated.empty ⟨storeOk_new, by simpa [Accumulated.empty] using hmax⟩
  rw [List.map_nil, List.sum_nil, Nat.add_zero] at hbound
  change (Mealy.final (appendCall node placeholder) Accumulated.empty batches).leaves = batches.flatten at hleaves
  have hN : 0 < (Mealy.final (appendCall node placeholder) Accumulated.empty batches).leaves.length := by
    rw [hleaves, List.length_flatten]
    exact hne
  exact ⟨hleaves, proofsAccepted_of_readsFrozen (readsFrozen_get hstore) hN hbound⟩

end Complete

/-- Three leaves in two batches, with the hashes of `exampleNode`. -/
theorem accumulatorProofs_complete_twoBatches :
    (([[⟨5⟩, ⟨8⟩], [⟨11⟩]] : List (List HashValue)).map List.length).sum ≤ MAX_ACCUMULATOR_LEAVES ∧
      0 < (([[⟨5⟩, ⟨8⟩], [⟨11⟩]] : List (List HashValue)).map List.length).sum ∧
      (Mealy.final (appendCall exampleNode ⟨2⟩) Accumulated.empty [[⟨5⟩, ⟨8⟩], [⟨11⟩]]).leaves =
        ([[⟨5⟩, ⟨8⟩], [⟨11⟩]] : List (List HashValue)).flatten ∧
      ProofsAccepted exampleNode ⟨2⟩
        (Mealy.final (appendCall exampleNode ⟨2⟩) Accumulated.empty [[⟨5⟩, ⟨8⟩], [⟨11⟩]]).store.get
        (Mealy.final (appendCall exampleNode ⟨2⟩) Accumulated.empty [[⟨5⟩, ⟨8⟩], [⟨11⟩]]).leaves :=
  ⟨by decide, by decide, accumulatorProofs_complete [[⟨5⟩, ⟨8⟩], [⟨11⟩]] (by decide) (by decide)⟩

end MerkleAccumulator

end Diem
