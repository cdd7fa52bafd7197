import Diem.Types.LedgerInfo
import Diem.Theory.Bits

/-!
# The in-memory Merkle accumulator

`types/src/proof/accumulator/mod.rs` and the accumulator summary of
`types/src/proof/definition.rs`. An accumulator of `n` leaves keeps only the
roots of its maximal full subtrees, one per one bit of `n`, from left to right;
its root hash pads the tree on the right with `ACCUMULATOR_PLACEHOLDER_HASH`. A
light client keeps such a summary of the transaction accumulator and extends it
with the subtrees of a consistency proof.

The hash of an internal node is a parameter `node`. `InMemoryAccumulator` has
the fields of the Rust struct, so it can hold any values, as a deserialized one
can; `new` is what checks them. A `Vec` the code pushes to and pops from the end
of is handled reversed, and counts are `u64`s that wrap. The loops are
recursions: `rootLoop` over the bits of the bitmap, `combine` over the new
subtrees and `carry` over the 64 bits of its mask. An `expect` the code
documents as unreachable returns the current value; `new`'s check makes those
branches unreachable.

For an injective `node`, the root hash and the leaf count determine the frozen
subtree roots (`computeRootHash_inj`). Appending keeps one frozen subtree per one
bit, so `append` never fails (`append_eq_ok`), and a successful extension of a
summary has the target's version and root hash (`tryExtendWithProof_eq_ok`).
-/

namespace Diem

/-- `MAX_ACCUMULATOR_LEAVES`. -/
def MAX_ACCUMULATOR_LEAVES : ℕ := 2 ^ 63

/-- `InMemoryAccumulator`. -/
structure InMemoryAccumulator where
  /-- The roots of the full subtrees, from left to right. -/
  frozenSubtreeRoots : List HashValue
  /-- The number of leaves. -/
  numLeaves : ℕ
  /-- The root hash, as stored. -/
  rootHash : HashValue
  deriving DecidableEq

namespace InMemoryAccumulator

variable (node : HashValue → HashValue → HashValue) (placeholder : HashValue)

/-- The loop of `compute_root_hash`, over the bits of the bitmap from the
lowest: a one bit takes the next frozen subtree from the right as the left
sibling, a zero bit pads the right with the placeholder. -/
def rootLoop : List Bool → HashValue → List HashValue → HashValue
  | [], currentHash, _ => currentHash
  | true :: bitmap, currentHash, frozen :: rest => rootLoop bitmap (node frozen currentHash) rest
  -- "This frozen subtree should exist."
  | true :: _, currentHash, [] => currentHash
  | false :: bitmap, currentHash, rest => rootLoop bitmap (node currentHash placeholder) rest

/-- `compute_root_hash`: the trailing zeros of the count do not matter, since
the lowest frozen subtree covers them. -/
def computeRootHash (frozenSubtreeRoots : List HashValue) (numLeaves : ℕ) : HashValue :=
  match frozenSubtreeRoots with
  | [] => placeholder
  | [root] => root
  | _ => rootLoop node placeholder (numLeaves >>> numLeaves.trailingZeros).bits placeholder
      frozenSubtreeRoots.reverse

/-- `InMemoryAccumulator::new`. -/
def new (frozenSubtreeRoots : List HashValue) (numLeaves : ℕ) : Except String InMemoryAccumulator :=
  if frozenSubtreeRoots.length = numLeaves.countOnes then
    .ok ⟨frozenSubtreeRoots, numLeaves, computeRootHash node placeholder frozenSubtreeRoots numLeaves⟩
  else .error "The number of frozen subtrees does not match the number of leaves."

/-- `k` times, pop the last two roots and push their parent; the roots are
reversed, last first. -/
def mergeLast : ℕ → List HashValue → List HashValue
  | 0, roots => roots
  | k + 1, rightHash :: leftHash :: roots => mergeLast k (node leftHash rightHash :: roots)
  -- "Invalid accumulator."
  | _ + 1, roots => roots

/-- `append_one`: push the leaf, then merge the two last subtrees once per
trailing one of the old count (each carry of adding one). -/
def appendOne (frozenSubtreeRoots : List HashValue) (numExistingLeaves : ℕ) (leaf : HashValue) :
    List HashValue :=
  (mergeLast node numExistingLeaves.trailingOnes (leaf :: frozenSubtreeRoots.reverse)).reverse

/-- The loop of `append`. -/
def appendLeaves : List HashValue → ℕ → List HashValue → List HashValue × ℕ
  | frozenSubtreeRoots, numLeaves, [] => (frozenSubtreeRoots, numLeaves)
  | frozenSubtreeRoots, numLeaves, leaf :: leaves =>
    appendLeaves (appendOne node frozenSubtreeRoots numLeaves leaf) (numLeaves + 1) leaves

/-- `append`, its `expect` an error. -/
def append (acc : InMemoryAccumulator) (leaves : List HashValue) : Except String InMemoryAccumulator :=
  let (frozenSubtreeRoots, numLeaves) := appendLeaves node acc.frozenSubtreeRoots acc.numLeaves leaves
  new node placeholder frozenSubtreeRoots numLeaves

/-- `Default::default`, the empty accumulator. -/
def default : InMemoryAccumulator := ⟨[], 0, placeholder⟩

/-- `from_leaves`. -/
def fromLeaves (leaves : List HashValue) : Except String InMemoryAccumulator :=
  append node placeholder (default placeholder) leaves

/-- The inner loop of `append_subtrees`: while the count has the `mask` bit,
the last frozen root is the left sibling of the current hash. The roots are
reversed; the mask is a `u64`, so 64 rounds end it. -/
def carry : ℕ → List HashValue → ℕ → ℕ → HashValue → List HashValue × HashValue × ℕ
  | 0, roots, _, mask, currentHash => (roots, currentHash, mask)
  | fuel + 1, roots, currentNumLeaves, mask, currentHash =>
    if currentNumLeaves &&& mask ≠ 0 then
      match roots with
      | leftHash :: roots => carry fuel roots currentNumLeaves (mask * 2 % 2 ^ 64) (node leftHash currentHash)
      -- "This frozen subtree must exist."
      | [] => ([], currentHash, mask)
    else (roots, currentHash, mask)

/-- The outer loop of `append_subtrees`: while a new subtree is at least as
large as the rightmost frozen one, combine them. Each round takes one new
subtree. Returns the reversed roots, the count, the new leaves left and the
subtrees left. -/
def combine : List HashValue → List HashValue → ℕ → ℕ → ℕ →
    Except String (List HashValue × ℕ × ℕ × List HashValue)
  | [], roots, currentNumLeaves, remainingNewLeaves, rightmostFrozenSubtreeSize =>
    if remainingNewLeaves ≥ rightmostFrozenSubtreeSize then .error "Too few subtrees."
    else .ok (roots, currentNumLeaves, remainingNewLeaves, [])
  | currentHash :: subtrees, roots, currentNumLeaves, remainingNewLeaves, rightmostFrozenSubtreeSize =>
    if remainingNewLeaves ≥ rightmostFrozenSubtreeSize then
      match carry node 64 roots currentNumLeaves rightmostFrozenSubtreeSize currentHash with
      | (roots, currentHash, mask) =>
        combine subtrees (currentHash :: roots) ((currentNumLeaves + rightmostFrozenSubtreeSize) % 2 ^ 64)
          (remainingNewLeaves - rightmostFrozenSubtreeSize) mask
    else .ok (roots, currentNumLeaves, remainingNewLeaves, currentHash :: subtrees)

/-- `append_subtrees`: the new leaves are given by the roots of the subtrees
they form. -/
def appendSubtrees (acc : InMemoryAccumulator) (subtrees : List HashValue) (numNewLeaves : ℕ) :
    Except String InMemoryAccumulator :=
  if numNewLeaves > (MAX_ACCUMULATOR_LEAVES + 2 ^ 64 - acc.numLeaves) % 2 ^ 64 then .error "Too many new leaves."
  else if acc.numLeaves = 0 then new node placeholder subtrees numNewLeaves
  else do
    let (roots, currentNumLeaves, remainingNewLeaves, subtrees) ←
      combine node subtrees acc.frozenSubtreeRoots.reverse acc.numLeaves numNewLeaves
        (2 ^ acc.numLeaves.trailingZeros)
    new node placeholder (roots.reverse ++ subtrees) ((currentNumLeaves + remainingNewLeaves) % 2 ^ 64)

/-- `version`: the version of the last leaf. -/
def version (acc : InMemoryAccumulator) : ℕ := if acc.numLeaves = 0 then 0 else acc.numLeaves - 1

/-- `is_empty`. -/
def isEmpty (acc : InMemoryAccumulator) : Bool := acc.numLeaves == 0

/-! ### Well-formed accumulators -/

/-- What `new` checks and computes: one frozen subtree per one bit of the
count, and the root hash of those subtrees. -/
def WellFormed (acc : InMemoryAccumulator) : Prop :=
  acc.frozenSubtreeRoots.length = acc.numLeaves.countOnes ∧
    acc.rootHash = computeRootHash node placeholder acc.frozenSubtreeRoots acc.numLeaves

variable {node placeholder}

theorem new_eq_ok {frozenSubtreeRoots : List HashValue} {numLeaves : ℕ} {acc : InMemoryAccumulator} :
    new node placeholder frozenSubtreeRoots numLeaves = .ok acc ↔
      frozenSubtreeRoots.length = numLeaves.countOnes ∧
        acc = ⟨frozenSubtreeRoots, numLeaves, computeRootHash node placeholder frozenSubtreeRoots numLeaves⟩ := by
  unfold new
  split
  · rename_i h
    simp only [Except.ok.injEq, h, true_and]
    exact eq_comm
  · rename_i h
    simp [h]

theorem wellFormed_of_new {frozenSubtreeRoots : List HashValue} {numLeaves : ℕ} {acc : InMemoryAccumulator}
    (h : new node placeholder frozenSubtreeRoots numLeaves = .ok acc) : WellFormed node placeholder acc := by
  obtain ⟨hlen, rfl⟩ := new_eq_ok.1 h
  exact ⟨hlen, rfl⟩

section Injective

variable (hnode : ∀ a b c d, node a b = node c d → a = c ∧ b = d)
include hnode

/-- The loop of `compute_root_hash` determines its start and the frozen roots
it reads. -/
theorem rootLoop_inj : ∀ (bitmap : List Bool) (h h' : HashValue) (r r' : List HashValue),
    r.length = r'.length → rootLoop node placeholder bitmap h r = rootLoop node placeholder bitmap h' r' →
      h = h' ∧ r.take (bitmap.count true) = r'.take (bitmap.count true) := by
  intro bitmap
  induction bitmap with
  | nil =>
    intro h h' r r' _ heq
    exact ⟨heq, by simp⟩
  | cons b bitmap ih =>
    intro h h' r r' hlen heq
    cases b with
    | false =>
      obtain ⟨hh, htake⟩ := ih _ _ r r' hlen heq
      exact ⟨(hnode _ _ _ _ hh).1, by simpa using htake⟩
    | true =>
      cases r with
      | nil =>
        cases r' with
        | nil => exact ⟨heq, rfl⟩
        | cons _ _ => cases hlen
      | cons x r =>
        cases r' with
        | nil => cases hlen
        | cons x' r' =>
          obtain ⟨hh, htake⟩ := ih _ _ r r' (by simpa using hlen) heq
          obtain ⟨hx, hcur⟩ := hnode _ _ _ _ hh
          refine ⟨hcur, ?_⟩
          simp only [List.count_cons_self, List.take_succ_cons, hx, htake]

/-- **The root hash determines the frozen subtrees**: two sets of frozen
roots of the right size for `numLeaves` with the same root hash are equal. -/
theorem computeRootHash_inj {f f' : List HashValue} {numLeaves : ℕ} (hf : f.length = numLeaves.countOnes)
    (hf' : f'.length = numLeaves.countOnes)
    (h : computeRootHash node placeholder f numLeaves = computeRootHash node placeholder f' numLeaves) : f = f' := by
  have hlen : f.length = f'.length := hf.trans hf'.symm
  match f, f', hlen, h with
  | [], [], _, _ => rfl
  | [a], [a'], _, h => simpa [computeRootHash] using h
  | a :: b :: rest, a' :: b' :: rest', hlen, h =>
    -- two or more subtrees: the loop reads all of them, one per one bit
    simp only [computeRootHash] at h
    have hcount : ((numLeaves >>> numLeaves.trailingZeros).bits.count true) = (a :: b :: rest).length := by
      rw [← Nat.countOnes, Nat.countOnes_shiftRight_trailingZeros, hf]
    obtain ⟨-, htake⟩ := rootLoop_inj hnode _ _ _ _ _ (by simpa using hlen) h
    rw [hcount] at htake
    have hrev : (a :: b :: rest).reverse = (a' :: b' :: rest').reverse := by
      rwa [List.take_of_length_le (by simp), List.take_of_length_le (by simp [hlen])] at htake
    exact List.reverse_injective hrev

/-- Two well-formed accumulators with the same count and root hash are equal. -/
theorem eq_of_wellFormed {acc acc' : InMemoryAccumulator} (h : WellFormed node placeholder acc)
    (h' : WellFormed node placeholder acc') (hn : acc.numLeaves = acc'.numLeaves)
    (hroot : acc.rootHash = acc'.rootHash) : acc = acc' := by
  obtain ⟨f, n, r⟩ := acc
  obtain ⟨f', n', r'⟩ := acc'
  obtain ⟨hf, hr⟩ := h
  obtain ⟨hf', hr'⟩ := h'
  simp only at hn hroot hf hf' hr hr'
  subst hn hroot
  have hff : f = f' := computeRootHash_inj hnode hf hf' (hr.symm.trans hr')
  rw [hff]

end Injective

/-! ### Appending leaves -/

theorem mergeLast_length : ∀ (k : ℕ) (roots : List HashValue), k < roots.length →
    (mergeLast node k roots).length = roots.length - k := by
  intro k
  induction k with
  | zero => intro roots _; rfl
  | succ k ih =>
    intro roots hk
    match roots, hk with
    | rightHash :: leftHash :: roots, hk =>
      rw [mergeLast, ih _ (by simp at hk ⊢; omega)]
      simp

/-- Appending a leaf keeps one frozen subtree per one bit of the count. -/
theorem appendOne_length {frozenSubtreeRoots : List HashValue} {numExistingLeaves : ℕ} (leaf : HashValue)
    (h : frozenSubtreeRoots.length = numExistingLeaves.countOnes) :
    (appendOne node frozenSubtreeRoots numExistingLeaves leaf).length = (numExistingLeaves + 1).countOnes := by
  have hcarry := Nat.countOnes_succ_add_trailingOnes numExistingLeaves
  have hle := Nat.trailingOnes_le_countOnes numExistingLeaves
  unfold appendOne
  rw [List.length_reverse, mergeLast_length _ _ (by simp; omega)]
  simp
  omega

theorem appendLeaves_spec : ∀ (leaves frozenSubtreeRoots : List HashValue) (numLeaves : ℕ),
    frozenSubtreeRoots.length = numLeaves.countOnes →
      (appendLeaves node frozenSubtreeRoots numLeaves leaves).2 = numLeaves + leaves.length ∧
      (appendLeaves node frozenSubtreeRoots numLeaves leaves).1.length = (numLeaves + leaves.length).countOnes := by
  intro leaves
  induction leaves with
  | nil => intro f n h; exact ⟨rfl, h⟩
  | cons leaf leaves ih =>
    intro f n h
    obtain ⟨h1, h2⟩ := ih _ _ (appendOne_length leaf h)
    simp only [appendLeaves, List.length_cons]
    rw [h1, h2]
    exact ⟨by omega, by rw [Nat.add_assoc, Nat.add_comm 1]⟩

/-- **`append` never fails** on a well-formed accumulator: its `expect` holds. -/
theorem append_eq_ok {acc : InMemoryAccumulator} (hacc : acc.frozenSubtreeRoots.length = acc.numLeaves.countOnes)
    (leaves : List HashValue) :
    ∃ acc', append node placeholder acc leaves = .ok acc' ∧ WellFormed node placeholder acc' ∧
      acc'.numLeaves = acc.numLeaves + leaves.length := by
  obtain ⟨h1, h2⟩ := @appendLeaves_spec node leaves _ _ hacc
  unfold append
  generalize appendLeaves node acc.frozenSubtreeRoots acc.numLeaves leaves = res at h1 h2
  obtain ⟨frozenSubtreeRoots, numLeaves⟩ := res
  simp only at h1 h2
  rw [← h1] at h2
  exact ⟨_, new_eq_ok.2 ⟨h2, rfl⟩, ⟨h2, rfl⟩, h1⟩

theorem fromLeaves_eq_ok (leaves : List HashValue) :
    ∃ acc, fromLeaves node placeholder leaves = .ok acc ∧ WellFormed node placeholder acc ∧
      acc.numLeaves = leaves.length := by
  obtain ⟨acc, h, hwf, hn⟩ := @append_eq_ok node placeholder (default placeholder) rfl leaves
  exact ⟨acc, h, hwf, by simpa [default] using hn⟩

/-- The accumulator of a single leaf is that leaf. -/
theorem fromLeaves_singleton (leaf : HashValue) : fromLeaves node placeholder [leaf] = .ok ⟨[leaf], 1, leaf⟩ := by
  simp [fromLeaves, append, default, appendLeaves, appendOne, mergeLast, new, Nat.countOnes, Nat.one_bits,
    computeRootHash]

/-- Appending subtrees ends in `new`: a result is well formed. -/
theorem wellFormed_of_appendSubtrees {acc acc' : InMemoryAccumulator} {subtrees : List HashValue} {n : ℕ}
    (h : appendSubtrees node placeholder acc subtrees n = .ok acc') : WellFormed node placeholder acc' := by
  unfold appendSubtrees at h
  split at h
  · cases h
  · split at h
    · exact wellFormed_of_new h
    · obtain ⟨x, -, hx⟩ := Except.bind_eq_ok.1 h
      exact wellFormed_of_new hx

end InMemoryAccumulator

/-- `AccumulatorConsistencyProof`: the roots of the subtrees the new leaves form. -/
structure AccumulatorConsistencyProof where
  /-- `subtrees`. -/
  subtrees : List HashValue
  deriving DecidableEq

/-- `TransactionAccumulatorSummary`: a light client's view of the transaction
accumulator. -/
structure TransactionAccumulatorSummary where
  /-- The summarized accumulator. -/
  accumulator : InMemoryAccumulator
  deriving DecidableEq

namespace TransactionAccumulatorSummary

variable (node : HashValue → HashValue → HashValue) (placeholder : HashValue)

/-- `TransactionAccumulatorSummary::new`. -/
def new (accumulator : InMemoryAccumulator) : Except String TransactionAccumulatorSummary :=
  if accumulator.isEmpty then .error "empty accumulator: we can't verify consistency proofs from an empty accumulator"
  else .ok ⟨accumulator⟩

/-- `version`. -/
def version (s : TransactionAccumulatorSummary) : ℕ := s.accumulator.version

/-- `root_hash`. -/
def rootHash (s : TransactionAccumulatorSummary) : HashValue := s.accumulator.rootHash

/-- `verify_consistency`: the ledger info is at the summary's version and root hash. -/
def verifyConsistency (s : TransactionAccumulatorSummary) (ledgerInfo : LedgerInfo) : Except String Unit :=
  if ledgerInfo.version ≠ s.version then .error "ledger info and accumulator must be at the same version"
  else if ledgerInfo.transactionAccumulatorHash ≠ s.rootHash then
    .error "ledger info root hash and accumulator root hash must match"
  else .ok ()

/-- `try_extend_with_proof`. -/
def tryExtendWithProof (s : TransactionAccumulatorSummary) (consistencyProof : AccumulatorConsistencyProof)
    (targetLi : LedgerInfo) : Except String TransactionAccumulatorSummary :=
  if targetLi.version < s.accumulator.version then
    .error "target ledger info version must be newer than our current accumulator summary version"
  else do
    let numNewTxns := targetLi.version - s.accumulator.version
    let newAccumulator : TransactionAccumulatorSummary :=
      ⟨← s.accumulator.appendSubtrees node placeholder consistencyProof.subtrees numNewTxns⟩
    match newAccumulator.verifyConsistency targetLi with
    | .ok () => pure newAccumulator
    | .error _ => throw "accumulator is not consistent with the target ledger info after applying consistency proof"

variable {node placeholder}

theorem verifyConsistency_eq_ok {s : TransactionAccumulatorSummary} {ledgerInfo : LedgerInfo} :
    s.verifyConsistency ledgerInfo = .ok () ↔
      ledgerInfo.version = s.version ∧ ledgerInfo.transactionAccumulatorHash = s.rootHash := by
  unfold verifyConsistency
  split_ifs with hv hr <;> simp_all

/-- What a successful extension guarantees: the new summary is well formed,
at the target's version and root hash, and the target is not older. -/
theorem tryExtendWithProof_eq_ok {s s' : TransactionAccumulatorSummary} {proof : AccumulatorConsistencyProof}
    {targetLi : LedgerInfo} (h : s.tryExtendWithProof node placeholder proof targetLi = .ok s') :
    InMemoryAccumulator.WellFormed node placeholder s'.accumulator ∧ targetLi.version = s'.version ∧
      targetLi.transactionAccumulatorHash = s'.rootHash ∧ s.version ≤ targetLi.version := by
  unfold tryExtendWithProof at h
  split at h
  · cases h
  · rename_i hle
    obtain ⟨acc, hacc, h⟩ := Except.bind_eq_ok.1 h
    simp only at h
    split at h
    · rename_i hc
      cases h
      obtain ⟨hv, hr⟩ := verifyConsistency_eq_ok.1 hc
      exact ⟨InMemoryAccumulator.wellFormed_of_appendSubtrees hacc, hv, hr, Nat.le_of_not_lt hle⟩
    · cases h

end TransactionAccumulatorSummary

end Diem
