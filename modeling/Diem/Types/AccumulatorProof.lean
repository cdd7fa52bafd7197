import Mathlib.Data.Nat.Pairing
import Diem.Theory.MerkleTree
import Diem.Types.LedgerInfo

/-!
# Accumulator proofs

The proofs a client checks against the root hash of a Merkle accumulator, from
`types/src/proof/definition.rs` and `verify_transaction_info` of
`types/src/proof/mod.rs`. An `AccumulatorProof` climbs from one leaf with one
sibling per level; `TransactionInfoWithProof` and `EventProof` use it for a
transaction info at a version and for an event of a transaction. An
`AccumulatorRangeProof` rebuilds the root from a run of consecutive leaves and
the siblings left and right of it.

The hash of an internal node is a parameter `node`, one per accumulator. A
`Position` is kept as its index at its level: `from_leaf_index` is the in-order
index `2 * i` of a `u64`, so the index at level `0` is `i % 2 ^ 63`. The loop
of `AccumulatorRangeProof::verify` is `verifyLoop`, one level a round
(`reduceLevel`), which ends because each round makes the level or the siblings
shorter.

Against the root of a list of leaves, with `node` injective and leaves, nodes
and the placeholder kept apart, **`accumulatorProofs_sound`** says: an accepted
transaction info is the one at its version; an accepted event is the one at its
index, when that index is below the number of events; accepted range leaves are
those of the tree from the first index on, when they end inside it. No proof
bounds its index: a tree of one leaf accepts that leaf at every index, as an
event and as a range (`verify_singleLeaf_any_index`).
-/

namespace Diem

/-- `MAX_ACCUMULATOR_PROOF_DEPTH`. -/
def MAX_ACCUMULATOR_PROOF_DEPTH : ℕ := 63

variable (node : HashValue → HashValue → HashValue)

/-- `AccumulatorProof`: the siblings, from the bottom level up. -/
structure AccumulatorProof where
  /-- `siblings`. -/
  siblings : List HashValue

namespace AccumulatorProof

/-- `verify`. -/
def verify (proof : AccumulatorProof) (expectedRootHash elementHash : HashValue) (elementIndex : ℕ) :
    Except String Unit :=
  if proof.siblings.length > MAX_ACCUMULATOR_PROOF_DEPTH then
    .error ("Accumulator proof has more than " ++ Nat.repr MAX_ACCUMULATOR_PROOF_DEPTH ++ " (" ++
      Nat.repr proof.siblings.length ++ ") siblings.")
  else
    let actualRootHash := (proof.siblings.foldl (fun (hash, index) siblingHash =>
      (if index % 2 = 0 then node hash siblingHash else node siblingHash hash, index / 2))
      (elementHash, elementIndex)).1
    if actualRootHash ≠ expectedRootHash then .error "Root hashes do not match."
    else .ok ()

theorem verify_eq_ok {proof : AccumulatorProof} {expectedRootHash elementHash : HashValue} {elementIndex : ℕ} :
    proof.verify node expectedRootHash elementHash elementIndex = .ok () ↔
      proof.siblings.length ≤ MAX_ACCUMULATOR_PROOF_DEPTH ∧
        MerkleTree.pathRoot node proof.siblings elementHash elementIndex = expectedRootHash := by
  have hfold : (proof.siblings.foldl (fun (hash, index) siblingHash =>
      (if index % 2 = 0 then node hash siblingHash else node siblingHash hash, index / 2))
      (elementHash, elementIndex)).1 = MerkleTree.pathRoot node proof.siblings elementHash elementIndex := rfl
  unfold verify
  rw [hfold]
  by_cases hlen : proof.siblings.length > MAX_ACCUMULATOR_PROOF_DEPTH
  · rw [if_pos hlen]
    simp only [reduceCtorEq, false_iff, not_and]
    omega
  · rw [if_neg hlen]
    by_cases hroot : MerkleTree.pathRoot node proof.siblings elementHash elementIndex = expectedRootHash
    · rw [if_neg (not_not.mpr hroot)]
      exact ⟨fun _ => ⟨by omega, hroot⟩, fun _ => rfl⟩
    · rw [if_pos hroot]
      simp only [reduceCtorEq, false_iff, not_and]
      exact fun _ => hroot

variable {node} {placeholder : HashValue} {IsLeaf : HashValue → Prop}

/-- **An accepted element is the leaf at its index, modulo the tree's width.** -/
theorem leaf_of_verify (hsep : MerkleTree.Separated node placeholder IsLeaf) {leaves : List HashValue}
    (hleaves : ∀ x ∈ leaves, IsLeaf x) {proof : AccumulatorProof} {elementHash : HashValue}
    (helement : IsLeaf elementHash) {elementIndex : ℕ}
    (h : proof.verify node (MerkleTree.rootHash node placeholder leaves) elementHash elementIndex = .ok ()) :
    leaves[elementIndex % 2 ^ Nat.clog 2 leaves.length]? = some elementHash :=
  (MerkleTree.pathRoot_eq_rootHash hsep hleaves helement ((verify_eq_ok node).mp h).2).2

end AccumulatorProof

section TransactionInfo

variable {T : Type} (transactionInfoHash : T → HashValue)

/-- `verify_transaction_info`. -/
def verifyTransactionInfo (ledgerInfo : LedgerInfo) (transactionVersion : ℕ) (transactionInfo : T)
    (ledgerInfoToTransactionInfoProof : AccumulatorProof) : Except String Unit :=
  if transactionVersion > ledgerInfo.version then
    .error ("Transaction version " ++ Nat.repr transactionVersion ++ " is newer than LedgerInfo version " ++
      Nat.repr ledgerInfo.version ++ ".")
  else
    ledgerInfoToTransactionInfoProof.verify node ledgerInfo.transactionAccumulatorHash
      (transactionInfoHash transactionInfo) transactionVersion

/-- `TransactionInfoWithProof`. -/
structure TransactionInfoWithProof (T : Type) where
  /-- `ledger_info_to_transaction_info_proof`. -/
  ledgerInfoToTransactionInfoProof : AccumulatorProof
  /-- `transaction_info`. -/
  transactionInfo : T

/-- `TransactionInfoWithProof::verify`. -/
def TransactionInfoWithProof.verify (p : TransactionInfoWithProof T) (ledgerInfo : LedgerInfo)
    (transactionVersion : ℕ) : Except String Unit :=
  verifyTransactionInfo node transactionInfoHash ledgerInfo transactionVersion p.transactionInfo
    p.ledgerInfoToTransactionInfoProof

/-- `EventProof`. -/
structure EventProof (T : Type) where
  /-- `transaction_info_with_proof`. -/
  transactionInfoWithProof : TransactionInfoWithProof T
  /-- `transaction_info_to_event_proof`, against the event accumulator. -/
  transactionInfoToEventProof : AccumulatorProof

/-- `EventProof::verify`: `node` is the transaction accumulator's and
`eventNode` the event accumulator's. -/
def EventProof.verify (eventNode : HashValue → HashValue → HashValue) (eventRootHash : T → HashValue)
    (p : EventProof T) (ledgerInfo : LedgerInfo) (eventHash : HashValue)
    (transactionVersion eventVersionWithinTransaction : ℕ) : Except String Unit := do
  p.transactionInfoToEventProof.verify eventNode (eventRootHash p.transactionInfoWithProof.transactionInfo)
    eventHash eventVersionWithinTransaction
  p.transactionInfoWithProof.verify node transactionInfoHash ledgerInfo transactionVersion

variable {node} {placeholder : HashValue} {IsLeaf : HashValue → Prop}

/-- **An accepted transaction info is the one at its version**, the version
check bounding the index by the size of the accumulator. -/
theorem TransactionInfoWithProof.leaf_of_verify (hsep : MerkleTree.Separated node placeholder IsLeaf)
    {leaves : List HashValue} (hleaves : ∀ x ∈ leaves, IsLeaf x) {p : TransactionInfoWithProof T}
    (hinfo : IsLeaf (transactionInfoHash p.transactionInfo)) {ledgerInfo : LedgerInfo}
    (hroot : ledgerInfo.transactionAccumulatorHash = MerkleTree.rootHash node placeholder leaves)
    (hversion : ledgerInfo.version + 1 = leaves.length) {transactionVersion : ℕ}
    (h : p.verify node transactionInfoHash ledgerInfo transactionVersion = .ok ()) :
    leaves[transactionVersion]? = some (transactionInfoHash p.transactionInfo) := by
  unfold TransactionInfoWithProof.verify verifyTransactionInfo at h
  split at h
  · cases h
  · next hle =>
    rw [hroot] at h
    have hsound := AccumulatorProof.leaf_of_verify hsep hleaves hinfo h
    rwa [MerkleTree.mod_two_pow_clog_of_lt (by omega)] at hsound

/-- **An accepted event is the one at its index**, when the index is below
the number of events: `EventProof::verify` does not check that. -/
theorem EventProof.verify_sound_of_lt {eventNode : HashValue → HashValue → HashValue} {eventRootHash : T → HashValue}
    (hsep : MerkleTree.Separated eventNode placeholder IsLeaf) {events : List HashValue}
    (hevents : ∀ x ∈ events, IsLeaf x) {p : EventProof T}
    (hroot : eventRootHash p.transactionInfoWithProof.transactionInfo = MerkleTree.rootHash eventNode placeholder events)
    {ledgerInfo : LedgerInfo} {eventHash : HashValue} (hevent : IsLeaf eventHash)
    {transactionVersion eventVersionWithinTransaction : ℕ}
    (h : p.verify node transactionInfoHash eventNode eventRootHash ledgerInfo eventHash transactionVersion
      eventVersionWithinTransaction = .ok ())
    (hlt : eventVersionWithinTransaction < events.length) :
    events[eventVersionWithinTransaction]? = some eventHash := by
  unfold EventProof.verify at h
  obtain ⟨⟨⟩, hevent', -⟩ := Except.bind_eq_ok.mp h
  rw [hroot] at hevent'
  have hsound := AccumulatorProof.leaf_of_verify hsep hevents hevent hevent'
  rwa [MerkleTree.mod_two_pow_clog_of_lt hlt] at hsound

end TransactionInfo

/-- `AccumulatorRangeProof`. -/
structure AccumulatorRangeProof where
  /-- `left_siblings`, consumed from the first, one per level from the bottom. -/
  leftSiblings : List HashValue
  /-- `right_siblings`, likewise. -/
  rightSiblings : List HashValue

namespace AccumulatorRangeProof

/-- The first part of a round of the loop of `verify`: if the first position
of the level is a right child, its parent with a left sibling. Returns the left
siblings left, that parent, and the rest of the level. -/
def takeFirst (leftSiblings : List HashValue) (firstPos : ℕ) :
    List HashValue → Except String (List HashValue × List HashValue × List HashValue)
  | [] => .error "The first leaf must exist."
  | first :: rest =>
    if firstPos % 2 = 1 then
      match leftSiblings with
      | leftHash :: leftSiblings => .ok (leftSiblings, [node leftHash first], rest)
      | [] => .error "First child is a right child, but missing sibling on the left."
    else .ok (leftSiblings, [], first :: rest)

/-- The rest of a round: the parents of the `chunks_exact(2)` of the level,
and of the remainder, a left child, with a right sibling. -/
def chunkLevel (rightSiblings : List HashValue) :
    List HashValue → Except String (List HashValue × List HashValue)
  | leftHash :: rightHash :: rest => do
    let (rightSiblings, parentHashes) ← chunkLevel rightSiblings rest
    pure (rightSiblings, node leftHash rightHash :: parentHashes)
  | [leftHash] =>
    match rightSiblings with
    | rightHash :: rightSiblings => .ok (rightSiblings, [node leftHash rightHash])
    | [] => .error "Last child is a left child, but missing sibling on the right."
  | [] => .ok (rightSiblings, [])

/-- One round of the loop of `verify`: the siblings left and the parents of
the level whose first hash is at `firstPos`. -/
def reduceLevel (leftSiblings rightSiblings : List HashValue) (firstPos : ℕ) (currentHashes : List HashValue) :
    Except String (List HashValue × List HashValue × List HashValue) := do
  let (leftSiblings, firstParent, children) ← takeFirst node leftSiblings firstPos currentHashes
  let (rightSiblings, parentHashes) ← chunkLevel node rightSiblings children
  pure (leftSiblings, rightSiblings, firstParent ++ parentHashes)

/-- The termination measure of the loop: the level and, twice, the siblings. -/
def measure (leftSiblings rightSiblings currentHashes : List HashValue) : ℕ :=
  currentHashes.length + 2 * (leftSiblings.length + rightSiblings.length)

/-- What one round of `chunkLevel` leaves: each hash of the level is a child
of the parent at half its index, and the lengths. -/
theorem chunkLevel_spec : ∀ {rightSiblings children rightSiblings' parentHashes : List HashValue},
    chunkLevel node rightSiblings children = .ok (rightSiblings', parentHashes) →
      (∀ i (hi : i < children.length), ∃ sibling, parentHashes[i / 2]? =
        some (if i % 2 = 0 then node children[i] sibling else node sibling children[i])) ∧
      parentHashes.length * 2 = children.length + children.length % 2 ∧
      rightSiblings'.length + children.length % 2 = rightSiblings.length
  | rightSiblings, leftHash :: rightHash :: rest, rightSiblings', parentHashes, h => by
    simp only [chunkLevel, bind, Except.bind] at h
    rcases hrest : chunkLevel node rightSiblings rest with _ | ⟨rightSiblings'', parentHashes'⟩
    · rw [hrest] at h
      cases h
    · rw [hrest] at h
      cases h
      obtain ⟨hparents, hlen, hright⟩ := chunkLevel_spec hrest
      refine ⟨fun i hi => ?_, by simp only [List.length_cons]; omega, by simp only [List.length_cons]; omega⟩
      match i, hi with
      | 0, _ => exact ⟨rightHash, rfl⟩
      | 1, _ => exact ⟨leftHash, rfl⟩
      | i + 2, hi =>
        obtain ⟨sibling, hsibling⟩ := hparents i (by simp only [List.length_cons] at hi; omega)
        refine ⟨sibling, ?_⟩
        rw [show (i + 2) / 2 = i / 2 + 1 by omega, show (i + 2) % 2 = i % 2 by omega]
        exact hsibling
  | rightSiblings, [leftHash], rightSiblings', parentHashes, h => by
    simp only [chunkLevel] at h
    rcases rightSiblings with _ | ⟨rightHash, rest⟩
    · cases h
    · cases h
      refine ⟨fun i hi => ?_, rfl, rfl⟩
      match i, hi with
      | 0, _ => exact ⟨rightHash, rfl⟩
  | rightSiblings, [], rightSiblings', parentHashes, h => by
    simp only [chunkLevel, Except.ok.injEq, Prod.mk.injEq] at h
    obtain ⟨rfl, rfl⟩ := h
    exact ⟨fun i hi => absurd hi (Nat.not_lt_zero i), rfl, rfl⟩

/-- What `takeFirst` leaves. -/
theorem takeFirst_spec {leftSiblings : List HashValue} {firstPos : ℕ}
    {currentHashes leftSiblings' firstParent children : List HashValue}
    (h : takeFirst node leftSiblings firstPos currentHashes = .ok (leftSiblings', firstParent, children)) :
    (firstPos % 2 = 1 ∧ ∃ leftHash first, leftSiblings = leftHash :: leftSiblings' ∧
        currentHashes = first :: children ∧ firstParent = [node leftHash first]) ∨
      (firstPos % 2 = 0 ∧ currentHashes ≠ [] ∧ leftSiblings' = leftSiblings ∧ firstParent = [] ∧
        children = currentHashes) := by
  rcases currentHashes with _ | ⟨first, rest⟩
  · cases h
  simp only [takeFirst] at h
  split at h
  · next hodd =>
    rcases leftSiblings with _ | ⟨leftHash, leftSiblings⟩
    · cases h
    · cases h
      exact .inl ⟨hodd, leftHash, first, rfl, rfl, rfl⟩
  · next heven =>
    cases h
    exact .inr ⟨by omega, List.cons_ne_nil first rest, rfl, rfl, rfl⟩

theorem reduceLevel_eq_ok {leftSiblings rightSiblings : List HashValue} {firstPos : ℕ}
    {currentHashes leftSiblings' rightSiblings' parentHashes : List HashValue}
    (h : reduceLevel node leftSiblings rightSiblings firstPos currentHashes =
      .ok (leftSiblings', rightSiblings', parentHashes)) :
    ∃ firstParent children chunkParents,
      takeFirst node leftSiblings firstPos currentHashes = .ok (leftSiblings', firstParent, children) ∧
      chunkLevel node rightSiblings children = .ok (rightSiblings', chunkParents) ∧
      parentHashes = firstParent ++ chunkParents := by
  simp only [reduceLevel, bind, Except.bind] at h
  rcases hfirst : takeFirst node leftSiblings firstPos currentHashes with _ | ⟨leftSiblings'', firstParent, children⟩
  · rw [hfirst] at h
    cases h
  rw [hfirst] at h
  rcases hchunk : chunkLevel node rightSiblings children with _ | ⟨rightSiblings'', chunkParents⟩
  · simp only [hchunk] at h
    cases h
  simp only [hchunk, pure, Except.pure, Except.ok.injEq, Prod.mk.injEq] at h
  obtain ⟨rfl, rfl, rfl⟩ := h
  exact ⟨firstParent, children, chunkParents, rfl, hchunk, rfl⟩

theorem measure_reduceLevel {leftSiblings rightSiblings : List HashValue} {firstPos : ℕ}
    {currentHashes leftSiblings' rightSiblings' parentHashes : List HashValue}
    (h : reduceLevel node leftSiblings rightSiblings firstPos currentHashes =
      .ok (leftSiblings', rightSiblings', parentHashes)) :
    measure leftSiblings' rightSiblings' parentHashes < measure leftSiblings rightSiblings currentHashes := by
  obtain ⟨firstParent, children, chunkParents, hfirst, hchunk, rfl⟩ := reduceLevel_eq_ok node h
  obtain ⟨-, hlen, hright⟩ := chunkLevel_spec node hchunk
  unfold measure
  rcases takeFirst_spec node hfirst with ⟨-, leftHash, first, rfl, rfl, rfl⟩ | ⟨-, hne, rfl, rfl, rfl⟩
  · simp only [List.length_cons, List.length_append, List.length_nil] at hlen ⊢
    omega
  · have hpos := List.length_pos_of_ne_nil hne
    simp only [List.length_append, List.length_nil] at hlen ⊢
    omega

/-- **A round places each hash of the level under its parent**: the hash at
position `firstPos + i` is a child of the parent at position
`(firstPos + i) / 2`, on the side its parity says. -/
theorem reduceLevel_parent {leftSiblings rightSiblings : List HashValue} {firstPos : ℕ}
    {currentHashes leftSiblings' rightSiblings' parentHashes : List HashValue}
    (h : reduceLevel node leftSiblings rightSiblings firstPos currentHashes =
      .ok (leftSiblings', rightSiblings', parentHashes)) (i : ℕ) (hi : i < currentHashes.length) :
    ∃ sibling, parentHashes[(firstPos + i) / 2 - firstPos / 2]? =
      some (if (firstPos + i) % 2 = 0 then node currentHashes[i] sibling else node sibling currentHashes[i]) := by
  obtain ⟨firstParent, children, chunkParents, hfirst, hchunk, rfl⟩ := reduceLevel_eq_ok node h
  obtain ⟨hparents, -, -⟩ := chunkLevel_spec node hchunk
  rcases takeFirst_spec node hfirst with ⟨hodd, leftHash, first, rfl, rfl, rfl⟩ | ⟨heven, -, rfl, rfl, rfl⟩
  · -- a right child first: it sits under the first parent, the rest one parent later
    match i, hi with
    | 0, _ =>
      refine ⟨leftHash, ?_⟩
      rw [Nat.add_zero, Nat.sub_self, if_neg (by omega)]
      rfl
    | i + 1, hi =>
      obtain ⟨sibling, hsibling⟩ := hparents i (by simp only [List.length_cons] at hi; omega)
      refine ⟨sibling, ?_⟩
      rw [show (firstPos + (i + 1)) / 2 - firstPos / 2 = i / 2 + 1 by omega,
        show (firstPos + (i + 1)) % 2 = i % 2 by omega]
      exact hsibling
  · rw [show (firstPos + i) / 2 - firstPos / 2 = i / 2 by omega, show (firstPos + i) % 2 = i % 2 by omega]
    exact hparents i hi

/-- The `while` loop of `verify`: reduce the level until one hash is left and
no sibling is. -/
def verifyLoop (leftSiblings rightSiblings : List HashValue) (firstPos : ℕ) (currentHashes : List HashValue) :
    Except String (List HashValue) :=
  if 1 < currentHashes.length ∨ leftSiblings ≠ [] ∨ rightSiblings ≠ [] then
    match h : reduceLevel node leftSiblings rightSiblings firstPos currentHashes with
    | .ok (leftSiblings', rightSiblings', parentHashes) =>
      verifyLoop leftSiblings' rightSiblings' (firstPos / 2) parentHashes
    | .error err => .error err
  else .ok currentHashes
termination_by measure leftSiblings rightSiblings currentHashes
decreasing_by exact measure_reduceLevel node h

/-- `verify`. -/
def verify (proof : AccumulatorRangeProof) (expectedRootHash : HashValue) (firstLeafIndex : Option ℕ)
    (leafHashes : List HashValue) : Except String Unit :=
  match firstLeafIndex with
  | none =>
    if leafHashes ≠ [] then .error "first_leaf_index indicated empty list while leaf_hashes is not empty."
    else if proof.leftSiblings ≠ [] ∨ proof.rightSiblings ≠ [] then .error "No siblings are needed."
    else .ok ()
  | some firstLeafIndex =>
    if proof.leftSiblings.length > MAX_ACCUMULATOR_PROOF_DEPTH then
      .error ("Proof has more than " ++ Nat.repr MAX_ACCUMULATOR_PROOF_DEPTH ++ " (" ++
        Nat.repr proof.leftSiblings.length ++ ") left siblings.")
    else if proof.rightSiblings.length > MAX_ACCUMULATOR_PROOF_DEPTH then
      .error ("Proof has more than " ++ Nat.repr MAX_ACCUMULATOR_PROOF_DEPTH ++ " (" ++
        Nat.repr proof.rightSiblings.length ++ ") right siblings.")
    else if leafHashes = [] then .error "leaf_hashes is empty while first_leaf_index indicated non-empty list."
    else
      match verifyLoop node proof.leftSiblings proof.rightSiblings (firstLeafIndex % 2 ^ 63) leafHashes with
      | .error err => .error err
      | .ok (actualRootHash :: _) =>
        if actualRootHash ≠ expectedRootHash then .error "Root hashes do not match." else .ok ()
      -- `current_hashes[0]` out of bounds; the loop never ends with an empty level
      | .ok [] => .error "index out of bounds"

theorem ne_nil_of_reduceLevel {leftSiblings rightSiblings : List HashValue} {firstPos : ℕ}
    {currentHashes leftSiblings' rightSiblings' parentHashes : List HashValue}
    (h : reduceLevel node leftSiblings rightSiblings firstPos currentHashes =
      .ok (leftSiblings', rightSiblings', parentHashes)) : currentHashes ≠ [] := by
  rintro rfl
  cases h

/-! ### No panic, and the loop's measure

A level that is not empty has a parent, so the loop never meets an empty
level: the `expect` on its first hash and `current_hashes[0]` after the loop
never fail. The only errors of a round are the two missing siblings, and each
round shortens the level and the siblings together, counted once each. -/

/-- The errors of a round of the loop: a sibling the level needs is missing. -/
def IsMissingSibling (e : String) : Prop :=
  e = "First child is a right child, but missing sibling on the left." ∨
    e = "Last child is a left child, but missing sibling on the right."

theorem chunkLevel_error : ∀ {rightSiblings children : List HashValue} {e : String},
    chunkLevel node rightSiblings children = .error e →
      e = "Last child is a left child, but missing sibling on the right."
  | rightSiblings, leftHash :: rightHash :: rest, e, h => by
    simp only [chunkLevel] at h
    rcases Except.bind_eq_error.1 h with hrest | ⟨⟨rightSiblings', parentHashes⟩, -, hpure⟩
    · exact chunkLevel_error hrest
    · cases hpure
  | rightSiblings, [leftHash], e, h => by
    simp only [chunkLevel] at h
    rcases rightSiblings with _ | ⟨rightHash, rest⟩
    · cases h
      rfl
    · cases h
  | rightSiblings, [], e, h => by cases h

theorem takeFirst_error {leftSiblings : List HashValue} {firstPos : ℕ} {currentHashes : List HashValue} {e : String}
    (hne : currentHashes ≠ []) (h : takeFirst node leftSiblings firstPos currentHashes = .error e) :
    e = "First child is a right child, but missing sibling on the left." := by
  obtain ⟨first, rest, rfl⟩ := List.exists_cons_of_ne_nil hne
  simp only [takeFirst] at h
  split at h
  · rcases leftSiblings with _ | ⟨leftHash, leftSiblings⟩
    · cases h
      rfl
    · cases h
  · cases h

/-- **A round from a level that is not empty fails only for a missing sibling.** -/
theorem reduceLevel_error {leftSiblings rightSiblings : List HashValue} {firstPos : ℕ}
    {currentHashes : List HashValue} {e : String} (hne : currentHashes ≠ [])
    (h : reduceLevel node leftSiblings rightSiblings firstPos currentHashes = .error e) : IsMissingSibling e := by
  simp only [reduceLevel] at h
  rcases Except.bind_eq_error.1 h with hfirst | ⟨⟨leftSiblings', firstParent, children⟩, -, hrest⟩
  · exact .inl (takeFirst_error node hne hfirst)
  · rcases Except.bind_eq_error.1 hrest with hchunk | ⟨⟨rightSiblings', parentHashes⟩, -, hpure⟩
    · exact .inr (chunkLevel_error node hchunk)
    · cases hpure

/-- **A round keeps the level non-empty and shortens it with the siblings**:
the length of the level plus the number of siblings left on each side goes
down. -/
theorem reduceLevel_ok {leftSiblings rightSiblings : List HashValue} {firstPos : ℕ}
    {currentHashes leftSiblings' rightSiblings' parentHashes : List HashValue}
    (h : reduceLevel node leftSiblings rightSiblings firstPos currentHashes =
      .ok (leftSiblings', rightSiblings', parentHashes)) :
    parentHashes ≠ [] ∧ parentHashes.length + leftSiblings'.length + rightSiblings'.length <
      currentHashes.length + leftSiblings.length + rightSiblings.length := by
  obtain ⟨firstParent, children, chunkParents, hfirst, hchunk, rfl⟩ := reduceLevel_eq_ok node h
  obtain ⟨-, hlen, hright⟩ := chunkLevel_spec node hchunk
  rcases takeFirst_spec node hfirst with ⟨-, leftHash, first, rfl, rfl, rfl⟩ | ⟨-, hne, rfl, rfl, rfl⟩
  · -- a right child first: its parent heads the next level
    simp only [List.length_cons, List.length_append, List.length_nil] at hlen ⊢
    exact ⟨List.cons_ne_nil _ _, by omega⟩
  · -- the level pairs up from its first hash: at least one parent
    have hpos := List.length_pos_of_ne_nil hne
    simp only [List.nil_append] at hlen ⊢
    exact ⟨List.ne_nil_of_length_pos (by omega), by omega⟩

/-- **The loop from a level that is not empty** ends with a level that is not
empty, or fails for a missing sibling. -/
theorem verifyLoop_noPanic {leftSiblings rightSiblings : List HashValue} {firstPos : ℕ}
    {currentHashes : List HashValue} (hne : currentHashes ≠ []) :
    (∀ result, verifyLoop node leftSiblings rightSiblings firstPos currentHashes = .ok result → result ≠ []) ∧
      ∀ e, verifyLoop node leftSiblings rightSiblings firstPos currentHashes = .error e → IsMissingSibling e := by
  fun_induction verifyLoop node leftSiblings rightSiblings firstPos currentHashes with
  | case1 leftSiblings rightSiblings firstPos currentHashes hcond leftSiblings' rightSiblings' parentHashes hlevel ih =>
    exact ih (reduceLevel_ok node hlevel).1
  | case2 leftSiblings rightSiblings firstPos currentHashes hcond err hlevel =>
    constructor
    · intro result h
      cases h
    · intro e h
      cases h
      exact reduceLevel_error node hne hlevel
  | case3 leftSiblings rightSiblings firstPos currentHashes hcond =>
    constructor
    · intro result h
      cases h
      exact hne
    · intro e h
      cases h

/-- **`verify` never panics** on a range of leaves that is not empty, with at
most `MAX_ACCUMULATOR_PROOF_DEPTH` siblings on each side: each round from a
level that is not empty fails for a missing sibling or shortens the level and
the siblings, the loop ends on a level that is not empty, and `verify`
accepts or fails with one of its own errors. -/
theorem verify_never_panics (proof : AccumulatorRangeProof) (expectedRootHash : HashValue) (firstLeafIndex : ℕ)
    (leafHashes : List HashValue) (hleft : proof.leftSiblings.length ≤ MAX_ACCUMULATOR_PROOF_DEPTH)
    (hright : proof.rightSiblings.length ≤ MAX_ACCUMULATOR_PROOF_DEPTH) (hne : leafHashes ≠ []) :
    (∀ (leftSiblings rightSiblings : List HashValue) (firstPos : ℕ) (currentHashes : List HashValue),
      currentHashes ≠ [] →
        (∀ leftSiblings' rightSiblings' parentHashes,
          reduceLevel node leftSiblings rightSiblings firstPos currentHashes =
            .ok (leftSiblings', rightSiblings', parentHashes) →
          parentHashes ≠ [] ∧ parentHashes.length + leftSiblings'.length + rightSiblings'.length <
            currentHashes.length + leftSiblings.length + rightSiblings.length) ∧
        ∀ e, reduceLevel node leftSiblings rightSiblings firstPos currentHashes = .error e → IsMissingSibling e) ∧
    (∀ result, verifyLoop node proof.leftSiblings proof.rightSiblings (firstLeafIndex % 2 ^ 63) leafHashes =
      .ok result → result ≠ []) ∧
    (proof.verify node expectedRootHash (some firstLeafIndex) leafHashes = .ok () ∨
      ∃ e, proof.verify node expectedRootHash (some firstLeafIndex) leafHashes = .error e ∧
        (IsMissingSibling e ∨ e = "Root hashes do not match.")) := by
  obtain ⟨hresult, herror⟩ :=
    @verifyLoop_noPanic node proof.leftSiblings proof.rightSiblings (firstLeafIndex % 2 ^ 63) leafHashes hne
  refine ⟨fun leftSiblings rightSiblings firstPos currentHashes hlevel =>
    ⟨fun _ _ _ h => reduceLevel_ok node h, fun _ h => reduceLevel_error node hlevel h⟩, hresult, ?_⟩
  -- past the three `ensure!`s the outcome is the loop's
  have hleft' : ¬ proof.leftSiblings.length > MAX_ACCUMULATOR_PROOF_DEPTH := by omega
  have hright' : ¬ proof.rightSiblings.length > MAX_ACCUMULATOR_PROOF_DEPTH := by omega
  simp only [verify, if_neg hleft', if_neg hright', if_neg hne]
  rcases hloop : verifyLoop node proof.leftSiblings proof.rightSiblings (firstLeafIndex % 2 ^ 63) leafHashes
    with e | result
  · exact .inr ⟨e, rfl, .inl (herror e hloop)⟩
  · rcases result with _ | ⟨actualRootHash, rest⟩
    · exact absurd rfl (hresult [] hloop)
    · by_cases hroot : actualRootHash = expectedRootHash
      · exact .inl (if_neg (not_not.2 hroot))
      · exact .inr ⟨_, if_pos hroot, .inr rfl⟩

/-- Two leaves of a four-leaf tree from index `1`, hashed by sums: the first
level starts at a right child, so its round takes a sibling on each side and
keeps two parents; the loop runs twice. -/
theorem verify_never_panics_twoInnerLeaves :
    ([⟨1⟩] : List HashValue).length ≤ MAX_ACCUMULATOR_PROOF_DEPTH ∧
    ([⟨4⟩] : List HashValue).length ≤ MAX_ACCUMULATOR_PROOF_DEPTH ∧ ([⟨2⟩, ⟨3⟩] : List HashValue) ≠ [] ∧
    reduceLevel (fun a b => ⟨a.val + b.val⟩) [⟨1⟩] [⟨4⟩] 1 [⟨2⟩, ⟨3⟩] = .ok ([], [], [⟨3⟩, ⟨7⟩]) ∧
    (([⟨3⟩, ⟨7⟩] : List HashValue) ≠ [] ∧
      ([⟨3⟩, ⟨7⟩] : List HashValue).length + ([] : List HashValue).length + ([] : List HashValue).length <
        ([⟨2⟩, ⟨3⟩] : List HashValue).length + ([⟨1⟩] : List HashValue).length +
          ([⟨4⟩] : List HashValue).length) ∧
    (⟨[⟨1⟩], [⟨4⟩]⟩ : AccumulatorRangeProof).verify (fun a b => ⟨a.val + b.val⟩) ⟨10⟩ (some 1) [⟨2⟩, ⟨3⟩] =
      .ok () := by
  obtain ⟨hround, -, -⟩ := verify_never_panics (fun a b => ⟨a.val + b.val⟩) ⟨[⟨1⟩], [⟨4⟩]⟩ ⟨10⟩ 1 [⟨2⟩, ⟨3⟩]
    (by decide) (by decide) (by decide)
  have hfirst : reduceLevel (fun a b => ⟨a.val + b.val⟩) [⟨1⟩] [⟨4⟩] 1 [⟨2⟩, ⟨3⟩] = .ok ([], [], [⟨3⟩, ⟨7⟩]) := by
    decide +kernel
  refine ⟨by decide, by decide, by decide, hfirst, (hround [⟨1⟩] [⟨4⟩] 1 [⟨2⟩, ⟨3⟩] (by decide)).1 _ _ _ hfirst, ?_⟩
  decide +kernel

section Sound

variable {node} {placeholder : HashValue} {IsLeaf : HashValue → Prop}
  (hsep : MerkleTree.Separated node placeholder IsLeaf) {leaves : List HashValue}
  (hleaves : ∀ x ∈ leaves, IsLeaf x)
include hsep hleaves

/-- **The loop is sound against every subtree.** If the loop ends with the
hash of the subtree of height `k` at index `j`, some `t` rounds ran, and each
hash of the level it started from is the subtree `t` levels below, at the
index the low bits of its position select. -/
theorem verifyLoop_sound {leftSiblings rightSiblings : List HashValue} {firstPos : ℕ}
    {currentHashes result : List HashValue}
    (h : verifyLoop node leftSiblings rightSiblings firstPos currentHashes = .ok result)
    {x : HashValue} {rest : List HashValue} (hresult : result = x :: rest) {k j : ℕ}
    (hx : x = MerkleTree.subtreeHash node placeholder leaves k j) :
    ∃ t ≤ k, ∀ i (hi : i < currentHashes.length),
      currentHashes[i] = MerkleTree.subtreeHash node placeholder leaves (k - t) (j * 2 ^ t + (firstPos + i) % 2 ^ t) := by
  subst hresult
  fun_induction verifyLoop node leftSiblings rightSiblings firstPos currentHashes with
  | case1 leftSiblings rightSiblings firstPos currentHashes hcond leftSiblings' rightSiblings' parentHashes hlevel ih =>
    -- each hash of the level sits under a parent that the rounds above place
    obtain ⟨t, htk, hparents⟩ := ih h
    have hparent : ∀ i (hi : i < currentHashes.length), 1 ≤ k - t ∧ currentHashes[i] =
        MerkleTree.subtreeHash node placeholder leaves (k - (t + 1)) (j * 2 ^ (t + 1) + (firstPos + i) % 2 ^ (t + 1)) := by
      intro i hi
      obtain ⟨sibling, hsibling⟩ := reduceLevel_parent node hlevel i hi
      obtain ⟨hi', hget⟩ := List.getElem?_eq_some_iff.mp hsibling
      have hat := hparents _ hi'
      rw [hget, show firstPos / 2 + ((firstPos + i) / 2 - firstPos / 2) = (firstPos + i) / 2 by omega] at hat
      obtain ⟨hk, heq⟩ := MerkleTree.eq_child_of_node_eq hsep hleaves (firstPos + i) hat
      rw [heq, Nat.sub_sub, MerkleTree.two_mul_add_mod]
      exact ⟨hk, rfl⟩
    have hpos : 0 < currentHashes.length := List.length_pos_of_ne_nil (ne_nil_of_reduceLevel node hlevel)
    exact ⟨t + 1, by have := (hparent 0 hpos).1; omega, fun i hi => (hparent i hi).2⟩
  | case2 leftSiblings rightSiblings firstPos currentHashes hcond err hlevel => cases h
  | case3 leftSiblings rightSiblings firstPos currentHashes hcond =>
    -- the loop ended on its first test: one hash, the result itself
    cases h
    have hrest : rest.length = 0 := by
      simp only [List.length_cons, not_or, not_lt] at hcond
      omega
    refine ⟨0, Nat.zero_le k, fun i hi => ?_⟩
    match i, hi with
    | 0, _ =>
      simp only [Nat.sub_zero, Nat.pow_zero, Nat.mul_one, Nat.mod_one, Nat.add_zero]
      exact hx
    | i + 1, hi =>
      simp only [List.length_cons] at hi
      omega

/-- **Accepted leaves are the tree's from the first index on**, each at its
position modulo the tree's width. -/
theorem leaves_of_verify {proof : AccumulatorRangeProof} {firstLeafIndex : ℕ} {leafHashes : List HashValue}
    (hleafHashes : ∀ x ∈ leafHashes, IsLeaf x)
    (h : proof.verify node (MerkleTree.rootHash node placeholder leaves) (some firstLeafIndex) leafHashes = .ok ()) :
    ∀ i (hi : i < leafHashes.length),
      leaves[(firstLeafIndex % 2 ^ 63 + i) % 2 ^ Nat.clog 2 leaves.length]? = some leafHashes[i] := by
  simp only [verify] at h
  split at h
  · cases h
  split at h
  · cases h
  split at h
  · cases h
  split at h
  · cases h
  · next result actualRootHash rest hloop =>
    split at h
    · cases h
    · next hroot =>
      intro i hi
      obtain ⟨t, htk, hhashes⟩ := verifyLoop_sound hsep hleaves hloop rfl (of_not_not hroot)
      have hleaf := hhashes i hi
      obtain ⟨hzero, hget⟩ := MerkleTree.leaf_eq hsep (hleafHashes _ (List.getElem_mem hi)) hleaf
      rwa [Nat.zero_mul, Nat.zero_add, show t = Nat.clog 2 leaves.length by omega] at hget
  · cases h

/-- With the leaves ending inside the tree, they are exactly the tree's from
the first index on. -/
theorem verify_sound_of_le {proof : AccumulatorRangeProof} {firstLeafIndex : ℕ} {leafHashes : List HashValue}
    (hleafHashes : ∀ x ∈ leafHashes, IsLeaf x)
    (h : proof.verify node (MerkleTree.rootHash node placeholder leaves) (some firstLeafIndex) leafHashes = .ok ())
    (hle : firstLeafIndex + leafHashes.length ≤ leaves.length) (hmax : leaves.length ≤ 2 ^ 63) :
    leafHashes = (leaves.drop firstLeafIndex).take leafHashes.length := by
  have hsound := leaves_of_verify hsep hleaves hleafHashes h
  apply List.ext_getElem?
  intro i
  by_cases hi : i < leafHashes.length
  · have hget := hsound i hi
    rw [Nat.mod_eq_of_lt (show firstLeafIndex < 2 ^ 63 by omega),
      MerkleTree.mod_two_pow_clog_of_lt (show firstLeafIndex + i < leaves.length by omega)] at hget
    rw [List.getElem?_take_of_lt hi, List.getElem?_drop, hget, List.getElem?_eq_getElem hi]
  · rw [List.getElem?_eq_none (by omega), List.getElem?_take, if_neg hi]

end Sound

end AccumulatorRangeProof

/-- **A tree of one leaf accepts its leaf at every index**: the one-event
accumulator of a transaction accepts its event at every index in
`EventProof::verify`, and a one-leaf accumulator accepts its leaf as a range
from every first index. -/
theorem verify_singleLeaf_any_index {T : Type} (node eventNode : HashValue → HashValue → HashValue)
    (placeholder : HashValue) (transactionInfoHash eventRootHash : T → HashValue) (transactionInfo : T) :
    MerkleTree.rootHash eventNode placeholder [eventRootHash transactionInfo] = eventRootHash transactionInfo ∧
    (∀ eventVersionWithinTransaction : ℕ,
      EventProof.verify node transactionInfoHash eventNode eventRootHash ⟨⟨⟨[]⟩, transactionInfo⟩, ⟨[]⟩⟩
        ⟨{ BlockInfo.empty with
            executedStateId := MerkleTree.rootHash node placeholder [transactionInfoHash transactionInfo] },
          HashValue.zero⟩
        (eventRootHash transactionInfo) 0 eventVersionWithinTransaction = .ok ()) ∧
    ∀ (leaf : HashValue) (firstLeafIndex : ℕ),
      AccumulatorRangeProof.verify node ⟨[], []⟩ (MerkleTree.rootHash node placeholder [leaf]) (some firstLeafIndex)
        [leaf] = .ok () := by
  refine ⟨MerkleTree.rootHash_singleton eventNode placeholder _, fun j => ?_, fun leaf firstLeafIndex => ?_⟩
  · simp [EventProof.verify, AccumulatorProof.verify, TransactionInfoWithProof.verify, verifyTransactionInfo,
      LedgerInfo.version, LedgerInfo.transactionAccumulatorHash, BlockInfo.empty, MerkleTree.rootHash_singleton]
  · rw [MerkleTree.rootHash_singleton]
    simp [AccumulatorRangeProof.verify, AccumulatorRangeProof.verifyLoop, MAX_ACCUMULATOR_PROOF_DEPTH]

/-- **Accumulator proofs are sound inside the tree**: a transaction info
accepted at a version is the one there; an event accepted at an index below
the number of events is the one there; a range of leaves accepted from a
first index, and ending inside the tree, is the tree's range there. -/
theorem accumulatorProofs_sound {T : Type} {node eventNode : HashValue → HashValue → HashValue}
    {placeholder : HashValue} {transactionInfoHash eventRootHash : T → HashValue} {IsLeaf IsEventLeaf : HashValue → Prop}
    (hsep : MerkleTree.Separated node placeholder IsLeaf)
    (hsepEvent : MerkleTree.Separated eventNode placeholder IsEventLeaf)
    (hinfo : ∀ transactionInfo, IsLeaf (transactionInfoHash transactionInfo)) :
    (∀ (leaves : List HashValue) (ledgerInfo : LedgerInfo) (p : TransactionInfoWithProof T) (transactionVersion : ℕ),
      (∀ x ∈ leaves, IsLeaf x) →
      ledgerInfo.transactionAccumulatorHash = MerkleTree.rootHash node placeholder leaves →
      ledgerInfo.version + 1 = leaves.length →
      p.verify node transactionInfoHash ledgerInfo transactionVersion = .ok () →
      leaves[transactionVersion]? = some (transactionInfoHash p.transactionInfo)) ∧
    (∀ (events : List HashValue) (p : EventProof T) (ledgerInfo : LedgerInfo) (eventHash : HashValue)
      (transactionVersion eventVersionWithinTransaction : ℕ),
      (∀ x ∈ events, IsEventLeaf x) → IsEventLeaf eventHash →
      eventRootHash p.transactionInfoWithProof.transactionInfo = MerkleTree.rootHash eventNode placeholder events →
      p.verify node transactionInfoHash eventNode eventRootHash ledgerInfo eventHash transactionVersion
        eventVersionWithinTransaction = .ok () →
      eventVersionWithinTransaction < events.length → events[eventVersionWithinTransaction]? = some eventHash) ∧
    (∀ (leaves : List HashValue) (proof : AccumulatorRangeProof) (firstLeafIndex : ℕ) (leafHashes : List HashValue),
      (∀ x ∈ leaves, IsLeaf x) → (∀ x ∈ leafHashes, IsLeaf x) → leaves.length ≤ 2 ^ 63 →
      proof.verify node (MerkleTree.rootHash node placeholder leaves) (some firstLeafIndex) leafHashes = .ok () →
      firstLeafIndex + leafHashes.length ≤ leaves.length →
      leafHashes = (leaves.drop firstLeafIndex).take leafHashes.length) := by
  refine ⟨fun leaves ledgerInfo p transactionVersion hleaves hroot hversion h => ?_,
    fun events p ledgerInfo eventHash transactionVersion eventVersionWithinTransaction hevents hevent hroot h hlt => ?_,
    fun leaves proof firstLeafIndex leafHashes hleaves hleafHashes hmax h hle => ?_⟩
  · exact TransactionInfoWithProof.leaf_of_verify transactionInfoHash hsep hleaves (hinfo _) hroot hversion h
  · exact EventProof.verify_sound_of_lt transactionInfoHash hsepEvent hevents hroot hevent h hlt
  · exact AccumulatorRangeProof.verify_sound_of_le hsep hleaves hleafHashes h hle hmax

/-- A hash model for tests: leaves are multiples of three, internal nodes one
more than a multiple of three, and the placeholder is `2`. -/
def exampleNode (left right : HashValue) : HashValue := ⟨3 * Nat.pair left.val right.val + 1⟩

theorem exampleNode_separated : MerkleTree.Separated exampleNode ⟨2⟩ (fun h => h.val % 3 = 0) where
  node_injective := by
    intro a b c d h
    simp only [exampleNode, HashValue.mk.injEq] at h
    obtain ⟨ha, hb⟩ := Nat.pair_eq_pair.mp (by omega : Nat.pair a.val b.val = Nat.pair c.val d.val)
    exact ⟨by cases a; cases c; simp_all, by cases b; cases d; simp_all⟩
  node_not_leaf := by
    intro a b
    simp only [exampleNode]
    omega
  node_ne_placeholder := by
    intro a b h
    simp only [exampleNode, HashValue.mk.injEq] at h
    omega
  placeholder_not_leaf := by decide

/-- With hashes that keep leaves, internal nodes and the placeholder apart, a
tree of one event accepts that event at index `5`, and a tree of one leaf
accepts that leaf as the range from index `5`: neither index is inside its
tree. -/
theorem verify_singleLeaf_indexFive :
    MerkleTree.Separated exampleNode ⟨2⟩ (fun h => h.val % 3 = 0) ∧
    MerkleTree.rootHash exampleNode ⟨2⟩ [(⟨3⟩ : HashValue)] = ⟨3⟩ ∧
    EventProof.verify exampleNode (fun t : ℕ => ⟨3 * t⟩) exampleNode (fun t => ⟨3 * t⟩) ⟨⟨⟨[]⟩, 1⟩, ⟨[]⟩⟩
        ⟨{ BlockInfo.empty with executedStateId := MerkleTree.rootHash exampleNode ⟨2⟩ [⟨3⟩] }, HashValue.zero⟩
        ⟨3⟩ 0 5 = .ok () ∧
    ¬ 5 < [(⟨3⟩ : HashValue)].length ∧
    AccumulatorRangeProof.verify exampleNode ⟨[], []⟩ (MerkleTree.rootHash exampleNode ⟨2⟩ [⟨3⟩]) (some 5)
        [⟨3⟩] = .ok () ∧
    [(⟨3⟩ : HashValue)] ≠ (([⟨3⟩] : List HashValue).drop 5).take 1 := by
  obtain ⟨hroot, hevent, hrange⟩ :=
    verify_singleLeaf_any_index exampleNode exampleNode ⟨2⟩ (fun t : ℕ => ⟨3 * t⟩) (fun t => ⟨3 * t⟩) 1
  exact ⟨exampleNode_separated, hroot, hevent 5, by decide, hrange ⟨3⟩ 5, by decide⟩

/-- The second of two transaction infos, proved by its sibling. -/
example :
    (⟨⟨[⟨0⟩]⟩, 1⟩ : TransactionInfoWithProof ℕ).verify exampleNode (fun t => ⟨3 * t⟩)
      ⟨{ BlockInfo.empty with executedStateId := MerkleTree.rootHash exampleNode ⟨2⟩ [⟨0⟩, ⟨3⟩], version := 1 },
        HashValue.zero⟩ 1 = .ok () ∧
    [(⟨0⟩ : HashValue), ⟨3⟩][1]? = some ⟨3 * 1⟩ :=
  have hverify : (⟨⟨[⟨0⟩]⟩, 1⟩ : TransactionInfoWithProof ℕ).verify exampleNode (fun t => ⟨3 * t⟩)
      ⟨{ BlockInfo.empty with executedStateId := MerkleTree.rootHash exampleNode ⟨2⟩ [⟨0⟩, ⟨3⟩], version := 1 },
        HashValue.zero⟩ 1 = .ok () := by decide
  ⟨hverify, (@accumulatorProofs_sound ℕ exampleNode exampleNode ⟨2⟩ (fun t => ⟨3 * t⟩) (fun _ => ⟨0⟩)
    (fun h => h.val % 3 = 0) (fun h => h.val % 3 = 0) exampleNode_separated exampleNode_separated
    (fun t => Nat.mul_mod_right 3 t)).1 [⟨0⟩, ⟨3⟩] _ _ 1 (by decide) rfl rfl hverify⟩

end Diem
