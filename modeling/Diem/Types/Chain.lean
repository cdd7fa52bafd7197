import Diem.Types.Accumulator

/-!
# The ledger history

What a client that verifies proofs is verifying against: one ledger history,
given by the leaves of its transaction accumulator (the hashes of its
transaction infos), the ledger infos its validators signed, and the validator
set of each epoch. A `Chain` carries the facts that hold of a real history as
its fields, so every chain the theorems speak of is one that could have been
produced.

A ledger info is *committed* by the chain when it agrees with a genuine one on
every field a waypoint hashes (`Ledger2WaypointConverter`): epoch, version,
accumulator root, timestamp and next validator set. That is what a waypoint
can pin, and all a light client reads of a ledger info.
-/

namespace Diem

/-- A ledger history, hashed with the accumulator hashes `node` and
`placeholder`. -/
structure Chain (node : HashValue → HashValue → HashValue) (placeholder : HashValue) where
  /-- The `i`-th leaf of the transaction accumulator. -/
  leaf : ℕ → HashValue
  /-- The signed ledger info at a version, if that version has one. -/
  ledgerInfo : ℕ → Option LedgerInfo
  /-- The validator set of each epoch. -/
  epochState : ℕ → EpochState
  version_of_ledgerInfo : ∀ {v li}, ledgerInfo v = some li → li.version = v
  epoch_epochState : ∀ e, (epochState e).epoch = e
  /-- A ledger info that ends an epoch carries the validators of the next. -/
  nextEpochState_of_ledgerInfo : ∀ {v li e}, ledgerInfo v = some li → li.nextEpochState = some e →
    e = epochState (li.epoch + 1)
  /-- Epochs do not go back as versions go forward. -/
  epoch_le_of_version_le : ∀ {v v' li li'}, ledgerInfo v = some li → ledgerInfo v' = some li' → v ≤ v' →
    li.epoch ≤ li'.epoch
  /-- A ledger info commits to the accumulator of the leaves up to its version. -/
  root_of_ledgerInfo : ∀ {v li acc}, ledgerInfo v = some li →
    InMemoryAccumulator.fromLeaves node placeholder ((List.range (v + 1)).map leaf) = .ok acc →
      li.transactionAccumulatorHash = acc.rootHash

namespace Chain

variable {node : HashValue → HashValue → HashValue} {placeholder : HashValue} (ch : Chain node placeholder)

/-- The leaves up to version `v`. -/
def leaves (v : ℕ) : List HashValue := (List.range (v + 1)).map ch.leaf

/-- The ledger info the chain signed at its version. -/
def Genuine (li : LedgerInfo) : Prop := ch.ledgerInfo li.version = some li

/-- A ledger info that agrees with a genuine one on what a waypoint hashes. -/
def Committed (li : LedgerInfo) : Prop :=
  ∃ g, ch.Genuine g ∧ Ledger2WaypointConverter.new g = Ledger2WaypointConverter.new li

/-- The summary of the chain's transaction accumulator at version `v`. -/
def GenuineSummary (v : ℕ) (s : TransactionAccumulatorSummary) : Prop :=
  InMemoryAccumulator.fromLeaves node placeholder (ch.leaves v) = .ok s.accumulator

variable {ch}

theorem Genuine.committed {li : LedgerInfo} (h : ch.Genuine li) : ch.Committed li := ⟨li, h, rfl⟩

/-- A committed ledger info agrees with its genuine one field by field. -/
theorem committed_iff {li : LedgerInfo} :
    ch.Committed li ↔ ∃ g, ch.Genuine g ∧ g.epoch = li.epoch ∧
      g.transactionAccumulatorHash = li.transactionAccumulatorHash ∧ g.version = li.version ∧
      g.timestampUsecs = li.timestampUsecs ∧ g.nextEpochState = li.nextEpochState := by
  simp [Committed, Ledger2WaypointConverter.new]

theorem Committed.nextEpochState_eq {li : LedgerInfo} {e : EpochState} (h : ch.Committed li)
    (he : li.nextEpochState = some e) : e = ch.epochState (li.epoch + 1) := by
  obtain ⟨g, hg, hepoch, -, -, -, hnext⟩ := committed_iff.1 h
  rw [← hepoch]
  exact ch.nextEpochState_of_ledgerInfo hg (hnext.trans he)

theorem Committed.epoch_le {li li' : LedgerInfo} (h : ch.Committed li) (h' : ch.Committed li')
    (hv : li.version ≤ li'.version) : li.epoch ≤ li'.epoch := by
  obtain ⟨g, hg, hepoch, -, hversion, -, -⟩ := committed_iff.1 h
  obtain ⟨g', hg', hepoch', -, hversion', -, -⟩ := committed_iff.1 h'
  rw [← hepoch, ← hepoch']
  apply ch.epoch_le_of_version_le hg hg'
  omega

/-- The next epoch a committed ledger info leads into is at most one later. -/
theorem Committed.nextBlockEpoch_le {li : LedgerInfo} (h : ch.Committed li) :
    li.nextBlockEpoch ≤ li.epoch + 1 := by
  unfold LedgerInfo.nextBlockEpoch BlockInfo.nextBlockEpoch
  cases he : li.commitInfo.nextEpochState with
  | none =>
    show li.epoch ≤ li.epoch + 1
    omega
  | some e =>
    have := h.nextEpochState_eq he
    simp [this, ch.epoch_epochState]

theorem genuineSummary_version {v : ℕ} {s : TransactionAccumulatorSummary} (h : ch.GenuineSummary v s) :
    s.version = v := by
  obtain ⟨acc, hacc, -, hn⟩ := @InMemoryAccumulator.fromLeaves_eq_ok node placeholder (ch.leaves v)
  rw [GenuineSummary, hacc, Except.ok.injEq] at h
  subst h
  simp [TransactionAccumulatorSummary.version, InMemoryAccumulator.version, hn, leaves]

/-- **An accumulator that matches a committed ledger info is the chain's**:
well formed, at the ledger info's version and with its root hash, it is the
chain's accumulator at that version, whatever it was built from. An empty
accumulator has the placeholder as its root, which no leaf is. -/
theorem genuineSummary_of_wellFormed (hnode : ∀ a b c d, node a b = node c d → a = c ∧ b = d)
    (hleaf : ∀ i, ch.leaf i ≠ placeholder) {li : LedgerInfo} {s : TransactionAccumulatorSummary}
    (hli : ch.Committed li) (hwf : InMemoryAccumulator.WellFormed node placeholder s.accumulator)
    (hversion : li.version = s.version) (hroot : li.transactionAccumulatorHash = s.rootHash) :
    ch.GenuineSummary li.version s := by
  obtain ⟨g, hg, -, hgroot, hgversion, -, -⟩ := committed_iff.1 hli
  obtain ⟨acc, hacc, hwfacc, hn⟩ := @InMemoryAccumulator.fromLeaves_eq_ok node placeholder (ch.leaves li.version)
  have hgenuine : g.transactionAccumulatorHash = acc.rootHash := by
    apply ch.root_of_ledgerInfo hg
    rw [hgversion]
    exact hacc
  have hsame : s.accumulator.rootHash = acc.rootHash := by
    rw [← hgenuine, hgroot, hroot]
    rfl
  by_cases hempty : s.accumulator.numLeaves = 0
  · have hv : li.version = 0 := by
      simp [hversion, TransactionAccumulatorSummary.version, InMemoryAccumulator.version, hempty]
    have hnil : s.accumulator.frozenSubtreeRoots = [] := by
      rw [← List.length_eq_zero_iff, hwf.1, hempty, Nat.countOnes_zero]
    have hplaceholder : s.accumulator.rootHash = placeholder := by
      rw [hwf.2, hnil]
      rfl
    have hone : acc = ⟨[ch.leaf 0], 1, ch.leaf 0⟩ := by
      have h1 := @InMemoryAccumulator.fromLeaves_singleton node placeholder (ch.leaf 0)
      rw [hv] at hacc
      simp only [leaves, zero_add, List.range_one, List.map_cons, List.map_nil] at hacc
      rw [hacc, Except.ok.injEq] at h1
      exact h1
    exact absurd (hplaceholder.symm.trans (hsame.trans (by rw [hone]))) (hleaf 0).symm
  · have hn' : s.accumulator.numLeaves = acc.numLeaves := by
      simp only [hversion, TransactionAccumulatorSummary.version, InMemoryAccumulator.version, hempty,
        ↓reduceIte, leaves, List.length_map, List.length_range] at hn
      omega
    have heq := InMemoryAccumulator.eq_of_wellFormed hnode hwf hwfacc hn' hsame
    rw [GenuineSummary, hacc, heq]

end Chain

end Diem
