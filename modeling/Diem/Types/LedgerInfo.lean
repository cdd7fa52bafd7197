import Diem.Types.ValidatorVerifier
import Diem.Theory.Maps

/-!
# Ledger infos, waypoints and epoch changes

`types/src/block_info.rs`, `ledger_info.rs`, `epoch_state.rs`, `waypoint.rs` and
`epoch_change.rs`: the block a ledger info commits, the signatures of a quorum on
it, the waypoint that pins one ledger info by version and hash, and the chain of
epoch-ending ledger infos by which a node learns the validator set of a later
epoch.

Signature checking is a parameter `sigOk`, and so is the hash of the fields a
waypoint commits to, `waypointHash`. The two implementations of the `Verifier`
trait are the two constructors of `Verifier`. `verify_signatures`
batch-verifies and falls back to one signature at a time; both accept the same
signatures, so it is modelled by `verify_aggregated_struct_signature`.
-/

namespace Diem

/-- `EpochState`: the epoch and its validator set. -/
structure EpochState where
  /-- The epoch. -/
  epoch : ℕ
  /-- Its validators. -/
  verifier : ValidatorVerifier
  deriving DecidableEq

/-- `BlockInfo`: what a block commits to. -/
structure BlockInfo where
  /-- The epoch of the block. -/
  epoch : ℕ
  /-- Its round. -/
  round : ℕ
  /-- Its id. -/
  id : HashValue
  /-- The root of the transaction accumulator after executing it. -/
  executedStateId : HashValue
  /-- The version after executing it. -/
  version : ℕ
  /-- Its timestamp. -/
  timestampUsecs : ℕ
  /-- The validator set of the next epoch, when the block ends an epoch. -/
  nextEpochState : Option EpochState
  deriving DecidableEq

namespace BlockInfo

/-- `BlockInfo::empty()`. -/
def empty : BlockInfo := ⟨0, 0, HashValue.zero, HashValue.zero, 0, 0, none⟩

/-- `has_reconfiguration`. -/
def hasReconfiguration (b : BlockInfo) : Bool := b.nextEpochState.isSome

/-- `match_ordered_only`. -/
def matchOrderedOnly (b executed : BlockInfo) : Bool :=
  b.epoch == executed.epoch && b.round == executed.round && b.id == executed.id &&
    (b.timestampUsecs == executed.timestampUsecs ||
      (decide (b.timestampUsecs > executed.timestampUsecs) && executed.hasReconfiguration))

/-- `next_block_epoch`: the epoch of the next block, one more when this block
ends an epoch. -/
def nextBlockEpoch (b : BlockInfo) : ℕ := b.nextEpochState.elim b.epoch (·.epoch)

/-- `is_ordered_only`: not empty, and carrying the dummy execution results
(`ACCUMULATOR_PLACEHOLDER_HASH`, here an argument) the ordering state computer
puts in. -/
def isOrderedOnly (accumulatorPlaceholderHash : HashValue) (b : BlockInfo) : Bool :=
  b != empty && b.nextEpochState.isNone && b.executedStateId == accumulatorPlaceholderHash &&
    b.version == 0

end BlockInfo

/-- `LedgerInfo`. -/
structure LedgerInfo where
  /-- The block this ledger info commits. -/
  commitInfo : BlockInfo
  /-- The hash of consensus data, opaque outside consensus. -/
  consensusDataHash : HashValue
  deriving DecidableEq

namespace LedgerInfo

/-- `epoch`. -/
def epoch (li : LedgerInfo) : ℕ := li.commitInfo.epoch

/-- `version`. -/
def version (li : LedgerInfo) : ℕ := li.commitInfo.version

/-- `transaction_accumulator_hash`. -/
def transactionAccumulatorHash (li : LedgerInfo) : HashValue := li.commitInfo.executedStateId

/-- `next_epoch_state`. -/
def nextEpochState (li : LedgerInfo) : Option EpochState := li.commitInfo.nextEpochState

/-- `ends_epoch`. -/
def endsEpoch (li : LedgerInfo) : Bool := li.nextEpochState.isSome

/-- `timestamp_usecs`. -/
def timestampUsecs (li : LedgerInfo) : ℕ := li.commitInfo.timestampUsecs

/-- `next_block_epoch`. -/
def nextBlockEpoch (li : LedgerInfo) : ℕ := li.commitInfo.nextBlockEpoch

end LedgerInfo

/-- `LedgerInfoWithSignatures` (its only version, `V0`). -/
structure LedgerInfoWithSignatures where
  /-- The signed ledger info. -/
  ledgerInfo : LedgerInfo
  /-- `BTreeMap<AccountAddress, Ed25519Signature>`. -/
  signatures : AList (fun _ : AccountAddress => Ed25519Signature)
  deriving DecidableEq

namespace LedgerInfoWithSignatures

/-- `add_signature`: `entry(validator).or_insert(signature)`, so a second
signature of the same validator is ignored. -/
def addSignature (li : LedgerInfoWithSignatures) (validator : AccountAddress) (signature : Ed25519Signature) :
    LedgerInfoWithSignatures :=
  { li with signatures := li.signatures.orInsert validator signature }

@[simp] theorem addSignature_signatures (li : LedgerInfoWithSignatures) (validator : AccountAddress)
    (signature : Ed25519Signature) :
    (li.addSignature validator signature).signatures = li.signatures.orInsert validator signature := rfl

@[simp] theorem addSignature_ledgerInfo (li : LedgerInfoWithSignatures) (validator : AccountAddress)
    (signature : Ed25519Signature) : (li.addSignature validator signature).ledgerInfo = li.ledgerInfo := rfl

/-- `verify_signatures`. -/
def verifySignatures (sigOk : Ed25519PublicKey → LedgerInfo → Ed25519Signature → Bool)
    (li : LedgerInfoWithSignatures) (validator : ValidatorVerifier) : Except VerifyError Unit :=
  validator.verifyAggregatedStructSignature sigOk li.ledgerInfo li.signatures

end LedgerInfoWithSignatures

/-- `Waypoint`: a version and the hash of chosen fields of the ledger info at
that version. -/
structure Waypoint where
  /-- The version of the reconfiguration transaction. -/
  version : ℕ
  /-- The hash of the chosen fields of the ledger info. -/
  value : HashValue
  deriving DecidableEq

/-- `Ledger2WaypointConverter`: the fields of a ledger info a waypoint hashes.
The consensus fields (round, block id, consensus data) are left out. -/
structure Ledger2WaypointConverter where
  /-- `epoch`. -/
  epoch : ℕ
  /-- `root_hash`, the transaction accumulator hash. -/
  rootHash : HashValue
  /-- `version`. -/
  version : ℕ
  /-- `timestamp_usecs`. -/
  timestampUsecs : ℕ
  /-- `next_epoch_state`. -/
  nextEpochState : Option EpochState
  deriving DecidableEq

/-- `Ledger2WaypointConverter::new`. -/
def Ledger2WaypointConverter.new (li : LedgerInfo) : Ledger2WaypointConverter :=
  ⟨li.epoch, li.transactionAccumulatorHash, li.version, li.timestampUsecs, li.nextEpochState⟩

/-- The value of a waypoint at a ledger info,
`Ledger2WaypointConverter::new(ledger_info).hash()`, for the hash `hash` of the
converter. -/
def Ledger2WaypointConverter.hashOf (hash : Ledger2WaypointConverter → HashValue) (li : LedgerInfo) : HashValue :=
  hash (new li)

namespace Waypoint

variable (waypointHash : LedgerInfo → HashValue)

/-- `Waypoint::new_any`. -/
def newAny (li : LedgerInfo) : Waypoint := ⟨li.version, waypointHash li⟩

/-- `Waypoint::new_epoch_boundary`. -/
def newEpochBoundary (li : LedgerInfo) : Except String Waypoint :=
  if li.endsEpoch then .ok (newAny waypointHash li) else .error "No validator set"

/-- `Waypoint::verify`. -/
def verify (w : Waypoint) (li : LedgerInfo) : Except String Unit :=
  if li.version ≠ w.version then .error "Waypoint version mismatch"
  else if waypointHash li ≠ w.value then .error "Waypoint value mismatch"
  else .ok ()

variable {waypointHash}

theorem verify_eq_ok {w : Waypoint} {li : LedgerInfo} :
    w.verify waypointHash li = .ok () ↔ li.version = w.version ∧ waypointHash li = w.value := by
  unfold verify
  split_ifs with hv hh <;> simp_all

end Waypoint

/-- The two implementations of the `Verifier` trait. -/
inductive Verifier where
  /-- `impl Verifier for Waypoint`. -/
  | waypoint (w : Waypoint)
  /-- `impl Verifier for EpochState`. -/
  | epochState (e : EpochState)

namespace Verifier

variable (sigOk : Ed25519PublicKey → LedgerInfo → Ed25519Signature → Bool) (waypointHash : LedgerInfo → HashValue)

/-- `Verifier::verify`. -/
def verify : Verifier → LedgerInfoWithSignatures → Except String Unit
  | .waypoint w, li => w.verify waypointHash li.ledgerInfo
  | .epochState e, li =>
    if e.epoch ≠ li.ledgerInfo.epoch then .error "LedgerInfo has unexpected epoch"
    else match li.verifySignatures sigOk e.verifier with
      | .ok () => .ok ()
      | .error _ => .error "invalid signatures"

/-- `Verifier::epoch_change_verification_required`. -/
def epochChangeVerificationRequired : Verifier → ℕ → Bool
  | .waypoint _, _ => true
  | .epochState e, epoch => decide (e.epoch < epoch)

/-- `Verifier::is_ledger_info_stale`. -/
def isLedgerInfoStale : Verifier → LedgerInfo → Bool
  | .waypoint w, li => decide (li.version < w.version)
  | .epochState e, li => decide (li.epoch < e.epoch)

/-- The loop of `EpochChangeProof::verify`: each ledger info is verified by
the current verifier, and the validator set it carries verifies the next. -/
def verifyChain : Verifier → List LedgerInfoWithSignatures → Except String Unit
  | _, [] => .ok ()
  | v, li :: rest => do
    v.verify sigOk waypointHash li
    match li.ledgerInfo.nextEpochState with
    | some e => verifyChain (.epochState e) rest
    | none => .error "LedgerInfo doesn't carry a ValidatorSet"

variable {sigOk waypointHash}

theorem verify_epochState_eq_ok {e : EpochState} {li : LedgerInfoWithSignatures} :
    (epochState e).verify sigOk waypointHash li = .ok () ↔
      e.epoch = li.ledgerInfo.epoch ∧ li.verifySignatures sigOk e.verifier = .ok () := by
  simp only [verify]
  by_cases he : e.epoch = li.ledgerInfo.epoch
  · simp only [he, ne_eq, not_true_eq_false, ↓reduceIte, true_and]
    split <;> simp_all
  · simp [he]

theorem verifyChain_cons_eq_ok {v : Verifier} {li : LedgerInfoWithSignatures} {rest : List LedgerInfoWithSignatures} :
    verifyChain sigOk waypointHash v (li :: rest) = .ok () ↔
      v.verify sigOk waypointHash li = .ok () ∧
        ∃ e, li.ledgerInfo.nextEpochState = some e ∧ verifyChain sigOk waypointHash (.epochState e) rest = .ok () := by
  simp only [verifyChain]
  cases hv : v.verify sigOk waypointHash li with
  | error msg => simp
  | ok u =>
    simp only [Except.ok_bind, true_and]
    split <;> simp_all

end Verifier

/-- `EpochChangeProof`. -/
structure EpochChangeProof where
  /-- The epoch-ending ledger infos, oldest first. -/
  ledgerInfoWithSigs : List LedgerInfoWithSignatures
  /-- Whether the server has more epoch changes than it sent. -/
  more : Bool

namespace EpochChangeProof

variable (sigOk : Ed25519PublicKey → LedgerInfo → Ed25519Signature → Bool) (waypointHash : LedgerInfo → HashValue)

/-- `EpochChangeProof::verify`: skip the stale prefix, verify the chain of the
rest, and return the last ledger info. -/
def verify (p : EpochChangeProof) (verifier : Verifier) : Except String LedgerInfoWithSignatures :=
  match p.ledgerInfoWithSigs.getLast? with
  | none => .error "The EpochChangeProof is empty"
  | some last =>
    if verifier.isLedgerInfoStale last.ledgerInfo then
      .error "The EpochChangeProof is stale as our verifier is already ahead of the entire EpochChangeProof"
    else do
      Verifier.verifyChain sigOk waypointHash verifier
        (p.ledgerInfoWithSigs.dropWhile fun li => verifier.isLedgerInfoStale li.ledgerInfo)
      pure last

variable {sigOk waypointHash}

/-- What an accepted epoch change proof is: its last ledger info is not stale,
and the ledger infos from the first one that is not stale form a verified
chain. -/
theorem verify_eq_ok {p : EpochChangeProof} {verifier : Verifier} {li : LedgerInfoWithSignatures} :
    p.verify sigOk waypointHash verifier = .ok li ↔
      p.ledgerInfoWithSigs.getLast? = some li ∧ verifier.isLedgerInfoStale li.ledgerInfo = false ∧
        Verifier.verifyChain sigOk waypointHash verifier
          (p.ledgerInfoWithSigs.dropWhile fun li => verifier.isLedgerInfoStale li.ledgerInfo) = .ok () := by
  unfold verify
  split
  · rename_i hlast
    simp [hlast]
  · rename_i last hlast
    rw [hlast, Option.some.injEq]
    by_cases hstale : verifier.isLedgerInfoStale last.ledgerInfo = true
    · simp only [hstale, ↓reduceIte, reduceCtorEq, false_iff, not_and]
      rintro rfl
      simp [hstale]
    · simp only [hstale, Bool.false_eq_true, ↓reduceIte]
      cases hc : Verifier.verifyChain sigOk waypointHash verifier
          (p.ledgerInfoWithSigs.dropWhile fun li => verifier.isLedgerInfoStale li.ledgerInfo) with
      | error msg => simp
      | ok u =>
        simp only [Except.ok_bind, pure, Except.pure, Except.ok.injEq]
        constructor
        · rintro rfl
          simp_all
        · rintro ⟨rfl, -, -⟩
          rfl

end EpochChangeProof

end Diem
