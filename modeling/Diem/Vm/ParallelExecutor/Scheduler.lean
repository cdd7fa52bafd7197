import Mathlib.Data.List.Sort
import Diem.Vm.MVHashMap

/-!
# The state the workers of the parallel executor share

`language/diem-vm/parallel-executor/src`: the task interface, the executor's
errors, the array of per-transaction results and the scheduler, which hands out
transaction versions to the workers: first from `txn_buffer`, the versions whose
dependencies are resolved, then in order from `execution_marker`, up to
`stop_at_version`.

Every operation here is one atomic access of the shared state: an atomic load,
store, `fetch_add` or `fetch_min`, a `SegQueue` push or pop, or what is done
under one `RwLock`. `next_txn_to_execute` and `finish_execution` are each several
such accesses, with other workers free to run between them:
`next_txn_to_execute` is `popBuffer`, then `fetchAddMarker`, then a comparison
with `numTxnToExecute`, and `finish_execution` is `markExecuted`, then
`takeDependencies`, then one `addTransaction` per dependency. An index out of
range, or a failed `assert!`, is a `none`. An array in which no result was set
yields `Err(InvariantViolation)` (`getAllResults_new`).
-/

namespace Diem.Vm

/-- `task::ExecutionStatus`: what the execution of a transaction gave. -/
inductive ExecutionStatus (O E : Type) where
  /-- Executed. -/
  | Success (output : O)
  /-- Stop the whole block with this error. -/
  | Abort (err : E)
  /-- Executed; skip the transactions after it. -/
  | SkipRest (output : O)
  deriving DecidableEq, Repr

/-- `task::Accesses`: the inferred read and write set of a transaction. -/
structure Accesses (K : Type) where
  /-- `keys_read`. -/
  keysRead : List K
  /-- `keys_written`. -/
  keysWritten : List K
  deriving DecidableEq, Repr

/-- `errors::Error`. -/
inductive Error (E : Type) where
  /-- An internal error of the scheduler. -/
  | InvariantViolation
  /-- The inferencer failed on a transaction, or found no write. -/
  | InferencerError
  /-- A transaction wrote a key outside its inferred write set. -/
  | UnestimatedWrite
  /-- A transaction aborted. -/
  | UserError (err : E)
  deriving DecidableEq, Repr

/-- `OutcomeArray`: one write-once result per transaction. -/
structure OutcomeArray (O E : Type) where
  /-- `results`. -/
  results : List (Option (ExecutionStatus O (Error E)))

namespace OutcomeArray

variable {O E : Type}

/-- `new`. -/
def new (len : ℕ) : OutcomeArray O E := ⟨List.replicate len none⟩

/-- `set_result`: `none` when the index is out of range or the result is
already set (the `assert!`). -/
def setResult (a : OutcomeArray O E) (idx : ℕ) (res : ExecutionStatus O (Error E)) :
    Option (OutcomeArray O E) :=
  match a.results[idx]? with
  | some none => some ⟨a.results.set idx (some res)⟩
  | _ => none

/-- The loop of `get_all_results` over the first `stopAt` results, from index `idx`. -/
def collectResults (stopAt : ℕ) : ℕ → List (Option (ExecutionStatus O (Error E))) → Except (Error E) (List O)
  | _, [] => .ok []
  | idx, status :: rest => do
    let t ← match status with
      | some (.Success t) => pure t
      | some (.SkipRest t) => if idx = stopAt - 1 then pure t else throw .InvariantViolation
      | some (.Abort err) => throw err
      | none => throw .InvariantViolation
    let ts ← collectResults stopAt (idx + 1) rest
    pure (t :: ts)

/-- `get_all_results`: the outputs of the first `stopAt` transactions, padded
with `skipOutput`; `none` when the final `assert!` fails. -/
def getAllResults (a : OutcomeArray O E) (stopAt : ℕ) (skipOutput : O) : Option (Except (Error E) (List O)) :=
  match collectResults stopAt 0 (a.results.take stopAt) with
  | .error err => some (.error err)
  | .ok finalResults =>
    if finalResults.length = stopAt then
      some (.ok (finalResults ++ List.replicate (a.results.length - stopAt) skipOutput))
    else none

theorem getAllResults_new {len stopAt : ℕ} (hpos : 0 < stopAt) (hle : stopAt ≤ len) (skipOutput : O) :
    (new len : OutcomeArray O E).getAllResults stopAt skipOutput = some (.error .InvariantViolation) := by
  obtain ⟨k, rfl⟩ := Nat.exists_eq_add_of_lt hpos
  have htake : (List.replicate len (none : Option (ExecutionStatus O (Error E)))).take (0 + k + 1) =
      none :: List.replicate k none := by
    rw [List.take_replicate, min_eq_left hle, Nat.zero_add, List.replicate_succ]
  simp only [getAllResults, new, htake, collectResults]
  rfl

end OutcomeArray

namespace Scheduler

/-- The `ExecutionStatus` of `scheduler.rs`: whether a version has finished
an execution. -/
inductive ExecutionStatus where
  | Executed
  | NotExecuted
  deriving DecidableEq, Repr

end Scheduler

/-- `Scheduler`. -/
structure Scheduler where
  /-- `execution_marker`: the next version not yet handed out in order. -/
  executionMarker : ℕ
  /-- `stop_at_version`. -/
  stopAtVersion : ℕ
  /-- `txn_buffer`: versions ready to run again, first in first out. -/
  txnBuffer : List Version
  /-- `txn_dependency`: for each version, the versions waiting for it. -/
  txnDependency : List (List Version)
  /-- `txn_status`. -/
  txnStatus : List Scheduler.ExecutionStatus

namespace Scheduler

/-- `new`. -/
def new (numTxns : ℕ) : Scheduler :=
  ⟨0, numTxns, [], List.replicate numTxns [], List.replicate numTxns .NotExecuted⟩

/-- `txn_buffer.pop()`, the first access of `next_txn_to_execute`. -/
def popBuffer (s : Scheduler) : Option Version × Scheduler :=
  match s.txnBuffer with
  | [] => (none, s)
  | version :: rest => (some version, { s with txnBuffer := rest })

/-- `execution_marker.fetch_add(1)`, when the buffer was empty. -/
def fetchAddMarker (s : Scheduler) : Version × Scheduler :=
  (s.executionMarker, { s with executionMarker := s.executionMarker + 1 })

/-- `num_txn_to_execute`. -/
def numTxnToExecute (s : Scheduler) : Version := s.stopAtVersion

/-- `add_dependency`, under the lock of `txn_dependency[dep_version]`: record
that `version` waits for `depVersion` unless that has finished executing, and
say whether it was recorded. -/
def addDependency (s : Scheduler) (version depVersion : Version) : Option (Bool × Scheduler) := do
  let storedDeps ← s.txnDependency[depVersion]?
  let status ← s.txnStatus[depVersion]?
  if status ≠ .Executed then
    pure (true, { s with txnDependency := s.txnDependency.set depVersion (storedDeps ++ [version]) })
  else pure (false, s)

/-- The status store that starts `finish_execution`. -/
def markExecuted (s : Scheduler) (version : Version) : Option Scheduler :=
  if version < s.txnStatus.length then some { s with txnStatus := s.txnStatus.set version .Executed }
  else none

/-- The `std::mem::take` of `finish_execution` under the lock of
`txn_dependency[version]`, with the `sort_unstable` after it. -/
def takeDependencies (s : Scheduler) (version : Version) : Option (List Version × Scheduler) := do
  let storedDeps ← s.txnDependency[version]?
  pure (storedDeps.insertionSort (· ≤ ·), { s with txnDependency := s.txnDependency.set version [] })

/-- `set_stop_version`: `fetch_min`. -/
def setStopVersion (s : Scheduler) (stopVersion : Version) : Scheduler :=
  { s with stopAtVersion := min s.stopAtVersion stopVersion }

/-- `add_transaction`, and each `txn_buffer.push` of `finish_execution`. -/
def addTransaction (s : Scheduler) (version : Version) : Scheduler :=
  { s with txnBuffer := s.txnBuffer ++ [version] }

end Scheduler

end Diem.Vm
